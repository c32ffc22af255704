import OpenServer.Composer.Impl.OnClientDataArrived

/-!
This module contains what one `onClientDataArrived` does to the store of half requests.
-/

namespace HtmlMessageComposer

theorem onClientDataArrived_of_complete {c : HtmlMessageComposer}
    (h : isComplete (c.storeData socket fdsIndex data dataSize).request.requestHeader)
    : c.onClientDataArrived socket fdsIndex data dataSize
        =
      ({ messages := Function.update c.messages socket none },
        some (c.storeData socket fdsIndex data dataSize)) := by
  simp [onClientDataArrived, verifyMessageComplete, h]

theorem onClientDataArrived_of_incomplete {c : HtmlMessageComposer}
    (h : ¬ isComplete (c.storeData socket fdsIndex data dataSize).request.requestHeader)
    : c.onClientDataArrived socket fdsIndex data dataSize
        =
      ({ messages :=
          Function.update c.messages socket (some (c.storeData socket fdsIndex data dataSize)) },
        none) := by
  simp [onClientDataArrived, verifyMessageComplete, h]

theorem onClientDataArrived_messages (c : HtmlMessageComposer) (socket : Int) (fdsIndex : Nat)
    (data : Bytes) (dataSize : Nat)
    : (c.onClientDataArrived socket fdsIndex data dataSize).1.messages
        =
      Function.update c.messages socket
        (if isComplete (c.storeData socket fdsIndex data dataSize).request.requestHeader then
          none
        else
          some (c.storeData socket fdsIndex data dataSize)) := by
  split
  . next hc => rw [onClientDataArrived_of_complete hc]
  . next hc => rw [onClientDataArrived_of_incomplete hc]

theorem onClientDataArrived_messages_of_ne (c : HtmlMessageComposer) (fdsIndex : Nat) (data : Bytes)
    (dataSize : Nat) (h : n ≠ socket)
    : (c.onClientDataArrived socket fdsIndex data dataSize).1.messages n = c.messages n := by
  rw [onClientDataArrived_messages, Function.update_of_ne h]

theorem entry_cases {c : HtmlMessageComposer}
    (h : (c.onClientDataArrived socket fdsIndex data dataSize).1.messages n = some msg)
    : n = socket ∧ ¬ isComplete msg.request.requestHeader
          ∧ msg = c.storeData socket fdsIndex data dataSize
        ∨ c.messages n = some msg := by
  rw [onClientDataArrived_messages] at h
  by_cases hn : n = socket
  . left
    rw [hn, Function.update_self] at h
    split at h
    . cases h
    . next hc =>
      injection h with h
      rw [← h]
      exact ⟨hn, hc, rfl⟩
  . right
    rwa [Function.update_of_ne hn] at h

theorem message_eq {c : HtmlMessageComposer}
    (h : (c.onClientDataArrived socket fdsIndex data dataSize).2 = some msg)
    : msg = c.storeData socket fdsIndex data dataSize := by
  by_cases hc : isComplete (c.storeData socket fdsIndex data dataSize).request.requestHeader
  . rw [onClientDataArrived_of_complete hc] at h
    injection h with h
    rw [h]
  . rw [onClientDataArrived_of_incomplete hc] at h
    cases h

def Keyed (c : HtmlMessageComposer) : Prop :=
  ∀ n msg, c.messages n = some msg → msg.socket = n

theorem Keyed.storeData_socket {c : HtmlMessageComposer} (h : c.Keyed)
    : (c.storeData socket fdsIndex data dataSize).socket = socket := by
  unfold storeData
  split
  . rfl
  . next stored hstored => exact h socket stored hstored

theorem Keyed.onClientDataArrived {c : HtmlMessageComposer} (h : c.Keyed) (socket : Int)
    (fdsIndex : Nat) (data : Bytes) (dataSize : Nat)
    : (c.onClientDataArrived socket fdsIndex data dataSize).1.Keyed := by
  intro n msg hmsg
  obtain ⟨rfl, -, rfl⟩ | hold := entry_cases hmsg
  . exact h.storeData_socket
  . exact h n msg hold

theorem Keyed.message_socket {c : HtmlMessageComposer} (h : c.Keyed)
    (hmsg : (c.onClientDataArrived socket fdsIndex data dataSize).2 = some msg)
    : msg.socket = socket := by
  rw [message_eq hmsg, h.storeData_socket]

-- What holds of the descriptor and the slot that every half request has recorded.
def Records (P : Int → Nat → Prop) (c : HtmlMessageComposer) : Prop :=
  ∀ n msg, c.messages n = some msg → P msg.socket msg.fdsIndex

theorem Records.storeData {c : HtmlMessageComposer} (h : c.Records P) (hnew : P socket fdsIndex)
    : P (c.storeData socket fdsIndex data dataSize).socket
        (c.storeData socket fdsIndex data dataSize).fdsIndex := by
  unfold HtmlMessageComposer.storeData
  split
  . exact hnew
  . next stored hstored => exact h socket stored hstored

theorem Records.onClientDataArrived {c : HtmlMessageComposer} (h : c.Records P)
    (hnew : P socket fdsIndex) (data : Bytes) (dataSize : Nat)
    : (c.onClientDataArrived socket fdsIndex data dataSize).1.Records P := by
  intro n msg hmsg
  obtain ⟨rfl, -, rfl⟩ | hold := entry_cases hmsg
  . exact h.storeData hnew
  . exact h n msg hold

theorem Records.message {c : HtmlMessageComposer} (h : c.Records P) (hnew : P socket fdsIndex)
    (hmsg : (c.onClientDataArrived socket fdsIndex data dataSize).2 = some msg)
    : P msg.socket msg.fdsIndex := by
  rw [message_eq hmsg]
  exact h.storeData hnew

end HtmlMessageComposer
