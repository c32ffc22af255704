import OpenServer.Dispatcher.Lemmas.Request
import OpenServer.Dispatcher.Lemmas.SendLoop

/-!
This module contains the case analysis of one iteration of `dispatchMessageQueue`, and when it pops
the session it worked on.
-/

namespace HttpMessageDispatcher

variable {qt : Qt} {inp : Input}

@[simp]
theorem endSend_isCached (c : ClientSession) (e : SendEnd) : (endSend c e).isCached = c.isCached := by
  unfold endSend
  split
  . rfl
  . rfl
  . split <;> rfl
  . split <;> rfl

@[simp]
theorem eraseSent_isCached (c : ClientSession) (n : Nat)
    : (eraseSent c n).isCached = c.isCached := by
  unfold eraseSent
  dsimp only
  split <;> rfl

def sendData (c : ClientSession) (data : Bytes) (results : Nat → SendResult) : ClientSession :=
  let loop := sendLoop data results 0
  eraseSent (endSend c loop.ending) loop.totalBytes

theorem isFinished_of_cached (data : Bytes) (results : Nat → SendResult) (h : c.isCached)
    : isFinished (sendData c data results) := by
  simp [isFinished, sendData, h]

theorem sendData_of_own (data : Bytes) (results : Nat → SendResult) (h : c.isCached = false)
    : (sendData c data results).sendMessage
          = c.sendMessage.drop (sendLoop data results 0).totalBytes
        ∧ (sendData c data results).sendMessageHasMoreBytes = c.sendMessageHasMoreBytes := by
  unfold sendData
  rcases sendLoop data results 0 with ⟨totalBytes, ending, sent⟩
  cases ending <;> simp [endSend, eraseSent, h]

theorem isFinished_of_own (h : c.isCached = false)
    : isFinished (sendData c c.sendMessage results)
        ↔
      (sendLoop c.sendMessage results 0).ending = .complete
        ∧ c.sendMessageHasMoreBytes = false := by
  obtain ⟨hmessage, hmore⟩ := sendData_of_own c.sendMessage results h
  have hcached : (sendData c c.sendMessage results).isCached = false := by simp [sendData, h]
  have hle := sendLoop.totalBytes_le c.sendMessage results 0 (by omega)
  rw [sendLoop.complete_iff_totalBytes _ _ _ (by omega)]
  simp only [isFinished, hcached, hmessage, hmore, List.length_drop, Bool.false_or,
    Bool.and_eq_true, beq_iff_eq, Bool.not_eq_true']
  apply and_congr_left'
  omega

inductive Iterated (qt : Qt) (inp : Input) (sh : Shared) (queue : List (Queued τ))
    : Iteration τ → Prop where
  | popped (hrotate : rotate queue = front :: rest)
      (hrequest : onClientRequest qt inp.disk inp.indeterminate sh front.session = some (sh', c))
      (hdata : responseData sh' c = some data)
      (hfinished : isFinished (sendData c data inp.results))
      : Iterated qt inp sh queue
          { shared := sh', queue := rest, worked := front.tag,
            loop := sendLoop data inp.results 0, popped := true,
            close := closeRequest (sendData c data inp.results) }
  | kept (hrotate : rotate queue = front :: rest)
      (hrequest : onClientRequest qt inp.disk inp.indeterminate sh front.session = some (sh', c))
      (hdata : responseData sh' c = some data)
      (hfinished : ¬ isFinished (sendData c data inp.results))
      : Iterated qt inp sh queue
          { shared := sh',
            queue := { front with session := sendData c data inp.results } :: rest,
            worked := front.tag, loop := sendLoop data inp.results 0, popped := false,
            close := none }

theorem iterate_cases {queue : List (Queued τ)} (h : iterate qt inp sh queue = some r)
    : Iterated qt inp sh queue r := by
  unfold iterate at h
  split at h
  . cases h
  . next front rest hrotate =>
    simp only [serveFront, Option.bind_eq_bind, Option.bind_eq_some_iff, Option.some.injEq] at h
    obtain ⟨_, ⟨⟨sh', c⟩, hrequest, data, hdata, rfl⟩, h⟩ := h
    dsimp only at h
    split at h
    . next hfinished =>
      injection h with h
      rw [← h]
      exact .popped hrotate hrequest hdata hfinished
    . next hfinished =>
      injection h with h
      rw [← h]
      exact .kept hrotate hrequest hdata hfinished

theorem iterate_of_cached {queue : List (Queued τ)} (hrotate : rotate queue = front :: rest)
    (hrequest : onClientRequest qt inp.disk inp.indeterminate sh front.session = some (sh', c))
    (hcached : c.isCached) (hdata : responseData sh' c = some data)
    : iterate qt inp sh queue
        =
      some { shared := sh', queue := rest, worked := front.tag,
             loop := sendLoop data inp.results 0, popped := true,
             close := closeRequest (sendData c data inp.results) } := by
  have := isFinished_of_cached data inp.results hcached
  unfold sendData at this
  simp [iterate, hrotate, serveFront, hrequest, hdata, this, sendData]

end HttpMessageDispatcher
