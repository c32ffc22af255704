import OpenServer.Composer.Lemmas.Reassembly

/-!
This module shows what becomes of a received chunk that carries several requests, or one and the start
of the next. The composer looks only at the end of a chunk and never cuts it.
-/

namespace HtmlMessageComposer

structure Framed (result : HtmlMessageComposer × Option ClientSession) (socket : Int)
    (blocks : List Bytes) (remainder : Bytes) : Prop where
  handed : result.2.toList.map (·.request.requestHeader) = blocks
  stored : (result.1.messages socket).map (·.request.requestHeader)
    = if remainder = [] then none else some remainder

section Chunk

variable {c : HtmlMessageComposer} {socket : Int} {data chunk : Bytes} {dataSize : Nat}
  (hfresh : c.messages socket = none) (hchunk : data.take dataSize = chunk)

include hfresh hchunk

theorem onClientDataArrived_fresh (fdsIndex : Nat)
    : let msg := ClientSession.ofRequest socket fdsIndex chunk
      let result := c.onClientDataArrived socket fdsIndex data dataSize
      (isComplete chunk → result.2 = some msg ∧ result.1.messages socket = none)
        ∧ (¬ isComplete chunk → result.2 = none ∧ result.1.messages socket = some msg) := by
  have hmsg : c.storeData socket fdsIndex data dataSize
      = ClientSession.ofRequest socket fdsIndex chunk := by
    simp [storeData, hfresh, hchunk, ClientSession.ofRequest]
  have hheader : (c.storeData socket fdsIndex data dataSize).request.requestHeader = chunk := by
    rw [hmsg, ClientSession.ofRequest]
  constructor
  . intro hcomplete
    rw [onClientDataArrived_of_complete (by rwa [hheader]), hmsg]
    simp
  . intro hincomplete
    rw [onClientDataArrived_of_incomplete (by rwa [hheader]), hmsg]
    simp

end Chunk

theorem isComplete_flatten {blocks : List Bytes} (hblocks : ∀ b ∈ blocks, TerminatedOnce b)
    (hlength : blocks.length = 1)
    : isComplete blocks.flatten := by
  obtain ⟨b, rfl⟩ := List.length_eq_one_iff.mp hlength
  simpa using (hblocks b List.mem_cons_self).isComplete

theorem framed_iff {c : HtmlMessageComposer} {blocks : List Bytes}
    (hfresh : c.messages socket = none) (hblocks : ∀ b ∈ blocks, TerminatedOnce b)
    (hremainder : ¬ terminator <:+: remainder)
    (hchunk : data.take dataSize = blocks.flatten ++ remainder) (fdsIndex : Nat)
    : let msg := ClientSession.ofRequest socket fdsIndex (blocks.flatten ++ remainder)
      let result := c.onClientDataArrived socket fdsIndex data dataSize
      (Framed result socket blocks remainder
          ↔ blocks = [] ∧ remainder ≠ [] ∨ blocks.length = 1 ∧ remainder = [])
        ∧ (isComplete (blocks.flatten ++ remainder) →
            result.2 = some msg ∧ result.1.messages socket = none)
        ∧ (¬ isComplete (blocks.flatten ++ remainder) →
            result.2 = none ∧ result.1.messages socket = some msg) := by
  intro msg result
  obtain ⟨hcomplete, hincomplete⟩ := onClientDataArrived_fresh hfresh hchunk fdsIndex
  refine ⟨?_, hcomplete, hincomplete⟩
  constructor
  . rintro ⟨hhanded, hstored⟩
    by_cases hend : isComplete (blocks.flatten ++ remainder)
    . right
      rw [(hcomplete hend).1] at hhanded
      have hone : blocks = [blocks.flatten ++ remainder] := hhanded.symm
      have hflatten := congrArg List.flatten hone
      rw [List.flatten_singleton] at hflatten
      exact ⟨by rw [hone]; rfl, List.self_eq_append_right.mp hflatten⟩
    . left
      rw [(hincomplete hend).1] at hhanded
      rw [(hincomplete hend).2] at hstored
      refine ⟨hhanded.symm, ?_⟩
      rintro rfl
      simp at hstored
  . rintro (⟨rfl, hne⟩ | ⟨hlength, rfl⟩)
    . have hend : ¬ isComplete ([].flatten ++ remainder) := by
        rw [isComplete_iff]
        exact fun h => hremainder h.isInfix
      constructor
      . rw [(hincomplete hend).1]
        rfl
      . rw [(hincomplete hend).2, if_neg hne]
        rfl
    . have hend : isComplete (blocks.flatten ++ []) := by
        rw [List.append_nil]
        exact isComplete_flatten hblocks hlength
      obtain ⟨b, rfl⟩ := List.length_eq_one_iff.mp hlength
      constructor
      . rw [(hcomplete hend).1]
        simp [ClientSession.ofRequest]
      . rw [(hcomplete hend).2]
        rfl

def requestA : Bytes :=
  ascii "GET /a HTTP/1.1\r\n\r\n"

def requestB : Bytes :=
  ascii "GET /b HTTP/1.1\r\n\r\n"

theorem requests_terminatedOnce : ∀ r ∈ [requestA, requestB], TerminatedOnce r := by
  simp only [List.mem_cons, List.not_mem_nil, or_false, forall_eq_or_imp, forall_eq]
  exact ⟨TerminatedOnce.of_take (by decide) (by decide),
    TerminatedOnce.of_take (by decide) (by decide)⟩

theorem framed_iff_twoRequests
    : (({} : HtmlMessageComposer).onClientDataArrived 5 1 (requestA ++ requestB) 38).2
        =
      some (ClientSession.ofRequest 5 1 (requestA ++ requestB)) := by
  have hchunk : (requestA ++ requestB).take 38 = [requestA, requestB].flatten ++ [] := by rfl
  exact ((framed_iff (c := {}) rfl requests_terminatedOnce (by decide) hchunk 1).2.1
    (by decide)).1

theorem not_framed_of_twoRequests
    : ¬ ∀ (c : HtmlMessageComposer) (socket : Int) (fdsIndex : Nat) (data : Bytes) (dataSize : Nat)
        (blocks : List Bytes) (remainder : Bytes), c.messages socket = none →
        0 < dataSize → dataSize ≤ data.length →
        (∀ b ∈ blocks, TerminatedOnce b) → ¬ terminator <:+: remainder →
        data.take dataSize = blocks.flatten ++ remainder →
        Framed (c.onClientDataArrived socket fdsIndex data dataSize) socket blocks remainder := by
  intro h
  have hframed := h {} 5 1 (requestA ++ requestB) 38 [requestA, requestB] [] rfl (by decide)
    (by decide) requests_terminatedOnce (by decide) rfl
  -- one message cannot be two
  have := congrArg List.length hframed.handed
  revert this
  decide

end HtmlMessageComposer
