import OpenServer.Composer.Lemmas.Reassembly
import OpenServer.Transition.History

/-!
This module contains the store of the composer over whole sequences of `onClientDataArrived` calls,
against the half requests that the calls have opened and not yet completed.
-/

namespace HtmlMessageComposer

structure Call where
  socket : Int
  fdsIndex : Nat
  data : Bytes
  dataSize : Nat
  dataSize_pos : 0 < dataSize
  dataSize_le : dataSize ≤ data.length

def call (c : HtmlMessageComposer) (a : Call) : HtmlMessageComposer × Option ClientSession :=
  c.onClientDataArrived a.socket a.fdsIndex a.data a.dataSize

def calls : Machine HtmlMessageComposer Call where
  init c := c = {}
  step c a := some (c.call a).1

-- The slot named by the call that opened the request, and the bytes collected since.
structure HalfRequest where
  fdsIndex : Nat
  header : Bytes

def HalfRequest.ofSession (msg : ClientSession) : HalfRequest where
  fdsIndex := msg.fdsIndex
  header := msg.request.requestHeader

def accumulate (half : Int → Option HalfRequest) (a : Call) : HalfRequest :=
  match half a.socket with
  | none => { fdsIndex := a.fdsIndex, header := a.data.take a.dataSize }
  | some opened => { opened with header := opened.header ++ a.data }

def halfRequests : History HtmlMessageComposer Call (Int → Option HalfRequest) where
  start _ := none
  extend half _ a _ :=
    Function.update half a.socket
      (if terminator <:+ (accumulate half a).header then none else some (accumulate half a))

structure Tracks (c : HtmlMessageComposer) (half : Int → Option HalfRequest) : Prop where
  keyed : c.Keyed
  half : ∀ n, (c.messages n).map .ofSession = half n
  unfinished : ∀ n msg, c.messages n = some msg →
    msg.request.requestHeader ≠ [] ∧ ¬ terminator <:+ msg.request.requestHeader

structure Handled (half : Int → Option HalfRequest) (c : HtmlMessageComposer) (a : Call) : Prop where
  handed : (c.call a).2.isSome ↔ terminator <:+ (accumulate half a).header
  message : ∀ msg, (c.call a).2 = some msg →
    msg.socket = a.socket ∧ HalfRequest.ofSession msg = accumulate half a
      ∧ (c.call a).1.messages a.socket = none
  others : ∀ n, n ≠ a.socket → (c.call a).1.messages n = c.messages n

variable {c : HtmlMessageComposer} {half : Int → Option HalfRequest}

theorem Tracks.storeData (h : Tracks c half) (a : Call)
    : HalfRequest.ofSession (c.storeData a.socket a.fdsIndex a.data a.dataSize)
        =
      accumulate half a := by
  unfold HtmlMessageComposer.storeData accumulate
  rw [← h.half]
  cases c.messages a.socket with
  | none => rfl
  | some stored => rfl

theorem Tracks.storeData_header (h : Tracks c half) (a : Call)
    : (c.storeData a.socket a.fdsIndex a.data a.dataSize).request.requestHeader
        =
      (accumulate half a).header :=
  congrArg HalfRequest.header (h.storeData a)

theorem Tracks.isComplete_iff (h : Tracks c half) (a : Call)
    : isComplete (c.storeData a.socket a.fdsIndex a.data a.dataSize).request.requestHeader
        ↔
      terminator <:+ (accumulate half a).header := by
  rw [h.storeData_header, HtmlMessageComposer.isComplete_iff]

theorem accumulate_ne_nil (half : Int → Option HalfRequest) (a : Call)
    : (accumulate half a).header ≠ [] := by
  have hpos := a.dataSize_pos
  have hdata : 0 < a.data.length := Nat.lt_of_lt_of_le hpos a.dataSize_le
  rw [← List.length_pos_iff]
  unfold accumulate
  split
  . simp only [List.length_take]
    omega
  . simp only [List.length_append]
    omega

theorem Tracks.call (h : Tracks c half) (a : Call)
    : Tracks (c.call a).1 (halfRequests.extend half c a (c.call a).1) where
  keyed := h.keyed.onClientDataArrived a.socket a.fdsIndex a.data a.dataSize
  half n := by
    have hextend : halfRequests.extend half c a (c.call a).1 = Function.update half a.socket
        (if terminator <:+ (accumulate half a).header then none else some (accumulate half a)) := by
      rfl
    rw [hextend, HtmlMessageComposer.call, onClientDataArrived_messages]
    by_cases hn : n = a.socket
    . rw [hn, Function.update_self, Function.update_self]
      simp only [h.isComplete_iff]
      split
      . rfl
      . rw [Option.map_some, h.storeData]
    . rw [Function.update_of_ne hn, Function.update_of_ne hn, h.half]
  unfinished n msg hmsg := by
    obtain ⟨rfl, hend, rfl⟩ | hold := entry_cases hmsg
    . rw [h.isComplete_iff] at hend
      rw [h.storeData_header]
      exact ⟨accumulate_ne_nil half a, hend⟩
    . exact h.unfinished n msg hold

theorem Tracks.handled (h : Tracks c half) (a : Call) : Handled half c a := by
  have hothers : ∀ n, n ≠ a.socket → (c.call a).1.messages n = c.messages n := by
    intro n hn
    exact onClientDataArrived_messages_of_ne c a.fdsIndex a.data a.dataSize hn
  by_cases hend : isComplete (c.storeData a.socket a.fdsIndex a.data a.dataSize).request.requestHeader
  . have hcall : c.call a = _ := onClientDataArrived_of_complete hend
    refine ⟨?_, ?_, hothers⟩
    . simp [hcall, ← h.isComplete_iff, hend]
    . intro msg hmsg
      refine ⟨h.keyed.message_socket hmsg, ?_, by simp [hcall]⟩
      rw [message_eq hmsg, h.storeData]
  . have hcall : c.call a = _ := onClientDataArrived_of_incomplete hend
    refine ⟨?_, ?_, hothers⟩
    . simp [hcall, ← h.isComplete_iff, hend]
    . intro msg hmsg
      simp [hcall] at hmsg

theorem tracks_of_reachable (h : (calls.withHistory halfRequests).Reachable p) : Tracks p.1 p.2 := by
  apply Machine.ReachBy.history_invariant _ _ h
  . intro c hc
    rw [hc]
    constructor
    . intro n msg hmsg
      cases hmsg
    . intro n
      rfl
    . intro n msg hmsg
      cases hmsg
  . intro c half a c' hc _ ht
    injection ht with ht
    rw [← ht]
    exact hc.call a

theorem store_invariant
    : ∀ p, (calls.withHistory halfRequests).Reachable p →
        (∀ n msg, p.1.messages n = some msg → msg.socket = n ∧ msg.request.requestHeader ≠ []
            ∧ ¬ terminator <:+ msg.request.requestHeader)
          ∧ (∀ n, (p.1.messages n).map .ofSession = p.2 n)
          ∧ ∀ a, Handled p.2 p.1 a := by
  intro p hp
  have h := tracks_of_reachable hp
  refine ⟨?_, h.half, h.handled⟩
  intro n msg hmsg
  exact ⟨h.keyed n msg hmsg, h.unfinished n msg hmsg⟩

def callRequestLine : Call where
  socket := 5
  fdsIndex := 1
  data := ascii "GET / HTTP/1.1\r\n"
  dataSize := 16
  dataSize_pos := by decide
  dataSize_le := by decide

def callEmptyLine : Call where
  socket := 5
  fdsIndex := 2
  data := ascii "\r\n"
  dataSize := 2
  dataSize_pos := by decide
  dataSize_le := by decide

-- The second call completes the request under the slot of the first.
theorem store_invariant_callEmptyLine
    : ∃ p, (calls.withHistory halfRequests).run ({}, fun _ => none) [callRequestLine] = some p
        ∧ (accumulate p.2 callEmptyLine).fdsIndex = 1
        ∧ (p.1.call callEmptyLine).2.isSome := by
  refine ⟨_, rfl, rfl, ?_⟩
  refine ((store_invariant _ ?_).2.2 callEmptyLine).handed.mpr (by decide)
  have hinit : (calls.withHistory halfRequests).init ({}, fun _ => none) := ⟨rfl, rfl⟩
  exact Machine.Reachable.run (.init hinit) [callRequestLine] rfl

end HtmlMessageComposer
