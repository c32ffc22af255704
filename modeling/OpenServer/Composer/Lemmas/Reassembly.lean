import Mathlib.Data.List.Basic
import OpenServer.Composer.Lemmas.Store

/-!
This module shows for which cuts of a request into received chunks the composer puts the request
together again.
-/

@[simp]
theorem RecvBuffer.received_length (b : RecvBuffer) : b.received.length = b.dataSize := by
  have := b.dataSize_le
  rw [received, List.length_take, b.length_eq]
  omega

namespace HtmlMessageComposer

def terminator : Bytes := [13, 10, 13, 10]

theorem isComplete_iff (header : Bytes) : isComplete header ↔ terminator <:+ header := by
  rw [← List.reverse_prefix]
  unfold isComplete terminator
  split
  . next heq => simp [heq]
  . next hne =>
    simp only [Bool.false_eq_true, List.reverse_cons, List.reverse_nil, List.nil_append,
      List.cons_append, false_iff]
    rintro ⟨rest, hrest⟩
    exact hne rest hrest.symm

theorem storeData_of_none {c : HtmlMessageComposer} (h : c.messages socket = none)
    : (c.storeData socket fdsIndex data dataSize).request.requestHeader = data.take dataSize := by
  simp [storeData, h]

theorem storeData_of_some {c : HtmlMessageComposer} (h : c.messages socket = some msg)
    : (c.storeData socket fdsIndex data dataSize).request.requestHeader
        =
      msg.request.requestHeader ++ data := by
  simp [storeData, h]

structure Arrival extends RecvBuffer where
  fdsIndex : Nat

def arrive (c : HtmlMessageComposer) (socket : Int) (a : Arrival)
    : HtmlMessageComposer × Option ClientSession :=
  c.onClientDataArrived socket a.fdsIndex a.data a.dataSize

def deliver (c : HtmlMessageComposer) (socket : Int)
    : List Arrival → HtmlMessageComposer × List ClientSession
  | [] => (c, [])
  | a :: arrivals =>
    let first := c.arrive socket a
    let rest := first.1.deliver socket arrivals
    (rest.1, first.2.toList ++ rest.2)

theorem arrive_cases (c : HtmlMessageComposer) (socket : Int) (a : Arrival)
    : ∃ msg, msg = c.storeData socket a.fdsIndex a.data a.dataSize ∧
        (isComplete msg.request.requestHeader ∧ (c.arrive socket a).2 = some msg
            ∧ (c.arrive socket a).1.messages socket = none
          ∨ ¬ isComplete msg.request.requestHeader ∧ (c.arrive socket a).2 = none
            ∧ (c.arrive socket a).1.messages socket = some msg) := by
  refine ⟨_, rfl, ?_⟩
  unfold arrive
  by_cases hc : isComplete (c.storeData socket a.fdsIndex a.data a.dataSize).request.requestHeader
  . left
    rw [onClientDataArrived_of_complete hc]
    simp [hc]
  . right
    rw [onClientDataArrived_of_incomplete hc]
    simp [hc]

theorem arrive_of_quiet {c : HtmlMessageComposer} (h : (c.arrive socket a).2 = none)
    : (c.arrive socket a).1.messages socket
        =
      some (c.storeData socket a.fdsIndex a.data a.dataSize) := by
  obtain ⟨msg, rfl, ⟨-, hsome, -⟩ | ⟨-, -, hstored⟩⟩ := arrive_cases c socket a
  . simp [h] at hsome
  . exact hstored

theorem deliver_cons_eq_nil {c : HtmlMessageComposer}
    : (c.deliver socket (a :: arrivals)).2 = []
        ↔
      (c.arrive socket a).2 = none ∧ ((c.arrive socket a).1.deliver socket arrivals).2 = [] := by
  simp [deliver]

theorem deliver_concat (c : HtmlMessageComposer) (socket : Int) (arrivals : List Arrival) (z : Arrival)
    : c.deliver socket (arrivals ++ [z])
        =
      (((c.deliver socket arrivals).1.arrive socket z).1,
        (c.deliver socket arrivals).2 ++ ((c.deliver socket arrivals).1.arrive socket z).2.toList) := by
  induction arrivals generalizing c with
  | nil => simp [deliver]
  | cons a arrivals ih => simp [deliver, ih]

-- While nothing is handed over, whole buffers pile up behind the stored header.
theorem deliver_quiet {c : HtmlMessageComposer} (arrivals : List Arrival)
    (hmsg : c.messages socket = some msg) (hquiet : (c.deliver socket arrivals).2 = [])
    : ∃ msg', (c.deliver socket arrivals).1.messages socket = some msg'
        ∧ msg'.request.requestHeader
            = msg.request.requestHeader ++ (arrivals.map (·.data)).flatten := by
  induction arrivals generalizing c msg with
  | nil => exact ⟨msg, hmsg, by simp⟩
  | cons a arrivals ih =>
    obtain ⟨hfirst, hrest⟩ := deliver_cons_eq_nil.mp hquiet
    obtain ⟨msg', hmsg', hheader⟩ := ih (arrive_of_quiet hfirst) hrest
    exists msg', hmsg'
    rw [hheader, storeData_of_some hmsg]
    simp

theorem deliver_fresh_quiet {c : HtmlMessageComposer} (hfresh : c.messages socket = none)
    (hquiet : (c.deliver socket (a :: arrivals)).2 = [])
    : ∃ msg, (c.deliver socket (a :: arrivals)).1.messages socket = some msg
        ∧ msg.request.requestHeader = a.received ++ (arrivals.map (·.data)).flatten := by
  obtain ⟨hfirst, hrest⟩ := deliver_cons_eq_nil.mp hquiet
  obtain ⟨msg, hmsg, hheader⟩ := deliver_quiet arrivals (arrive_of_quiet hfirst) hrest
  exists msg, hmsg
  rw [hheader, storeData_of_none hfresh, RecvBuffer.received]

structure TerminatedOnce (r : Bytes) : Prop where
  terminated : terminator <:+ r
  once : ∀ p, p <+: r → terminator <:+ p → p = r

theorem TerminatedOnce.isComplete (h : TerminatedOnce r) : isComplete r := by
  rw [isComplete_iff]
  exact h.terminated

theorem TerminatedOnce.not_isComplete (h : TerminatedOnce (p ++ rest)) (hrest : rest ≠ [])
    : ¬ HtmlMessageComposer.isComplete p := by
  rw [isComplete_iff]
  intro hp
  have := h.once p (List.prefix_append p rest) hp
  exact hrest (List.self_eq_append_right.mp this)

theorem arrive_prefix_quiet {c : HtmlMessageComposer} (hrest : rest ≠ [])
    (hr : TerminatedOnce
      ((c.storeData socket a.fdsIndex a.data a.dataSize).request.requestHeader ++ rest))
    : (c.arrive socket a).2 = none := by
  obtain ⟨msg, rfl, ⟨hc, -, -⟩ | ⟨-, hnone, -⟩⟩ := arrive_cases c socket a
  . exact absurd hc (hr.not_isComplete hrest)
  . exact hnone

theorem deliver_prefix_quiet {c : HtmlMessageComposer} (arrivals : List Arrival)
    (hmsg : c.messages socket = some msg) (hrest : rest ≠ [])
    (hr : TerminatedOnce
      (msg.request.requestHeader ++ ((arrivals.map (·.data)).flatten ++ rest)))
    : (c.deliver socket arrivals).2 = [] := by
  induction arrivals generalizing c msg with
  | nil => rfl
  | cons a arrivals ih =>
    simp only [List.map_cons, List.flatten_cons, List.append_assoc] at hr
    rw [← List.append_assoc, ← storeData_of_some hmsg] at hr
    have hfirst := arrive_prefix_quiet (by simp [hrest]) hr
    rw [deliver_cons_eq_nil]
    exact ⟨hfirst, ih (arrive_of_quiet hfirst) hr⟩

theorem deliver_fresh_prefix_quiet {c : HtmlMessageComposer} (hfresh : c.messages socket = none)
    (hrest : rest ≠ [])
    (hr : TerminatedOnce (a.received ++ ((arrivals.map (·.data)).flatten ++ rest)))
    : (c.deliver socket (a :: arrivals)).2 = [] := by
  rw [RecvBuffer.received, ← storeData_of_none hfresh] at hr
  have hfirst := arrive_prefix_quiet (by simp [hrest]) hr
  rw [deliver_cons_eq_nil]
  exact ⟨hfirst, deliver_prefix_quiet arrivals (arrive_of_quiet hfirst) hrest hr⟩

theorem received_length_le (arrivals : List Arrival)
    : (arrivals.map (·.received)).flatten.length ≤ (arrivals.map (·.data)).flatten.length := by
  induction arrivals with
  | nil => simp
  | cons a arrivals ih =>
    have := a.dataSize_le
    simp only [List.map_cons, List.flatten_cons, List.length_append, RecvBuffer.received_length,
      a.length_eq]
    omega

theorem full_of_length_le (arrivals : List Arrival)
    (h : (arrivals.map (·.data)).flatten.length ≤ (arrivals.map (·.received)).flatten.length)
    : ∀ a ∈ arrivals, a.dataSize = recvBufferSize := by
  induction arrivals with
  | nil => simp
  | cons a arrivals ih =>
    have := received_length_le arrivals
    have := a.dataSize_le
    simp only [List.map_cons, List.flatten_cons, List.length_append, RecvBuffer.received_length,
      a.length_eq] at h
    simp only [List.mem_cons, forall_eq_or_imp]
    constructor
    . omega
    . apply ih
      omega

theorem data_eq_received {a : Arrival} (h : a.dataSize = recvBufferSize) : a.data = a.received := by
  rw [RecvBuffer.received, List.take_of_length_le]
  simp [h, a.length_eq]

theorem map_data_eq_received {arrivals : List Arrival}
    (h : ∀ a ∈ arrivals, a.dataSize = recvBufferSize)
    : arrivals.map (·.data) = arrivals.map (·.received) := by
  apply List.map_congr_left
  intro a ha
  exact data_eq_received (h a ha)

structure Reassembled (c : HtmlMessageComposer) (socket : Int) (arrivals : List Arrival) (r : Bytes)
    : Prop where
  early : (c.deliver socket arrivals.dropLast).2 = []
  handed : ∃ msg, (c.deliver socket arrivals).2 = [msg] ∧ msg.request.requestHeader = r
  removed : (c.deliver socket arrivals).1.messages socket = none

theorem reassembled_concat_iff {c : HtmlMessageComposer} (hr : isComplete r)
    : Reassembled c socket (arrivals ++ [z]) r
        ↔
      (c.deliver socket arrivals).2 = []
        ∧ ((c.deliver socket arrivals).1.storeData socket z.fdsIndex z.data
            z.dataSize).request.requestHeader = r := by
  obtain ⟨msg, rfl, hcases⟩ := arrive_cases (c.deliver socket arrivals).1 socket z
  constructor
  . rintro ⟨early, ⟨msg, hmsg, hheader⟩, -⟩
    rw [List.dropLast_concat] at early
    rw [deliver_concat, early] at hmsg
    refine ⟨early, ?_⟩
    cases hcases with
    | inl hdone => simp_all
    | inr hmore => simp_all
  . rintro ⟨early, hheader⟩
    rw [hheader] at hcases
    simp only [hr, true_and, not_true_eq_false, false_and, or_false] at hcases
    constructor
    . rwa [List.dropLast_concat]
    . rw [deliver_concat, early, hcases.1]
      simp [hheader]
    . rw [deliver_concat]
      exact hcases.2

section Split

variable {c : HtmlMessageComposer} {a z : Arrival} {front : List Arrival} {r : Bytes}
variable (hfresh : c.messages socket = none)
variable (hcut : a.received ++ ((front.map (·.received)).flatten ++ z.received) = r)

include hfresh hcut

theorem full_of_last (hquiet : (c.deliver socket (a :: front)).2 = [])
    (hlast : ((c.deliver socket (a :: front)).1.storeData socket z.fdsIndex z.data
      z.dataSize).request.requestHeader = r)
    : ∀ b ∈ front ++ [z], b.dataSize = recvBufferSize := by
  obtain ⟨msg, hmsg, hheader⟩ := deliver_fresh_quiet hfresh hquiet
  rw [storeData_of_some hmsg, hheader] at hlast
  have hlength := congrArg List.length (hlast.trans hcut.symm)
  simp only [List.length_append] at hlength
  apply full_of_length_le
  simp only [List.map_append, List.map_cons, List.map_nil, List.flatten_append,
    List.flatten_cons, List.flatten_nil, List.append_nil, List.length_append]
  omega

theorem last_of_full (hr : TerminatedOnce r)
    (hfull : ∀ b ∈ front ++ [z], b.dataSize = recvBufferSize)
    : (c.deliver socket (a :: front)).2 = []
        ∧ ((c.deliver socket (a :: front)).1.storeData socket z.fdsIndex z.data
            z.dataSize).request.requestHeader = r := by
  have hfront := map_data_eq_received (fun b hb => hfull b (List.mem_append_left [z] hb))
  have hz : z.data = z.received := data_eq_received (hfull z (by simp))
  have hz_ne : z.data ≠ [] := by
    apply List.ne_nil_of_length_pos
    rw [z.length_eq]
    decide
  rw [← hfront, ← hz] at hcut
  have hquiet : (c.deliver socket (a :: front)).2 = [] := by
    apply deliver_fresh_prefix_quiet hfresh hz_ne
    rw [hcut]
    exact hr
  obtain ⟨msg, hmsg, hheader⟩ := deliver_fresh_quiet hfresh hquiet
  refine ⟨hquiet, ?_⟩
  rw [storeData_of_some hmsg, hheader, List.append_assoc, hcut]

end Split

theorem deliver_reassembled_iff (c : HtmlMessageComposer) (socket : Int) (arrivals : List Arrival)
    (r : Bytes) (hfresh : c.messages socket = none)
    (hcut : (arrivals.map (·.received)).flatten = r) (hr : TerminatedOnce r)
    : Reassembled c socket arrivals r ↔ ∀ a ∈ arrivals.tail, a.dataSize = recvBufferSize := by
  rcases List.eq_nil_or_concat arrivals with rfl | ⟨front, z, rfl⟩
  . have := hr.isComplete
    simp only [List.map_nil, List.flatten_nil] at hcut
    simp [← hcut, isComplete] at this
  rw [List.concat_eq_append] at *
  rw [reassembled_concat_iff hr.isComplete]
  cases front with
  | nil =>
    rw [deliver, storeData_of_none hfresh]
    simpa [RecvBuffer.received] using hcut
  | cons a front =>
    simp only [List.cons_append, List.tail_cons]
    simp only [List.cons_append, List.map_cons, List.map_append, List.map_nil, List.flatten_cons,
      List.flatten_append, List.flatten_nil, List.append_nil] at hcut
    constructor
    . rintro ⟨hquiet, hlast⟩
      exact full_of_last hfresh hcut hquiet hlast
    . exact last_of_full hfresh hcut hr

theorem TerminatedOnce.of_take (hr : terminator <:+ r)
    (h : ∀ k ≤ r.length, terminator <:+ r.take k → r.take k = r)
    : TerminatedOnce r := by
  refine ⟨hr, ?_⟩
  intro p hp hsuffix
  rw [List.prefix_iff_eq_take.mp hp] at hsuffix ⊢
  exact h p.length hp.length_le hsuffix

def Arrival.ofBytes (received : Bytes) (hpos : 0 < received.length)
    (hle : received.length ≤ recvBufferSize) : Arrival where
  fdsIndex := 1
  data := received ++ List.replicate (recvBufferSize - received.length) 0
  dataSize := received.length
  length_eq := by simp [hle]
  dataSize_pos := hpos
  dataSize_le := hle

@[simp]
theorem Arrival.ofBytes_received (received : Bytes) (hpos) (hle)
    : (ofBytes received hpos hle).received = received := by
  simp [RecvBuffer.received, ofBytes]

def requestLine : Arrival :=
  .ofBytes (ascii "GET / HTTP/1.1\r\n") (by decide) (by decide)

def emptyLine : Arrival :=
  .ofBytes (ascii "\r\n") (by decide) (by decide)

theorem split_received
    : ([requestLine, emptyLine].map (·.received)).flatten = ascii "GET / HTTP/1.1\r\n\r\n" := by
  simp [requestLine, emptyLine, Arrival.ofBytes_received]
  decide

theorem split_terminatedOnce : TerminatedOnce (ascii "GET / HTTP/1.1\r\n\r\n") :=
  TerminatedOnce.of_take (by decide) (by decide)

theorem deliver_reassembled_iff_split
    : Reassembled {} 5 [requestLine, emptyLine] (ascii "GET / HTTP/1.1\r\n\r\n")
        ↔
      ∀ a ∈ [requestLine, emptyLine].tail, a.dataSize = recvBufferSize :=
  deliver_reassembled_iff {} 5 _ _ rfl split_received split_terminatedOnce

theorem not_reassembled_of_split
    : ¬ ∀ (c : HtmlMessageComposer) (socket : Int) (arrivals : List Arrival) (r : Bytes),
        c.messages socket = none → (arrivals.map (·.received)).flatten = r → TerminatedOnce r →
          Reassembled c socket arrivals r := by
  intro h
  have hsplit := h {} 5 [requestLine, emptyLine] _ rfl split_received split_terminatedOnce
  rw [show [requestLine, emptyLine] = [requestLine] ++ [emptyLine] by rfl,
    reassembled_concat_iff split_terminatedOnce.isComplete] at hsplit
  obtain ⟨hquiet, hlast⟩ := hsplit
  obtain ⟨msg, hmsg, hheader⟩ := deliver_fresh_quiet rfl hquiet
  rw [storeData_of_some hmsg, hheader] at hlast
  -- the merged header is longer than the request by the rest of the second buffer
  have := congrArg List.length hlast
  simp only [List.length_append, emptyLine.length_eq] at this
  have : (ascii "GET / HTTP/1.1\r\n\r\n").length < recvBufferSize := by decide
  omega

end HtmlMessageComposer
