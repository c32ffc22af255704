import Mathlib.Data.List.Basic
import OpenServer.Transition.Ledger

/-!
This module contains the streams on which answers to numbered requests are written. They carry the
answers in the order of the requests when no request is written for before its turn.
-/

@[ext]
structure Streams (κ : Type u) (β : Type v) where
  ledger : Ledger (κ × Nat) β := {}
  stream : κ → List β := fun _ => []

namespace Streams

variable {w w' : Streams κ β} {received received' : κ → Nat} {k : κ} {client : κ × Nat}

-- What was written is the start of the answers to the first requests, one after the other.
def InOrder (w : Streams κ β) (k : κ) : Prop :=
  ∃ answers : List (List β), (∀ n a, answers[n]? = some a → w.ledger.answers (k, n) = [a])
    ∧ w.stream k <+: answers.flatten

def Turn (w : Streams κ β) (client : κ × Nat) : Prop :=
  ∀ m < client.2, w.ledger.Settled (client.1, m)

-- Of the requests that have come in on the stream, only the last may still be open.
def Awaited (w : Streams κ β) (received : κ → Nat) (k : κ) : Prop :=
  ∀ m, m + 1 < received k → w.ledger.Settled (k, m)

theorem Awaited.turn (h : w.Awaited received client.1) (hclient : client.2 < received client.1)
    : w.Turn client := by
  intro m hm
  apply h
  omega

-- `received` requests have come in on every stream, and those of the stream `k` are answered in order.
structure Ordered (w : Streams κ β) (received : κ → Nat) (k : κ) : Prop where
  unknown : ∀ client, received client.1 ≤ client.2 → w.ledger.Untouched client
  sound : ∀ client, w.ledger.Untouched client ∨ ∃ rest, w.ledger.Owes client rest
  stream : w.stream k = (List.range (received k)).flatMap (fun n => w.ledger.sent (k, n))
  order : ∀ n m, m < n → w.ledger.sent (k, n) ≠ [] → w.ledger.Settled (k, m)

theorem Ordered.prefix_of_received (h : w.Ordered received k) (count : Nat)
    : ∃ answers : List (List β), (∀ n a, answers[n]? = some a → w.ledger.answers (k, n) = [a])
        ∧ (List.range count).flatMap (fun n => w.ledger.sent (k, n)) <+: answers.flatten := by
  induction count with
  | zero =>
    exists []
    simp
  | succ count ih =>
    by_cases hnone : w.ledger.sent (k, count) = []
    . obtain ⟨answers, hanswers, hprefix⟩ := ih
      refine ⟨answers, hanswers, ?_⟩
      rw [List.range_succ, List.flatMap_append]
      simpa [hnone] using hprefix
    . -- every earlier request was answered in full before anything was written for this one
      have hearlier : ∀ m < count, w.ledger.Settled (k, m) := by
        intro m hm
        apply h.order count m hm hnone
      obtain ⟨answer, hanswer, hsent⟩ : ∃ answer, w.ledger.answers (k, count) = [answer]
          ∧ w.ledger.sent (k, count) <+: answer := by
        rcases h.sound (k, count) with huntouched | ⟨rest, howes⟩
        . apply absurd huntouched.2 hnone
        . apply howes.sent_prefix
      refine ⟨(List.range count).map (fun n => w.ledger.sent (k, n)) ++ [answer], ?_, ?_⟩
      . intro n a hn
        rcases Nat.lt_trichotomy n count with hlt | rfl | hgt
        . rw [List.getElem?_append_left (by simpa using hlt)] at hn
          have := hearlier n hlt
          simp [hlt] at hn
          rw [← hn]
          apply this
        . simp at hn
          rw [← hn, hanswer]
        . rw [List.getElem?_eq_none (by simp; omega)] at hn
          cases hn
      . rw [List.range_succ, List.flatMap_append, List.flatten_append, List.flatMap_def]
        apply (List.prefix_append_right_inj _).mpr
        simpa using hsent

theorem Ordered.inOrder (h : w.Ordered received k) : w.InOrder k := by
  unfold InOrder
  rw [h.stream]
  apply h.prefix_of_received

theorem Ordered.init (k : κ) : Ordered ({} : Streams κ β) (fun _ => 0) k := by
  constructor
  . intro _ _
    constructor <;> rfl
  . intro _
    left
    constructor <;> rfl
  . rfl
  . intro _ _ _ hsent
    apply absurd rfl hsent

theorem Ordered.of_agrees (h : w.Ordered received k)
    (hl : ∀ client, w.ledger.Agrees w'.ledger client) (hstream : w'.stream k = w.stream k)
    (hreceived : ∀ k, received k ≤ received' k)
    : w'.Ordered received' k := by
  have hsent : ∀ client, w'.ledger.sent client = w.ledger.sent client := fun client => (hl client).2
  constructor
  . intro client hclient
    apply (hl client).untouched
    apply h.unknown
    have := hreceived client.1
    omega
  . intro client
    rcases h.sound client with huntouched | ⟨rest, howes⟩
    . left
      apply (hl client).untouched huntouched
    . right
      exists rest
      apply (hl client).owes howes
  . obtain ⟨more, hmore⟩ := Nat.exists_eq_add_of_le (hreceived k)
    have hnew : (List.range more).flatMap (fun n => w.ledger.sent (k, received k + n)) = [] := by
      rw [List.flatMap_eq_nil_iff]
      intro n _
      apply (h.unknown (k, received k + n) (by simp)).2
    simp only [hstream, h.stream, hsent, hmore, List.range_add, List.flatMap_append,
      List.flatMap_map]
    rw [hnew, List.append_nil]
  . intro n m hm hn
    rw [hsent] at hn
    apply (hl (k, m)).settled (h.order n m hm hn)

-- The books of one request change: it has an answer now, and was not settled before.
theorem Ordered.of_owes (h : w.Ordered received k) (hclient : client.2 < received client.1)
    (hagrees : ∀ other ≠ client, w.ledger.Agrees w'.ledger other)
    (hunsettled : ¬ w.ledger.Settled client) (howes : w'.ledger.Owes client rest)
    (hturn : client.1 = k → w'.ledger.sent client ≠ [] → w.Turn client)
    (hstream : w'.stream k = (List.range (received k)).flatMap (fun n => w'.ledger.sent (k, n)))
    : w'.Ordered received k := by
  constructor
  . intro other hother
    apply (hagrees other _).untouched (h.unknown other hother)
    rintro rfl
    omega
  . intro other
    by_cases hother : other = client
    . right
      exists rest
      rw [hother]
      apply howes
    . rcases h.sound other with huntouched | ⟨rest, howes⟩
      . left
        apply (hagrees other hother).untouched huntouched
      . right
        exists rest
        apply (hagrees other hother).owes howes
  . apply hstream
  . intro n m hm hn
    have hsettled : w.ledger.Settled (k, m) := by
      by_cases heq : (k, n) = client
      . subst heq
        apply hturn rfl hn m hm
      . rw [(hagrees (k, n) heq).2] at hn
        apply h.order n m hm hn
    apply (hagrees (k, m) _).settled hsettled
    rintro rfl
    apply hunsettled hsettled

variable [DecidableEq κ]

def answer (w : Streams κ β) (client : κ × Nat) (bytes : List β) : Streams κ β :=
  { w with ledger := w.ledger.answer client bytes }

def send (w : Streams κ β) (client : κ × Nat) (bytes : List β) : Streams κ β where
  ledger := w.ledger.send client bytes
  stream := Function.update w.stream client.1 (w.stream client.1 ++ bytes)

theorem Ordered.answer (h : w.Ordered received k) (huntouched : w.ledger.Untouched client)
    (hclient : client.2 < received client.1) (bytes : List β)
    : (w.answer client bytes).Ordered received k := by
  apply h.of_owes hclient _ huntouched.not_settled (huntouched.answer bytes)
  . intro _ hsent
    apply absurd huntouched.2 hsent
  . apply h.stream
  . intro other hother
    apply Ledger.agrees_answer hother

theorem flatMap_range_update (f : Nat → List β) (bytes : List β) (hn : n < count)
    (hlater : ∀ m, n < m → f m = [])
    : (List.range count).flatMap (Function.update f n (f n ++ bytes))
        =
      (List.range count).flatMap f ++ bytes := by
  induction count with
  | zero => omega
  | succ count ih =>
    rw [List.range_succ, List.flatMap_append, List.flatMap_append]
    by_cases heq : n = count
    . subst heq
      have hsame : (List.range n).flatMap (Function.update f n (f n ++ bytes))
          = (List.range n).flatMap f := by
        apply List.flatMap_congr
        intro m hm
        rw [Function.update_of_ne]
        have := List.mem_range.mp hm
        omega
      rw [hsame]
      simp
    . rw [ih (by omega)]
      simp [Function.update_of_ne (Ne.symm heq), hlater count (by omega)]

theorem sent_send (w : Streams κ β) (client : κ × Nat) (bytes : List β)
    : (fun n => (w.send client bytes).ledger.sent (client.1, n))
        =
      Function.update (fun n => w.ledger.sent (client.1, n)) client.2
        (w.ledger.sent client ++ bytes) := by
  funext n
  by_cases hn : n = client.2
  . subst hn
    simp [Streams.send, Ledger.send]
  . have : (client.1, n) ≠ client := by
      rintro heq
      apply hn
      rw [← heq]
    simp [Streams.send, Ledger.send, Function.update_of_ne this, Function.update_of_ne hn]

theorem Ordered.send (h : w.Ordered received k) (howes : w.ledger.Owes client (bytes ++ rest))
    (hturn : client.1 = k → w.Turn client) (hclient : client.2 < received client.1)
    : (w.send client bytes).Ordered received k := by
  by_cases hnone : bytes = []
  . apply h.of_agrees _ _ (fun _ => Nat.le_refl _)
    . intro other
      rw [hnone, Streams.send, Ledger.send_nil]
      apply Ledger.Agrees.refl
    . simp [Streams.send, hnone]
  . have hagrees : ∀ other ≠ client, w.ledger.Agrees (w.send client bytes).ledger other := by
      intro other hother
      apply Ledger.agrees_send hother
    have hunsettled : ¬ w.ledger.Settled client := by
      rw [howes.settled_iff]
      simp [hnone]
    apply h.of_owes hclient hagrees hunsettled howes.send (fun hk _ => hturn hk)
    by_cases hk : k = client.1
    . subst hk
      -- what comes after an unsettled request has not been begun
      have hlater : ∀ m, client.2 < m → w.ledger.sent (client.1, m) = [] := by
        intro m hm
        by_contra hbegun
        apply hunsettled
        apply h.order m client.2 hm hbegun
      rw [sent_send, flatMap_range_update _ _ hclient hlater, ← h.stream]
      simp [Streams.send]
    . have hsent : ∀ n, (w.send client bytes).ledger.sent (k, n) = w.ledger.sent (k, n) := by
        intro n
        apply (hagrees (k, n) _).2
        rintro rfl
        apply hk rfl
      simp only [hsent, ← h.stream]
      simp [Streams.send, Function.update_of_ne hk]

end Streams
