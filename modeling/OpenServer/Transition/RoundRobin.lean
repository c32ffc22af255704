import Mathlib.Data.List.Induction

/-!
This module contains what it means that messages are dealt to `n` receivers in turn.
-/

namespace RoundRobin

def deal (n : Nat) (messages : List α) : List (Nat × α) :=
  messages.zipIdx.map (fun m => (m.2 % n, m.1))

def received (receiver : Nat) (dealt : List (Nat × α)) : List α :=
  dealt.filterMap (fun m => if m.1 = receiver then some m.2 else none)

theorem deal_append (n : Nat) (messages : List α) (a : α)
    : deal n (messages ++ [a]) = deal n messages ++ [(messages.length % n, a)] := by
  simp [deal, List.zipIdx_append]

theorem getElem?_deal (n : Nat) (messages : List α) (k : Nat)
    : (deal n messages)[k]? = messages[k]?.map (fun a => (k % n, a)) := by
  simp [deal, List.getElem?_zipIdx, Function.comp_def]

theorem received_append_self (dealt : List (Nat × α)) (a : α)
    : received d (dealt ++ [(d, a)]) = received d dealt ++ [a] := by
  simp [received]

theorem received_append_of_ne (dealt : List (Nat × α)) (a : α) (h : e ≠ d)
    : received d (dealt ++ [(e, a)]) = received d dealt := by
  simp [received, h]

-- `d` has received `k` of the first `m` messages: the next one for it is number `n * k + d`.
structure Turns (n d m k : Nat) : Prop where
  le : m ≤ n * k + d
  lt : n * k + d < m + n

theorem Turns.mod_eq_iff (h : Turns n d m k) (hd : d < n) : m % n = d ↔ m = n * k + d := by
  constructor
  . intro hm
    have hdvd : n ∣ n * k + d - m := by
      apply Nat.dvd_of_mod_eq_zero
      apply Nat.sub_mod_eq_zero_of_mod_eq
      rw [Nat.mul_add_mod, Nat.mod_eq_of_lt hd, hm]
    have hlt := h.lt
    have hle := h.le
    have := Nat.eq_zero_of_dvd_of_lt hdvd (by omega)
    omega
  . rintro rfl
    rw [Nat.mul_add_mod, Nat.mod_eq_of_lt hd]

theorem turns_received_deal (hd : d < n) (messages : List α)
    : Turns n d messages.length (received d (deal n messages)).length := by
  induction messages using List.reverseRecOn with
  | nil => exact ⟨by simp, by simpa [deal, received] using hd⟩
  | append_singleton messages a ih =>
    have hiff := ih.mod_eq_iff hd
    obtain ⟨hle, hlt⟩ := ih
    rw [deal_append]
    by_cases hturn : messages.length % n = d
    . have hlength := hiff.mp hturn
      rw [hturn, received_append_self, List.length_append, List.length_append]
      constructor
      . rw [List.length_singleton, Nat.mul_add]
        omega
      . rw [List.length_singleton, Nat.mul_add]
        omega
    . have hlength := mt hiff.mpr hturn
      rw [received_append_of_ne _ _ hturn, List.length_append, List.length_singleton]
      constructor <;> omega

-- Receiver `d` gets the messages number `d`, `n + d`, `2 * n + d` and so on, in this order.
theorem getElem?_received_deal (hd : d < n) (messages : List α) (j : Nat)
    : (received d (deal n messages))[j]? = messages[n * j + d]? := by
  induction messages using List.reverseRecOn with
  | nil => simp [deal, received]
  | append_singleton messages a ih =>
    have hturns := turns_received_deal hd messages
    have hiff := hturns.mod_eq_iff hd
    rw [deal_append]
    by_cases hturn : messages.length % n = d
    . have hlength := hiff.mp hturn
      rw [hturn, received_append_self]
      rcases Nat.lt_trichotomy j (received d (deal n messages)).length with hj | rfl | hj
      . have : n * j < n * (received d (deal n messages)).length :=
          Nat.mul_lt_mul_of_pos_left hj (by omega)
        rw [List.getElem?_append_left hj, List.getElem?_append_left (by omega), ih]
      . simp [← hlength]
      . have : n * (received d (deal n messages)).length < n * j :=
          Nat.mul_lt_mul_of_pos_left hj (by omega)
        rw [List.getElem?_eq_none, List.getElem?_eq_none]
        . simp only [List.length_append, List.length_singleton]
          omega
        . simp only [List.length_append, List.length_singleton]
          omega
    . rw [received_append_of_ne _ _ hturn, ih]
      have : n * j + d ≠ messages.length := by
        rintro h
        rw [← h, Nat.mul_add_mod, Nat.mod_eq_of_lt hd] at hturn
        exact hturn rfl
      rcases Nat.lt_or_gt_of_ne this with hj | hj
      . rw [List.getElem?_append_left hj]
      . rw [List.getElem?_eq_none, List.getElem?_eq_none]
        . simp only [List.length_append, List.length_singleton]
          omega
        . omega

end RoundRobin
