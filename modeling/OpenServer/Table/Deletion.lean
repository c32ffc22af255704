import Mathlib.Data.List.Chain

/-!
This module contains the deletion from a table that goes on behind the entry that has moved into the
gap, without a look at it, and for which tables that is the deletion of all marked entries.
-/

namespace Table

variable (dead : α → Bool)

-- One round of the deletion: where a marked entry stands, the next one moves up unseen.
def deleteSkipping : List α → List α
  | [] => []
  | a :: rest =>
    if dead a then
      match rest with
      | [] => []
      | b :: rest => b :: deleteSkipping rest
    else
      a :: deleteSkipping rest

example : deleteSkipping (· == 0) [0, 1, 0, 0, 2, 0] = [1, 0, 2] := by decide

def Scattered (entries : List α) : Prop :=
  entries.IsChain (fun a b => ¬ (dead a ∧ dead b))

variable {dead}

theorem deleteSkipping_of_dead (h : dead a) (rest : List α)
    : deleteSkipping dead (a :: rest) = rest.take 1 ++ deleteSkipping dead (rest.drop 1) := by
  cases rest with
  | nil => simp [deleteSkipping, h]
  | cons b rest => simp [deleteSkipping, h]

theorem deleteSkipping_of_alive (h : ¬ dead a) (rest : List α)
    : deleteSkipping dead (a :: rest) = a :: deleteSkipping dead rest := by
  cases rest with
  | nil => simp [deleteSkipping, h]
  | cons b rest => simp [deleteSkipping, h]

theorem scattered_cons_of_alive (h : ¬ dead a) (rest : List α)
    : Scattered dead (a :: rest) ↔ Scattered dead rest := by
  simp [Scattered, List.isChain_cons, h]

theorem deleteSkipping_eq_filter_iff (entries : List α)
    : deleteSkipping dead entries = entries.filter (fun a => !dead a) ↔ Scattered dead entries := by
  induction entries using deleteSkipping.induct dead with
  | case1 => simp [deleteSkipping, Scattered]
  | case2 a h => simp [deleteSkipping, Scattered, h]
  | case3 a h b rest ih =>
    rw [deleteSkipping_of_dead h, List.filter_cons_of_neg (by simp [h])]
    simp only [List.take_succ_cons, List.take_zero, List.singleton_append, List.drop_succ_cons,
      List.drop_zero]
    by_cases hb : dead b
    . -- the marked entry that moved into the gap is kept
      constructor
      . intro heq
        have : b ∈ (b :: rest).filter (fun a => !dead a) := heq ▸ List.mem_cons_self
        simp [hb] at this
      . intro hscattered
        simp [Scattered, h, hb] at hscattered
    . have hscattered : Scattered dead (a :: b :: rest) ↔ Scattered dead (b :: rest) := by
        simp [Scattered, hb]
      rw [List.filter_cons_of_pos (by simp [hb]), List.cons_inj_right, ih, hscattered,
        scattered_cons_of_alive hb]
  | case4 a rest h ih =>
    rw [deleteSkipping_of_alive h, List.filter_cons_of_pos (by simp [h]), List.cons_inj_right, ih,
      scattered_cons_of_alive h]

end Table
