/-!
This module contains the searches and cuts of a string class, over lists: the first and the last
element of a set, a cut between two offsets that fails where an iterator range would be invalid, and
the replacement of all occurrences from left to right.
-/

namespace Text

variable [DecidableEq α]

def findFirstOf (set : List α) (s : List α) : Option Nat :=
  s.findIdx? (fun a => decide (a ∈ set))

def findLastOf (set : List α) (s : List α) : Option Nat :=
  (s.reverse.findIdx? (fun a => decide (a ∈ set))).map (fun i => s.length - 1 - i)

def slice (s : List α) (first last : Int) : Option (List α) :=
  if 0 ≤ first ∧ first ≤ last ∧ last ≤ s.length then
    some ((s.drop first.toNat).take (last - first).toNat)
  else
    none

def replaceAll (before after : List α) (s : List α) : List α :=
  go 0 s
where
  -- `skip` counts the elements of a replaced occurrence that are still to be passed over.
  go (skip : Nat) : List α → List α
    | [] => []
    | a :: s =>
      match skip with
      | skip + 1 => go skip s
      | 0 =>
        if before.isPrefixOf (a :: s) then
          after ++ go (before.length - 1) s
        else
          a :: go 0 s

example : replaceAll [1, 1] [7] [1, 1, 1, 2, 1, 1] = [7, 1, 2, 7] := by decide

omit [DecidableEq α] in
theorem append_separator_inj {s t x y separator : List α} (hsep : separator.head? = some a)
    (hs : a ∉ s) (ht : a ∉ t)
    : s ++ (separator ++ x) = t ++ (separator ++ y) ↔ s = t ∧ x = y := by
  obtain ⟨rest, rfl⟩ := List.head?_eq_some_iff.mp hsep
  induction s generalizing t with
  | nil =>
    cases t with
    | nil => simp
    | cons b t =>
      simp only [List.mem_cons, not_or] at ht
      simp [ht.1]
  | cons b s ih =>
    simp only [List.mem_cons, not_or] at hs
    cases t with
    | nil => simp [Ne.symm hs.1]
    | cons c t =>
      simp only [List.mem_cons, not_or] at ht
      simp only [List.cons_append, List.cons.injEq, and_assoc]
      rw [← List.cons_append, ← List.cons_append, ih hs.2 ht.2]

end Text
