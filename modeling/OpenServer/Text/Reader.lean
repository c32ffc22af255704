import Mathlib.Data.List.Basic
import OpenServer.Text.Search

/-!
This module contains readers that take one message after the other off the front of a stream. A reader
takes a message the same way however much of the stream has come in behind it.
-/

namespace Text

section Cut

variable [DecidableEq α] {separator before after : List α}

def cutAt (separator : List α) : List α → Option (List α × List α)
  | [] => none
  | a :: s =>
    if separator.isPrefixOf (a :: s) then
      some ([], (a :: s).drop separator.length)
    else
      (cutAt separator s).map (fun (before, after) => (a :: before, after))

theorem cutAt_eq {s : List α} (h : cutAt separator s = some (before, after))
    : s = before ++ (separator ++ after) := by
  induction s generalizing before with
  | nil => cases h
  | cons a s ih =>
    rw [cutAt] at h
    split at h
    . next hprefix =>
      injection h with h
      injection h with hbefore hafter
      obtain ⟨rest, hrest⟩ := List.isPrefixOf_iff_prefix.mp hprefix
      rw [← hbefore, ← hafter, ← hrest, List.drop_left, List.nil_append]
    . obtain ⟨⟨x, y⟩, hcut, heq⟩ := Option.map_eq_some_iff.mp h
      injection heq with hbefore hafter
      rw [hafter] at hcut
      rw [← hbefore, List.cons_append, ← ih hcut]

theorem cutAt_append (hsep : separator.head? = some a) (ha : a ∉ before) (after : List α)
    : cutAt separator (before ++ (separator ++ after)) = some (before, after) := by
  obtain ⟨rest, rfl⟩ := List.head?_eq_some_iff.mp hsep
  induction before with
  | nil =>
    rw [List.nil_append, List.cons_append, cutAt, if_pos]
    . rw [← List.cons_append, List.drop_left]
    . simp
  | cons b before ih =>
    simp only [List.mem_cons, not_or] at ha
    rw [List.cons_append, cutAt, if_neg, ih ha.2]
    . rfl
    . simp [ha.1]

theorem cutAt_more {s : List α} (h : cutAt separator s = some (before, after)) (t : List α)
    : cutAt separator (s ++ t) = some (before, after ++ t) := by
  induction s generalizing before with
  | nil => cases h
  | cons a s ih =>
    have hs := cutAt_eq h
    rw [cutAt] at h
    rw [List.cons_append, cutAt]
    split at h
    . next hprefix =>
      injection h with h
      injection h with hbefore hafter
      have hle := (List.isPrefixOf_iff_prefix.mp hprefix).length_le
      have hlonger := (List.isPrefixOf_iff_prefix.mp hprefix).trans (List.prefix_append (a :: s) t)
      rw [List.cons_append] at hlonger
      rw [if_pos (List.isPrefixOf_iff_prefix.mpr hlonger), ← hbefore, ← hafter, ← List.cons_append,
        List.drop_append_of_le_length hle]
    . next hprefix =>
      -- the separator lies further on, so that it does not reach beyond `s` here
      have hshorter : ¬ separator.isPrefixOf (a :: (s ++ t)) := by
        intro hlonger
        apply hprefix
        rw [List.isPrefixOf_iff_prefix] at hlonger ⊢
        rw [← List.cons_append] at hlonger
        apply List.prefix_of_prefix_length_le hlonger (List.prefix_append _ _)
        rw [hs, List.length_append, List.length_append]
        omega
      obtain ⟨⟨x, y⟩, hcut, heq⟩ := Option.map_eq_some_iff.mp h
      injection heq with hbefore hafter
      rw [hafter] at hcut
      rw [if_neg hshorter, ih hcut, ← hbefore]
      rfl

theorem cutAt_of_not_infix {s : List α} (h : ¬ separator <:+: s) : cutAt separator s = none := by
  cases hcut : cutAt separator s with
  | none => rfl
  | some p =>
    rw [cutAt_eq hcut] at h
    exact absurd (List.infix_append' _ _ _) h

-- The separator does not begin before its place.
theorem cutAt_first (hne : separator ≠ []) (h : ¬ separator <:+: before ++ separator.dropLast)
    (after : List α)
    : cutAt separator (before ++ (separator ++ after)) = some (before, after) := by
  induction before with
  | nil =>
    obtain ⟨a, tail, rfl⟩ := List.exists_cons_of_ne_nil hne
    rw [List.nil_append, List.cons_append, cutAt, if_pos]
    . rw [← List.cons_append, List.drop_left]
    . simp
  | cons b before ih =>
    have hlater : ¬ separator.isPrefixOf (b :: (before ++ (separator ++ after))) := by
      intro hprefix
      apply h
      apply List.IsPrefix.isInfix
      apply List.prefix_of_prefix_length_le (List.isPrefixOf_iff_prefix.mp hprefix)
      . rw [List.cons_append, List.cons_prefix_cons]
        refine ⟨rfl, ?_⟩
        rw [List.prefix_append_right_inj]
        exact (List.dropLast_prefix separator).trans (List.prefix_append _ _)
      . simp only [List.length_append, List.length_cons, List.length_dropLast]
        omega
    rw [List.cons_append, cutAt, if_neg hlater, ih]
    . rfl
    . intro hinfix
      apply h
      rw [List.cons_append]
      apply List.infix_cons hinfix

end Cut

-- Nothing that `c` is only the first element of lies across it.
theorem infix_append_cons_iff {tail s t : List α} (hc : c ∉ tail)
    : a :: tail <:+: s ++ c :: t ↔ a :: tail <:+: s ∨ a :: tail <:+: c :: t := by
  rw [List.infix_append_iff_ne_nil]
  constructor
  . rintro (h | h | ⟨front, back, hfront, hback, hsplit, -, hprefix⟩)
    . exact .inl h
    . exact .inr h
    . exfalso
      obtain ⟨b, front, rfl⟩ := List.exists_cons_of_ne_nil hfront
      obtain ⟨d, back, rfl⟩ := List.exists_cons_of_ne_nil hback
      obtain ⟨rfl, -⟩ := List.cons_prefix_cons.mp hprefix
      injection hsplit with _ htail
      apply hc
      rw [htail]
      simp
  . rintro (h | h)
    . exact .inl h
    . exact .inr (.inl h)

structure Reader (α : Type u) (β : Type v) where
  read : List α → Option (β × List α)
  shorter : ∀ s m rest, read s = some (m, rest) → rest.length < s.length
  more : ∀ s m rest t, read s = some (m, rest) → read (s ++ t) = some (m, rest ++ t)

namespace Reader

variable (R : Reader α β) {s rest : List α}

def readAll (s : List α) : List β × List α :=
  match h : R.read s with
  | none => ([], s)
  | some (m, rest) =>
    have := R.shorter s m rest h
    let r := readAll rest
    (m :: r.1, r.2)
termination_by s.length

theorem readAll_of_none (h : R.read s = none) : R.readAll s = ([], s) := by
  unfold readAll
  split
  . rfl
  . next hsome => simp [h] at hsome

theorem readAll_of_some (h : R.read s = some (m, rest))
    : R.readAll s = (m :: (R.readAll rest).1, (R.readAll rest).2) := by
  rw [readAll]
  split
  . next hnone => simp [h] at hnone
  . next m' rest' hsome =>
    obtain ⟨rfl, rfl⟩ : m = m' ∧ rest = rest' := by simpa [h] using hsome
    rfl

theorem readAll_nil : R.readAll [] = ([], []) := by
  apply readAll_of_none
  cases hread : R.read [] with
  | none => rfl
  | some p =>
    have hshorter := R.shorter [] p.1 p.2 hread
    cases hshorter

-- What has been read stays read, whatever comes in later.
theorem readAll_append (s t : List α)
    : R.readAll (s ++ t)
        =
      ((R.readAll s).1 ++ (R.readAll ((R.readAll s).2 ++ t)).1,
        (R.readAll ((R.readAll s).2 ++ t)).2) := by
  induction hn : s.length using Nat.strongRecOn generalizing s with
  | ind n ih =>
    cases hread : R.read s with
    | none => rw [R.readAll_of_none hread, List.nil_append]
    | some p =>
      obtain ⟨m, rest⟩ := p
      have hshorter := R.shorter s m rest hread
      rw [R.readAll_of_some hread, R.readAll_of_some (R.more s m rest t hread),
        ih rest.length (by omega) rest rfl, List.cons_append]

theorem readAll_prefix {t : List α} (h : s <+: t) : (R.readAll s).1 <+: (R.readAll t).1 := by
  obtain ⟨rest, rfl⟩ := h
  rw [readAll_append]
  apply List.prefix_append _ _

theorem readAll_flatMap {encode : β → List α}
    (h : ∀ m ∈ messages, ∀ rest, R.read (encode m ++ rest) = some (m, rest)) (rest : List α)
    : R.readAll (messages.flatMap encode ++ rest)
        =
      (messages ++ (R.readAll rest).1, (R.readAll rest).2) := by
  induction messages with
  | nil => rfl
  | cons m messages ih =>
    have hm := h m List.mem_cons_self (messages.flatMap encode ++ rest)
    rw [List.flatMap_cons, List.append_assoc, R.readAll_of_some hm,
      ih (fun m' hm' => h m' (List.mem_cons_of_mem m hm')), List.cons_append]

end Reader

end Text
