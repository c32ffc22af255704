import Mathlib.Data.List.Basic
import OpenServer.Text.Search

/-!
This module contains how the searches, cuts and replacements act on concatenations, and for which
strings the replacement of an escape sequence undoes its introduction.
-/

namespace Text

theorem prefix_append_cons_iff {before s t : List α} (ha : a ∉ before)
    : before <+: s ++ a :: t ↔ before <+: s := by
  constructor
  . intro h
    induction before generalizing s with
    | nil => exact List.nil_prefix
    | cons b before ih =>
      simp only [List.mem_cons, not_or] at ha
      cases s with
      | nil =>
        rw [List.nil_append, List.cons_prefix_cons] at h
        exact absurd h.1.symm ha.1
      | cons c s =>
        rw [List.cons_append, List.cons_prefix_cons] at h
        rw [List.cons_prefix_cons]
        exact ⟨h.1, ih ha.2 h.2⟩
  . intro h
    exact h.trans (List.prefix_append _ _)

theorem eq_append_last_of_mem {s : List α} (h : a ∈ s) : ∃ u t, s = u ++ a :: t ∧ a ∉ t := by
  obtain ⟨t, u, hs, ht⟩ := List.eq_append_cons_of_mem (List.mem_reverse.mpr h)
  refine ⟨u.reverse, t.reverse, ?_, by simpa using ht⟩
  rw [← List.reverse_reverse s, hs]
  simp

theorem slice_eq_some_iff {s t : List α}
    : slice s first last = some t
        ↔
      (0 ≤ first ∧ first ≤ last ∧ last ≤ s.length)
        ∧ (s.drop first.toNat).take (last - first).toNat = t := by
  unfold slice
  split
  . next h => simp [h]
  . next h => simp [h]

theorem slice_isSome_iff {s : List α}
    : (slice s first last).isSome ↔ 0 ≤ first ∧ first ≤ last ∧ last ≤ s.length := by
  unfold slice
  split
  . next h => simp [h]
  . next h => simp [h]

theorem slice_zero_length (s t : List α) : slice (s ++ t) 0 s.length = some s := by
  rw [slice_eq_some_iff, List.length_append]
  refine ⟨by omega, ?_⟩
  simp

-- A text that is built from a frame with an insertion in every copy of it.
section Frame

variable (before after : List β) (f : α → List β)

theorem length_frames_le (l : List α)
    : (List.replicate l.length (before ++ after)).flatten.length
        ≤
      (l.flatMap (fun a => before ++ f a ++ after)).length := by
  induction l with
  | nil => simp
  | cons a l ih =>
    simp only [List.length_cons, List.replicate_succ, List.flatten_cons, List.flatMap_cons,
      List.length_append] at ih ⊢
    omega

theorem flatMap_eq_frames_iff (l : List α)
    : l.flatMap (fun a => before ++ f a ++ after)
        = (List.replicate l.length (before ++ after)).flatten
        ↔
      ∀ a ∈ l, f a = [] := by
  induction l with
  | nil => simp
  | cons a l ih =>
    rw [List.forall_mem_cons, ← ih, List.flatMap_cons, List.length_cons, List.replicate_succ,
      List.flatten_cons]
    constructor
    . intro h
      have hlength := congrArg List.length h
      have hle := length_frames_le before after f l
      simp only [List.length_append] at hlength
      have hempty : f a = [] := by
        apply List.eq_nil_of_length_eq_zero
        omega
      refine ⟨hempty, ?_⟩
      rwa [hempty, List.append_nil, List.append_cancel_left_eq] at h
    . rintro ⟨hempty, hrest⟩
      rw [hempty, List.append_nil, hrest]

end Frame

variable [DecidableEq α] {set s t : List α}

theorem findFirstOf_append_cons (hs : ∀ b ∈ s, b ∉ set) (ha : a ∈ set)
    : findFirstOf set (s ++ a :: t) = some s.length := by
  have hnone : s.findIdx? (fun b => decide (b ∈ set)) = none := by
    rw [List.findIdx?_eq_none_iff]
    intro b hb
    exact decide_eq_false (hs b hb)
  simp [findFirstOf, List.findIdx?_append, hnone, List.findIdx?_cons, ha]

theorem findLastOf_append_cons (ha : a ∈ set) (ht : ∀ b ∈ t, b ∉ set)
    : findLastOf set (s ++ a :: t) = some s.length := by
  have hfirst := findFirstOf_append_cons (s := t.reverse) (t := s.reverse) (a := a)
    (fun b hb => ht b (List.mem_reverse.mp hb)) ha
  have hreverse : (s ++ a :: t).reverse = t.reverse ++ a :: s.reverse := by simp
  unfold findFirstOf at hfirst
  rw [findLastOf, hreverse, hfirst]
  simp

theorem findLastOf_eq_none_iff : findLastOf set s = none ↔ ∀ a ∈ s, a ∉ set := by
  simp [findLastOf, List.findIdx?_eq_none_iff]

variable {before after : List α}

theorem replaceAll_go (before after s : List α) (k : Nat)
    : replaceAll.go before after k s = replaceAll before after (s.drop k) := by
  induction s generalizing k with
  | nil => simp [replaceAll, replaceAll.go]
  | cons a s ih =>
    cases k with
    | zero => rfl
    | succ k => rw [replaceAll.go, ih, List.drop_succ_cons]

@[simp]
theorem replaceAll_nil : replaceAll before after [] = [] := by
  rfl

theorem replaceAll_occurrence (h : before ≠ []) (s : List α)
    : replaceAll before after (before ++ s) = after ++ replaceAll before after s := by
  obtain ⟨a, rest, rfl⟩ := List.exists_cons_of_ne_nil h
  rw [List.cons_append, replaceAll, replaceAll.go, if_pos, replaceAll_go]
  . simp
  . simp

theorem replaceAll_cons (h : ¬ before <+: a :: s)
    : replaceAll before after (a :: s) = a :: replaceAll before after s := by
  rw [replaceAll, replaceAll.go, if_neg]
  . rfl
  . rwa [List.isPrefixOf_iff_prefix]

theorem replaceAll_singleton (a : α) (after s : List α)
    : replaceAll [a] after s = s.flatMap (fun b => if b = a then after else [b]) := by
  induction s with
  | nil => rfl
  | cons b s ih =>
    by_cases hb : b = a
    . have hreplaced : replaceAll [a] after (a :: s) = after ++ replaceAll [a] after s :=
        replaceAll_occurrence (List.cons_ne_nil a []) s
      simp [hb, hreplaced, ih]
    . rw [replaceAll_cons, ih]
      . simp [hb]
      . simpa using Ne.symm hb

-- An element that no occurrence contains keeps the replacements before it and after it apart.
theorem replaceAll_append_cons (hbefore : before ≠ []) (ha : a ∉ before) (s t : List α)
    : replaceAll before after (s ++ a :: t)
        =
      replaceAll before after s ++ a :: replaceAll before after t := by
  induction hn : s.length using Nat.strongRecOn generalizing s with
  | ind n ih =>
    cases s with
    | nil =>
      rw [List.nil_append, replaceAll_cons]
      . rfl
      . rw [← List.nil_append (a :: t), prefix_append_cons_iff ha, List.prefix_nil]
        exact hbefore
    | cons b s =>
      by_cases hmatch : before <+: b :: s
      . obtain ⟨u, hu⟩ := hmatch
        have hlength : u.length < n := by
          have := congrArg List.length hu
          have := List.length_pos_iff.mpr hbefore
          simp only [List.length_append] at *
          omega
        rw [← hu, List.append_assoc, replaceAll_occurrence hbefore, replaceAll_occurrence hbefore,
          ih u.length hlength u rfl, List.append_assoc]
      . have hlonger := hmatch
        rw [← prefix_append_cons_iff ha (t := t), List.cons_append] at hlonger
        rw [List.cons_append, replaceAll_cons hlonger, replaceAll_cons hmatch,
          ih s.length (by simp at hn; omega) s rfl, List.cons_append]

-- The escape sequence `c :: escape` stands for `a`.
section Escape

variable {escape : List α}

theorem prefix_replaceAll_iff {tail : List α} (htail : a ∉ tail) (hc : c ∉ tail) (s : List α)
    : tail <+: replaceAll [a] (c :: escape) s ↔ tail <+: s := by
  induction tail generalizing s with
  | nil => simp
  | cons d tail ih =>
    simp only [List.mem_cons, not_or] at htail hc
    cases s with
    | nil => simp
    | cons b s =>
      by_cases hb : b = a
      . have hlhs : ¬ d :: tail <+: replaceAll [a] (c :: escape) (b :: s) := by
          simp [replaceAll_singleton, hb, List.cons_prefix_cons, Ne.symm hc.1]
        have hrhs : ¬ d :: tail <+: b :: s := by
          simp [hb, List.cons_prefix_cons, Ne.symm htail.1]
        simp [hlhs, hrhs]
      . rw [replaceAll_cons (by simpa using Ne.symm hb), List.cons_prefix_cons,
          List.cons_prefix_cons, ih htail.2 hc.2]

theorem replaceAll_replaceAll_eq_iff (ha : a ∉ c :: escape) (hc : c ∉ escape) (s : List α)
    : replaceAll (c :: escape) [a] (replaceAll [a] (c :: escape) s) = s
        ↔
      ¬ c :: escape <:+: s := by
  have hescape : a ∉ escape := fun h => ha (List.mem_cons_of_mem c h)
  induction s with
  | nil => simp
  | cons b s ih =>
    by_cases hb : b = a
    . subst hb
      have hencode : replaceAll [b] (c :: escape) (b :: s)
          = c :: escape ++ replaceAll [b] (c :: escape) s :=
        replaceAll_occurrence (List.cons_ne_nil b []) s
      have hnone : ¬ c :: escape <+: b :: s := by
        rw [List.cons_prefix_cons]
        rintro ⟨rfl, -⟩
        exact ha List.mem_cons_self
      rw [hencode, replaceAll_occurrence (List.cons_ne_nil c escape), List.singleton_append,
        List.cons_inj_right, List.infix_cons_iff]
      simp [hnone, ih]
    . have hsame : c :: escape <+: b :: replaceAll [a] (c :: escape) s
          ↔ c :: escape <+: b :: s := by
        rw [List.cons_prefix_cons, List.cons_prefix_cons, prefix_replaceAll_iff hescape hc]
      rw [replaceAll_cons (by simpa using Ne.symm hb), List.infix_cons_iff]
      by_cases hmatch : c :: escape <+: b :: s
      . -- the sequence was there before: it is taken for an escaped `a`
        obtain ⟨u, hu⟩ := hsame.mpr hmatch
        rw [← hu, replaceAll_occurrence (List.cons_ne_nil c escape), List.singleton_append]
        simp [hmatch, Ne.symm hb]
      . rw [replaceAll_cons (mt hsame.mp hmatch), List.cons_inj_right]
        simp [hmatch, ih]

end Escape

end Text
