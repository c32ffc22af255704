import OpenServer.Http.Basic
import OpenServer.Text.Reader

/-!
This module contains the client's side of a page: it reads the links, each up to the white space or the
`>` that ends an unquoted value, and leaves the bytes of a value as they are. The server has no such
code.
-/

namespace Client

def anchor : Bytes := ascii "<a href="

def inValue (c : UInt8) : Bool :=
  c ∉ ascii "\t\n\x0c\r >"

def readLink (s : Bytes) : Option (Bytes × Bytes) := do
  let (_, rest) ← Text.cutAt anchor s
  if rest.dropWhile inValue = [] then
    none
  else
    some (rest.takeWhile inValue, rest.dropWhile inValue)

theorem readLink_cases (h : readLink s = some (link, rest))
    : ∃ before after, Text.cutAt anchor s = some (before, after) ∧ after.dropWhile inValue ≠ []
        ∧ link = after.takeWhile inValue ∧ rest = after.dropWhile inValue := by
  simp only [readLink, Option.bind_eq_bind, Option.bind_eq_some_iff] at h
  obtain ⟨⟨before, after⟩, hcut, h⟩ := h
  split at h
  . cases h
  . next hend =>
    injection h with h
    injection h with hlink hrest
    exact ⟨before, after, hcut, hend, hlink.symm, hrest.symm⟩

def linkReader : Text.Reader UInt8 Bytes where
  read := readLink
  shorter s link rest h := by
    obtain ⟨before, after, hcut, -, -, rfl⟩ := readLink_cases h
    have hs := congrArg List.length (Text.cutAt_eq hcut)
    have hanchor : anchor.length = 8 := by rfl
    have hle := (List.dropWhile_suffix inValue (l := after)).length_le
    simp only [List.length_append] at hs
    omega
  more s link rest t h := by
    obtain ⟨before, after, hcut, hend, rfl, rfl⟩ := readLink_cases h
    have hrest : (after ++ t).dropWhile inValue = after.dropWhile inValue ++ t := by
      rw [List.dropWhile_append, if_neg (by simpa using hend)]
    have hlink : (after ++ t).takeWhile inValue = after.takeWhile inValue := by
      rw [List.takeWhile_append, if_neg]
      intro hlength
      apply hend
      have hall := congrArg List.length (List.takeWhile_append_dropWhile (p := inValue) (l := after))
      rw [List.length_append, hlength] at hall
      apply List.eq_nil_of_length_eq_zero
      omega
    have hmore : after.dropWhile inValue ++ t ≠ [] := by simp [hend]
    simp only [readLink, Text.cutAt_more hcut t, Option.bind_eq_bind, Option.bind_some, hrest, hlink,
      if_neg hmore]

def Linkless (s : Bytes) : Prop :=
  ¬ anchor <:+: s

theorem linkless_of_notMem (hc : c ∈ anchor) (h : c ∉ s) : Linkless s := by
  intro hinfix
  apply h
  apply hinfix.subset hc

theorem linkless_append_cons_iff (hc : c ∉ anchor.tail)
    : Linkless (s ++ c :: t) ↔ Linkless s ∧ Linkless (c :: t) := by
  have hinfix := Text.infix_append_cons_iff (a := 60) (s := s) (t := t) hc
  change anchor <:+: s ++ c :: t ↔ anchor <:+: s ∨ anchor <:+: c :: t at hinfix
  rw [Linkless, hinfix, not_or]
  rfl

theorem linkless_cons (hc : c ≠ 60) (h : Linkless s) : Linkless (c :: s) := by
  intro hinfix
  rcases List.infix_cons_iff.mp hinfix with hprefix | hinfix
  . apply hc
    have hhead : anchor = 60 :: anchor.tail := by rfl
    rw [hhead, List.cons_prefix_cons] at hprefix
    exact hprefix.1.symm
  . exact h hinfix

theorem readLink_of_linkless (h : Linkless s) : readLink s = none := by
  rw [readLink, Text.cutAt_of_not_infix h]
  rfl

theorem readLink_anchor (hbefore : Linkless before) (hc : ¬ inValue c) (target rest : Bytes)
    : readLink (before ++ (anchor ++ (target ++ c :: rest)))
        =
      some (target.takeWhile inValue, target.dropWhile inValue ++ c :: rest) := by
  have hfirst : Linkless (before ++ anchor.dropLast) := by
    apply (linkless_append_cons_iff (c := 60) (by decide)).mpr
    refine ⟨hbefore, ?_⟩
    apply linkless_of_notMem (c := 61) <;> decide
  have hvalue : (target ++ c :: rest).takeWhile inValue = target.takeWhile inValue := by
    induction target with
    | nil => simp [hc]
    | cons a target ih => cases ha : inValue a <;> simp [ha, ih]
  have hrest : (target ++ c :: rest).dropWhile inValue = target.dropWhile inValue ++ c :: rest := by
    clear hvalue
    induction target with
    | nil => simp [hc]
    | cons a target ih => cases ha : inValue a <;> simp [ha, ih]
  have hend : target.dropWhile inValue ++ c :: rest ≠ [] := by simp
  rw [readLink, Text.cutAt_first (by decide) hfirst]
  simp only [Option.bind_eq_bind, Option.bind_some, hvalue, hrest, if_neg hend]

end Client
