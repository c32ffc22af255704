import Mathlib.Data.List.TakeWhile
import OpenServer.Composer.Lemmas.Reassembly
import OpenServer.Http.RequestLine

/-!
This module shows which of the requests that the composer accepts the header parser can cut.
-/

namespace HttpHeaderParser

-- `rv` and `last_space` of `parse`.
def lineBreakOffset (request : Bytes) : Int :=
  intOfSize ((Text.findFirstOf (ascii "\r\n") request).getD npos)

def lastSpaceOffset (line : Bytes) : Int :=
  intOfSize ((Text.findLastOf (ascii " ") line).getD npos)

structure ValidRanges (request : Bytes) : Prop where
  lineBreak : Text.findFirstOf (ascii "\r\n") request ≠ none
  getLine : 4 ≤ lineBreakOffset request - 1 ∧ lineBreakOffset request - 1 ≤ request.length
  url : ∀ line, Text.slice request 4 (lineBreakOffset request - 1) = some line →
    Text.findLastOf (ascii " ") line ≠ none
      ∧ 0 ≤ lastSpaceOffset line ∧ lastSpaceOffset line ≤ line.length

-- A search that found nothing ends no range.
theorem slice_found_isSome_iff (s : Bytes) (found : Option Nat) (hfirst : 0 ≤ first) (hk : 0 ≤ k)
    : (Text.slice s first (intOfSize (found.getD npos) - k)).isSome
        ↔
      found ≠ none ∧ first ≤ intOfSize (found.getD npos) - k
        ∧ intOfSize (found.getD npos) - k ≤ s.length := by
  rw [Text.slice_isSome_iff]
  constructor
  . rintro ⟨-, hle, hlast⟩
    refine ⟨?_, hle, hlast⟩
    rintro rfl
    rw [Option.getD_none, intOfSize_npos] at hle
    omega
  . rintro ⟨-, hle, hlast⟩
    exact ⟨hfirst, hle, hlast⟩

theorem slice_lineBreak_isSome_iff {request : Bytes}
    : (Text.slice request 4 (lineBreakOffset request - 1)).isSome
        ↔
      Text.findFirstOf (ascii "\r\n") request ≠ none
        ∧ 4 ≤ lineBreakOffset request - 1 ∧ lineBreakOffset request - 1 ≤ request.length :=
  slice_found_isSome_iff request _ (by omega) (by omega)

theorem slice_lastSpace_isSome_iff {line : Bytes}
    : (Text.slice line 0 (lastSpaceOffset line)).isSome
        ↔
      Text.findLastOf (ascii " ") line ≠ none
        ∧ 0 ≤ lastSpaceOffset line ∧ lastSpaceOffset line ≤ line.length := by
  have h := slice_found_isSome_iff line (Text.findLastOf (ascii " ") line) (Int.le_refl 0)
    (Int.le_refl 0)
  rwa [Int.sub_zero] at h

theorem parse_isSome_iff {p : HttpHeaderParser} (hdirty : p.isDirty)
    : (p.parse qt).isSome ↔ ValidRanges p.requestHeader := by
  rw [parse_of_dirty hdirty, ← lineBreakOffset]
  cases hline : Text.slice p.requestHeader 4 (lineBreakOffset p.requestHeader - 1) with
  | none =>
    simp only [Option.bind_none, Option.isSome_none, Bool.false_eq_true, false_iff]
    intro h
    have := slice_lineBreak_isSome_iff.mpr ⟨h.lineBreak, h.getLine⟩
    simp [hline] at this
  | some line =>
    have hfirst := slice_lineBreak_isSome_iff.mp (Option.isSome_of_eq_some hline)
    rw [Option.bind_some, Option.isSome_map, ← lastSpaceOffset, slice_lastSpace_isSome_iff]
    constructor
    . intro hurl
      refine ⟨hfirst.1, hfirst.2, ?_⟩
      rintro line' hline'
      rw [hline] at hline'
      injection hline' with hline'
      rwa [← hline']
    . intro h
      exact h.url line hline

def firstLine (request : Bytes) : Bytes :=
  request.takeWhile (fun a => decide (a ∉ ascii "\r\n"))

theorem firstLine_unbroken (request : Bytes) : ∀ a ∈ firstLine request, a ∉ ascii "\r\n" := by
  intro a ha
  simpa using List.mem_takeWhile_imp ha

theorem eq_firstLine_append {request : Bytes} (h : ∃ a ∈ request, a ∈ ascii "\r\n")
    : ∃ b rest, request = firstLine request ++ b :: rest ∧ b ∈ ascii "\r\n" := by
  cases hdrop : request.dropWhile (fun a => decide (a ∉ ascii "\r\n")) with
  | nil =>
    obtain ⟨a, ha, hbreak⟩ := h
    have := List.dropWhile_eq_nil_iff.mp hdrop a ha
    simp [hbreak] at this
  | cons b rest =>
    have hb := List.head?_dropWhile_not (fun a => decide (a ∉ ascii "\r\n")) request
    rw [hdrop, List.head?_cons] at hb
    refine ⟨b, rest, ?_, by simpa using hb⟩
    rw [firstLine, ← hdrop, List.takeWhile_append_dropWhile]

def HasTarget (s : Bytes) : Prop :=
  intLength s < 2147483648 ∧ ∃ i, 4 ≤ i ∧ i + 1 < intLength s ∧ s[i]? = some 32

theorem hasTarget_iff (line : Bytes) : HasTarget line ↔ CutsLine line ∧ 32 ∈ getLine line := by
  unfold HasTarget CutsLine getLine
  rw [List.mem_iff_getElem?]
  constructor
  . rintro ⟨hint, i, h4, hi, hspace⟩
    refine ⟨⟨by omega, hint⟩, i - 4, ?_⟩
    rw [List.getElem?_take_of_lt (by omega), List.getElem?_drop, Nat.add_sub_cancel' h4, hspace]
  . rintro ⟨⟨h5, hint⟩, i, hi⟩
    rw [List.getElem?_take] at hi
    split at hi
    . next hlt =>
      rw [List.getElem?_drop] at hi
      exact ⟨hint, 4 + i, by omega, by omega, hi⟩
    . cases hi

theorem validRanges_iff_of_complete {request : Bytes}
    (hcomplete : HtmlMessageComposer.isComplete request)
    : (ValidRanges request ∧ ∀ (qt : Qt) (p : HttpHeaderParser),
          p.requestHeader = request → (p.parse qt).isSome)
        ↔
      HasTarget (firstLine request) := by
  have hbreak : ∃ a ∈ request, a ∈ ascii "\r\n" := by
    have hsuffix := (HtmlMessageComposer.isComplete_iff request).mp hcomplete
    exact ⟨13, hsuffix.subset (by simp [HtmlMessageComposer.terminator]), by decide⟩
  obtain ⟨b, rest, hrequest, hb⟩ := eq_firstLine_append hbreak
  have hparse : ∀ (qt : Qt) (p : HttpHeaderParser), p.requestHeader = request → p.isDirty →
      ((p.parse qt).isSome ↔ HasTarget (firstLine request)) := by
    intro qt p hp hdirty
    rw [hasTarget_iff]
    exact parse_isSome_iff_of_line hdirty (hp.trans hrequest) (firstLine_unbroken request) hb
  constructor
  . rintro ⟨-, hsome⟩
    exact (hparse Qt.unix { requestHeader := request } rfl rfl).mp (hsome _ _ rfl)
  . intro htarget
    refine ⟨?_, ?_⟩
    . have := (hparse Qt.unix { requestHeader := request } rfl rfl).mpr htarget
      exact (parse_isSome_iff rfl).mp this
    . intro qt p hp
      by_cases hdirty : p.isDirty
      . exact (hparse qt p hp hdirty).mpr htarget
      . simp [parse, hdirty]

theorem validRanges_iff_of_complete_getRoot
    : ValidRanges (ascii "GET / HTTP/1.1\r\n\r\n")
        ∧ ∀ (qt : Qt) (p : HttpHeaderParser),
          p.requestHeader = ascii "GET / HTTP/1.1\r\n\r\n" → (p.parse qt).isSome :=
  (validRanges_iff_of_complete (by decide)).mpr ⟨by decide, 5, by decide, by decide, rfl⟩

-- A request with an empty first line.
theorem not_validRanges_of_complete
    : ¬ ∀ request : Bytes, HtmlMessageComposer.isComplete request →
        ValidRanges request ∧ ∀ (qt : Qt) (p : HttpHeaderParser),
          p.requestHeader = request → (p.parse qt).isSome := by
  intro h
  obtain ⟨⟨-, hgetLine, -⟩, -⟩ := h (ascii "\r\n\r\n") (by decide)
  revert hgetLine
  decide

end HttpHeaderParser
