import OpenServer.Http.HeaderParser
import OpenServer.Text.Lemmas

/-!
This module shows what `HTTP_Header_parser::parse` makes of a request line. Its offsets are `int`s, so
that a line of 2^31 bytes or more is cut where its length modulo 2^32 says.
-/

-- `fromStdString` keeps every character.
def Qt.Lossless (qt : Qt) : Prop :=
  ∀ s, qt.fromStdString s = s

namespace HttpHeaderParser

def intLength (line : Bytes) : Nat :=
  line.length % 4294967296

def CutsLine (line : Bytes) : Prop :=
  5 ≤ intLength line ∧ intLength line < 2147483648

-- What is left of the line without the method and its last character.
def getLine (line : Bytes) : Bytes :=
  (line.drop 4).take (intLength line - 5)

theorem getLine_length (h : CutsLine line) : (getLine line).length = intLength line - 5 := by
  have := Nat.mod_le line.length 4294967296
  obtain ⟨h5, hint⟩ := h
  simp only [getLine, List.length_take, List.length_drop, intLength] at *
  omega

section Line

variable {line rest : Bytes} (hline : ∀ a ∈ line, a ∉ ascii "\r\n") (hb : b ∈ ascii "\r\n")

include hline hb

theorem slice_getLine (hcuts : CutsLine line)
    : Text.slice (line ++ b :: rest) 4
        (intOfSize ((Text.findFirstOf (ascii "\r\n") (line ++ b :: rest)).getD npos) - 1)
        =
      some (getLine line) := by
  have hle := Nat.mod_le line.length 4294967296
  obtain ⟨h5, hint⟩ := hcuts
  unfold intLength at h5 hint
  rw [Text.findFirstOf_append_cons hline hb, Option.getD_some, intOfSize_of_lt hint,
    Text.slice_eq_some_iff]
  constructor
  . simp only [List.length_append, List.length_cons]
    omega
  . have hcount : ((line.length % 4294967296 : Nat) - 1 - 4 : Int).toNat
        = line.length % 4294967296 - 5 := by omega
    have hdrop : (line ++ b :: rest).drop (4 : Int).toNat = line.drop 4 ++ b :: rest := by
      apply List.drop_append_of_le_length
      omega
    rw [hcount, hdrop, List.take_append_of_le_length, getLine, intLength]
    simp only [List.length_drop]
    omega

theorem slice_getLine_eq_none (hcuts : ¬ CutsLine line)
    : Text.slice (line ++ b :: rest) 4
        (intOfSize ((Text.findFirstOf (ascii "\r\n") (line ++ b :: rest)).getD npos) - 1)
        =
      none := by
  rw [Text.findFirstOf_append_cons hline hb, Option.getD_some, ← Option.not_isSome_iff_eq_none,
    Text.slice_isSome_iff]
  rintro ⟨-, h5, -⟩
  apply hcuts
  unfold CutsLine intLength
  by_cases hint : line.length % 4294967296 < 2147483648
  . rw [intOfSize_of_lt hint] at h5
    omega
  . have := intOfSize_neg (Nat.le_of_not_lt hint)
    omega

end Line

theorem slice_url {g : Bytes} (hg : g = url ++ 32 :: tail) (htail : 32 ∉ tail)
    (hint : g.length < 2147483648)
    : Text.slice g 0 (intOfSize ((Text.findLastOf (ascii " ") g).getD npos)) = some url := by
  have hlast : Text.findLastOf (ascii " ") g = some url.length := by
    rw [hg]
    apply Text.findLastOf_append_cons
    . simp [ascii_space]
    . rintro a ha haspace
      rw [ascii_space, List.mem_singleton] at haspace
      exact htail (haspace ▸ ha)
  have hlength : url.length < 2147483648 := by
    rw [hg, List.length_append] at hint
    omega
  have hmod : url.length % 4294967296 = url.length := by omega
  rw [hlast, Option.getD_some, intOfSize_of_lt (by omega), hmod, hg, Text.slice_zero_length]

theorem slice_url_eq_none {g : Bytes} (hg : 32 ∉ g)
    : Text.slice g 0 (intOfSize ((Text.findLastOf (ascii " ") g).getD npos)) = none := by
  have hlast : Text.findLastOf (ascii " ") g = none := by
    rw [Text.findLastOf_eq_none_iff]
    rintro a ha haspace
    rw [ascii_space, List.mem_singleton] at haspace
    exact hg (haspace ▸ ha)
  rw [hlast, Option.getD_none, intOfSize_npos, ← Option.not_isSome_iff_eq_none, Text.slice_isSome_iff]
  omega

theorem parse_of_dirty {p : HttpHeaderParser} (hdirty : p.isDirty)
    : p.parse qt
        =
      (Text.slice p.requestHeader 4
          (intOfSize ((Text.findFirstOf (ascii "\r\n") p.requestHeader).getD npos) - 1)).bind
        fun getLine =>
          (Text.slice getLine 0
              (intOfSize ((Text.findLastOf (ascii " ") getLine).getD npos))).map
            fun url =>
              { p with
                requestPath := Text.replaceAll (ascii "%20") (ascii " ") (qt.fromStdString url)
                isDirty := false } := by
  rw [parse, if_pos hdirty]
  simp only [Option.map_eq_bind, Option.bind_eq_bind, Function.comp_def]

section Parse

variable {line rest : Bytes} {p : HttpHeaderParser} (hdirty : p.isDirty)
  (hp : p.requestHeader = line ++ b :: rest) (hline : ∀ a ∈ line, a ∉ ascii "\r\n")
  (hb : b ∈ ascii "\r\n")

include hdirty hp hline hb

theorem parse_of_space (hcuts : CutsLine line) (hspace : getLine line = url ++ 32 :: tail)
    (htail : 32 ∉ tail)
    : p.parse qt
        =
      some { p with
        requestPath := Text.replaceAll (ascii "%20") (ascii " ") (qt.fromStdString url)
        isDirty := false } := by
  have hlength : (getLine line).length < 2147483648 := by
    rw [getLine_length hcuts]
    exact Nat.lt_of_le_of_lt (Nat.sub_le _ _) hcuts.2
  rw [parse_of_dirty hdirty, hp, slice_getLine hline hb hcuts, Option.bind_some,
    slice_url hspace htail hlength, Option.map_some]

theorem parse_eq_none (h : ¬ (CutsLine line ∧ 32 ∈ getLine line)) : p.parse qt = none := by
  by_cases hcuts : CutsLine line
  . have hspace : 32 ∉ getLine line := fun hspace => h ⟨hcuts, hspace⟩
    rw [parse_of_dirty hdirty, hp, slice_getLine hline hb hcuts, Option.bind_some,
      slice_url_eq_none hspace, Option.map_none]
  . rw [parse_of_dirty hdirty, hp, slice_getLine_eq_none hline hb hcuts, Option.bind_none]

theorem parse_isSome_iff_of_line : (p.parse qt).isSome ↔ CutsLine line ∧ 32 ∈ getLine line := by
  constructor
  . intro hsome
    by_contra h
    rw [parse_eq_none hdirty hp hline hb h] at hsome
    cases hsome
  . rintro ⟨hcuts, hspace⟩
    obtain ⟨url, tail, hgetLine, htail⟩ := Text.eq_append_last_of_mem hspace
    rw [parse_of_space hdirty hp hline hb hcuts hgetLine htail, Option.isSome_some]

end Parse

-- The character that the parser drops belongs to the version, also modulo 2^32.
def TargetFits (target version : Bytes) : Prop :=
  target.length + 6 ≤ (target.length + version.length + 5) % 4294967296
    ∧ (target.length + version.length + 5) % 4294967296 < 2147483648

instance : Decidable (TargetFits target version) :=
  inferInstanceAs (Decidable (_ ∧ _))

section Target

variable {target version rest : Bytes}

theorem requestLine_length
    : (ascii "GET " ++ target ++ ascii " " ++ version).length
        =
      target.length + version.length + 5 := by
  have hget : (ascii "GET ").length = 4 := by rfl
  simp only [List.length_append, hget, ascii_space, List.length_singleton]
  omega

theorem requestLine_drop
    : (ascii "GET " ++ target ++ ascii " " ++ version).drop 4 = target ++ 32 :: version := by
  rw [List.append_assoc, List.append_assoc, ascii_space, List.singleton_append]
  apply List.drop_left'
  rfl

theorem requestLine_unbroken (htarget : ∀ a ∈ target, a ∉ ascii "\r\n")
    (hversion : ∀ a ∈ version, a ∉ ascii " \r\n")
    : ∀ a ∈ ascii "GET " ++ target ++ ascii " " ++ version, a ∉ ascii "\r\n" := by
  have hget : ∀ a ∈ ascii "GET ", a ∉ ascii "\r\n" := notMem_of_all (by decide)
  have hspace : ∀ a ∈ ascii " ", a ∉ ascii "\r\n" := notMem_of_all (by decide)
  have hset : ascii " \r\n" = ascii " " ++ ascii "\r\n" := by rfl
  intro a ha
  simp only [List.mem_append] at ha
  obtain ((ha | ha) | ha) | ha := ha
  . exact hget a ha
  . exact htarget a ha
  . exact hspace a ha
  . intro hbreak
    apply hversion a ha
    rw [hset]
    exact List.mem_append_right _ hbreak

variable (qt : Qt) {p : HttpHeaderParser} (hdirty : p.isDirty)
  (hp : p.requestHeader = ascii "GET " ++ target ++ ascii " " ++ version ++ (ascii "\r\n" ++ rest))
  (htarget : ∀ a ∈ target, a ∉ ascii "\r\n") (hversion : ∀ a ∈ version, a ∉ ascii " \r\n")

include hdirty hp htarget hversion

theorem parse_of_targetFits (hfits : TargetFits target version)
    : p.parse qt
        =
      some { p with
        requestPath := Text.replaceAll (ascii "%20") (ascii " ") (qt.fromStdString target)
        isDirty := false } := by
  obtain ⟨htail, hint⟩ := hfits
  have hcuts : CutsLine (ascii "GET " ++ target ++ ascii " " ++ version) := by
    rw [CutsLine, intLength, requestLine_length]
    omega
  have hgetLine : getLine (ascii "GET " ++ target ++ ascii " " ++ version)
      = target ++ 32 :: version.take
          ((target.length + version.length + 5) % 4294967296 - (target.length + 6)) := by
    rw [getLine, requestLine_drop, intLength, requestLine_length, List.take_append,
      List.take_of_length_le (by omega)]
    obtain ⟨k, hk⟩ := Nat.exists_eq_add_of_le htail
    have hcount : target.length + 6 + k - 5 - target.length = k + 1 := by omega
    rw [hk, hcount, Nat.add_sub_cancel_left, List.take_succ_cons]
  apply parse_of_space hdirty hp (requestLine_unbroken htarget hversion) List.mem_cons_self hcuts
    hgetLine
  intro hspace
  exact hversion 32 (List.mem_of_mem_take hspace) (by decide)

theorem parse_of_not_targetFits (hfits : ¬ TargetFits target version)
    : p.parse qt = none
        ∨ ∃ url tail, target = url ++ 32 :: tail ∧ p.parse qt = some { p with
            requestPath := Text.replaceAll (ascii "%20") (ascii " ") (qt.fromStdString url)
            isDirty := false } := by
  have hline := requestLine_unbroken htarget hversion
  by_cases hcuts : CutsLine (ascii "GET " ++ target ++ ascii " " ++ version)
      ∧ 32 ∈ getLine (ascii "GET " ++ target ++ ascii " " ++ version)
  . right
    obtain ⟨hcuts, hspace⟩ := hcuts
    obtain ⟨url, tail, hgetLine, htail⟩ := Text.eq_append_last_of_mem hspace
    have hshort : (target.length + version.length + 5) % 4294967296 - 5 ≤ target.length := by
      rw [CutsLine, intLength, requestLine_length] at hcuts
      unfold TargetFits at hfits
      omega
    have htarget' : target = url ++ 32 :: (tail ++ target.drop
        ((target.length + version.length + 5) % 4294967296 - 5)) := by
      rw [← List.cons_append, ← List.append_assoc, ← hgetLine, getLine, requestLine_drop, intLength,
        requestLine_length, List.take_append_of_le_length hshort, List.take_append_drop]
    exact ⟨url, _, htarget',
      parse_of_space hdirty hp hline List.mem_cons_self hcuts hgetLine htail⟩
  . left
    exact parse_eq_none hdirty hp hline List.mem_cons_self hcuts

theorem parse_requestLine_iff (hqt : qt.Lossless)
    : p.parse qt
          = some { p with
            requestPath := Text.replaceAll (ascii "%20") (ascii " ") target
            isDirty := false }
        ↔
      TargetFits target version := by
  constructor
  . intro hparse
    by_contra hfits
    obtain hnone | ⟨url, tail, rfl, hsome⟩ :=
      parse_of_not_targetFits qt hdirty hp htarget hversion hfits
    . simp [hparse] at hnone
    . -- the path that is set lacks the part of the target behind its last space
      rw [hparse, hqt url, Text.replaceAll_append_cons (by decide) (by decide)] at hsome
      simp at hsome
  . intro hfits
    rw [parse_of_targetFits qt hdirty hp htarget hversion hfits, hqt target]

end Target

def requestSpaceInName : HttpHeaderParser where
  requestHeader := ascii "GET /a%20b HTTP/1.1\r\nHost: h\r\n\r\n"

theorem parse_requestLine_iff_spaceInName
    : requestSpaceInName.parse Qt.unix
        =
      some { requestSpaceInName with requestPath := ascii "/a b", isDirty := false } := by
  have hp : requestSpaceInName.requestHeader = ascii "GET " ++ ascii "/a%20b" ++ ascii " "
      ++ ascii "HTTP/1.1" ++ (ascii "\r\n" ++ ascii "Host: h\r\n\r\n") := by rfl
  have hlossless : Qt.unix.Lossless := fun _ => rfl
  exact (parse_requestLine_iff _ rfl hp (notMem_of_all (by decide)) (notMem_of_all (by decide))
    hlossless).mpr (by decide)

-- The length of this line is no `int`.
theorem not_parse_requestLine
    : ¬ ∀ (p : HttpHeaderParser) (target version rest : Bytes), p.isDirty →
        p.requestHeader
          = ascii "GET " ++ target ++ ascii " " ++ version ++ (ascii "\r\n" ++ rest) →
        (∀ a ∈ target, a ∉ ascii "\r\n") → version ≠ [] → (∀ a ∈ version, a ∉ ascii " \r\n") →
        p.parse Qt.unix = some { p with
          requestPath := Text.replaceAll (ascii "%20") (ascii " ") target
          isDirty := false } := by
  intro h
  have hletters : ∀ a ∈ List.replicate 2147483648 (97 : UInt8), a = 97 :=
    fun a => List.eq_of_mem_replicate
  have hlength := List.length_replicate (n := 2147483648) (a := (97 : UInt8))
  generalize List.replicate 2147483648 (97 : UInt8) = target at hletters hlength
  have htarget : ∀ a ∈ target, a ∉ ascii "\r\n" := by
    intro a ha
    rw [hletters a ha]
    decide
  have hversion : ∀ a ∈ ascii "HTTP/1.1", a ∉ ascii " \r\n" := notMem_of_all (by decide)
  obtain ⟨p, hp, hdirty⟩ : ∃ p : HttpHeaderParser, p.requestHeader = ascii "GET " ++ target
      ++ ascii " " ++ ascii "HTTP/1.1" ++ (ascii "\r\n" ++ []) ∧ p.isDirty :=
    ⟨{ requestHeader := _ }, rfl, rfl⟩
  have hfits : ¬ TargetFits target (ascii "HTTP/1.1") := by
    have height : (ascii "HTTP/1.1").length = 8 := by rfl
    rw [TargetFits, hlength, height]
    omega
  have hparse := h p target (ascii "HTTP/1.1") [] hdirty hp htarget (by decide) hversion
  obtain hnone | ⟨url, tail, rfl, -⟩ :=
    parse_of_not_targetFits Qt.unix hdirty hp htarget hversion hfits
  . rw [hparse] at hnone
    cases hnone
  . exact absurd (hletters 32 (by simp)) (by decide)

end HttpHeaderParser
