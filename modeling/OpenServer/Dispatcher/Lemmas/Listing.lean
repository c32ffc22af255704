import OpenServer.Dispatcher.Impl.Request
import OpenServer.Http.RequestLine

/-!
This module contains what the names of a directory become in its listing: the links that lead back to
the files, and the markup of the page.
-/

namespace HttpMessageDispatcher

variable {qt : Qt}

def linkTarget (path : QString) : Bytes :=
  Text.replaceAll (ascii " ") (ascii "%20") path

theorem listEntry_eq (file : QFileInfo)
    : listEntry file
        =
      ascii "<br /><a href=" ++ linkTarget file.absoluteFilePath ++ ascii ">"
        ++ (if file.isDir then toHtmlEscaped (ascii "<DIR> ") else [])
        ++ toHtmlEscaped file.fileName ++ ascii "</a>" := by
  unfold listEntry linkTarget
  dsimp only
  split
  . rfl
  . rw [List.append_nil]

theorem linkTarget_eq (path : QString)
    : linkTarget path = path.flatMap (fun c => if c = 32 then [37, 50, 48] else [c]) := by
  rw [linkTarget, ascii_space, ascii_escapedSpace, Text.replaceAll_singleton]

theorem mem_linkTarget (h : c ∈ linkTarget path) : c ∈ ascii "%20" ∨ c ∈ path ∧ c ≠ 32 := by
  rw [linkTarget_eq, List.mem_flatMap] at h
  obtain ⟨b, hb, hc⟩ := h
  split at hc
  . left
    rwa [ascii_escapedSpace]
  . next hne =>
    right
    rw [List.mem_singleton] at hc
    rw [hc]
    exact ⟨hb, hne⟩

theorem space_notMem_linkTarget (path : QString) : 32 ∉ linkTarget path := by
  intro h
  obtain hescaped | ⟨-, hne⟩ := mem_linkTarget h
  . revert hescaped
    decide
  . exact hne rfl

theorem linkTarget_unbroken (h : ∀ c ∈ path, c ∉ ascii "\r\n")
    : ∀ c ∈ linkTarget path, c ∉ ascii "\r\n" := by
  intro c hc
  obtain hescaped | ⟨hpath, -⟩ := mem_linkTarget hc
  . have hsafe : ∀ c ∈ ascii "%20", c ∉ ascii "\r\n" := notMem_of_all (by decide)
    exact hsafe c hescaped
  . exact h c hpath

theorem decode_linkTarget_iff (path : QString)
    : Text.replaceAll (ascii "%20") (ascii " ") (linkTarget path) = path
        ↔
      ¬ ascii "%20" <:+: path :=
  Text.replaceAll_replaceAll_eq_iff (by decide) (by decide) path

theorem targetFits_iff (target : Bytes)
    : HttpHeaderParser.TargetFits target (ascii "HTTP/1.1") ↔ target.length + 13 < 2147483648 := by
  have hversion : (ascii "HTTP/1.1").length = 8 := by rfl
  rw [HttpHeaderParser.TargetFits, hversion]
  omega

theorem link_leads_back_iff {file : QFileInfo} {p : HttpHeaderParser}
    (hpath : ∀ c ∈ file.absoluteFilePath, c ∉ ascii "\r\n")
    (hqt : qt.fromStdString (linkTarget file.absoluteFilePath) = linkTarget file.absoluteFilePath)
    (hdirty : p.isDirty)
    (hp : p.requestHeader = ascii "GET " ++ linkTarget file.absoluteFilePath ++ ascii " HTTP/1.1"
      ++ (ascii "\r\n" ++ rest))
    : (∃ p', p.parse qt = some p' ∧ p'.requestPath = file.absoluteFilePath)
        ↔
      ¬ ascii "%20" <:+: file.absoluteFilePath
        ∧ (linkTarget file.absoluteFilePath).length + 13 < 2147483648 := by
  have hversion : ∀ c ∈ ascii "HTTP/1.1", c ∉ ascii " \r\n" := notMem_of_all (by decide)
  have hsplit : ascii " HTTP/1.1" = ascii " " ++ ascii "HTTP/1.1" := by rfl
  have hp : p.requestHeader = ascii "GET " ++ linkTarget file.absoluteFilePath ++ ascii " "
      ++ ascii "HTTP/1.1" ++ (ascii "\r\n" ++ rest) := by
    rw [hp, hsplit, ← List.append_assoc (ascii "GET " ++ linkTarget file.absoluteFilePath)]
  rw [← targetFits_iff, ← decode_linkTarget_iff]
  by_cases hfits : HttpHeaderParser.TargetFits (linkTarget file.absoluteFilePath) (ascii "HTTP/1.1")
  . have hparse := HttpHeaderParser.parse_of_targetFits qt hdirty hp (linkTarget_unbroken hpath)
      hversion hfits
    rw [hqt] at hparse
    simp [hparse, hfits]
  . have hnone : p.parse qt = none := by
      obtain hnone | ⟨url, tail, htarget, -⟩ := HttpHeaderParser.parse_of_not_targetFits qt hdirty hp
        (linkTarget_unbroken hpath) hversion hfits
      . exact hnone
      . have := space_notMem_linkTarget file.absoluteFilePath
        rw [htarget] at this
        simp at this
    simp [hnone, hfits]

def requestFor (u : Bytes) : HttpHeaderParser where
  requestHeader := ascii "GET " ++ u ++ ascii " HTTP/1.1" ++ (ascii "\r\n" ++ ascii "\r\n")

def fileSpaceInName : QFileInfo where
  absoluteFilePath := ascii "/www/a b"
  fileName := ascii "a b"
  isDir := false

theorem link_leads_back_fileSpaceInName
    : ∃ p', (requestFor (linkTarget fileSpaceInName.absoluteFilePath)).parse Qt.unix = some p'
        ∧ p'.requestPath = fileSpaceInName.absoluteFilePath := by
  have hpath : ∀ c ∈ fileSpaceInName.absoluteFilePath, c ∉ ascii "\r\n" :=
    notMem_of_all (by decide)
  have hescape : ¬ ascii "%20" <:+: fileSpaceInName.absoluteFilePath := by decide +kernel
  have hlength : (linkTarget fileSpaceInName.absoluteFilePath).length + 13 < 2147483648 := by
    rw [show (linkTarget fileSpaceInName.absoluteFilePath).length = 10 by decide]
    decide
  exact (link_leads_back_iff hpath rfl rfl rfl).mpr ⟨hescape, hlength⟩

def fileEscapeInName : QFileInfo where
  absoluteFilePath := ascii "/www/a%20b"
  fileName := ascii "a%20b"
  isDir := false

theorem not_link_leads_back
    : ¬ ∀ (file : QFileInfo) (p : HttpHeaderParser) (rest : Bytes),
        (∀ c ∈ file.absoluteFilePath, c ∉ ascii "\r\n") → p.isDirty →
        p.requestHeader = ascii "GET " ++ linkTarget file.absoluteFilePath ++ ascii " HTTP/1.1"
          ++ (ascii "\r\n" ++ rest) →
        ∃ p', p.parse Qt.unix = some p' ∧ p'.requestPath = file.absoluteFilePath := by
  intro h
  obtain ⟨p', hparse, hpath⟩ := h fileEscapeInName
    (requestFor (linkTarget fileEscapeInName.absoluteFilePath)) (ascii "\r\n")
    (notMem_of_all (by decide)) rfl rfl
  have hfound : (requestFor (linkTarget fileEscapeInName.absoluteFilePath)).parse Qt.unix
      = some { requestFor (linkTarget fileEscapeInName.absoluteFilePath) with
        requestPath := ascii "/www/a b"
        isDirty := false } := by decide
  rw [hfound] at hparse
  injection hparse with hparse
  rw [← hparse] at hpath
  revert hpath
  decide

def isMarkup (c : UInt8) : Bool :=
  c = 60 || c = 62

def markup (s : Bytes) : Bytes :=
  s.filter isMarkup

@[simp]
theorem markup_append (s t : Bytes) : markup (s ++ t) = markup s ++ markup t :=
  List.filter_append ..

theorem markup_flatMap (list : List α) (f : α → Bytes)
    : markup (list.flatMap f) = list.flatMap (fun a => markup (f a)) := by
  rw [markup, List.filter_flatMap]
  rfl

theorem markup_toHtmlEscaped (s : QString) : markup (toHtmlEscaped s) = [] := by
  rw [toHtmlEscaped, markup_flatMap, List.flatMap_eq_nil_iff]
  intro c _
  split
  . decide
  . next hlt =>
    split
    . decide
    . next hgt =>
      split
      . decide
      . split
        . decide
        . simp [markup, isMarkup, hlt, hgt]

theorem markup_linkTarget (path : QString) : markup (linkTarget path) = markup path := by
  rw [linkTarget_eq, markup_flatMap]
  induction path with
  | nil => rfl
  | cons c path ih =>
    rw [List.flatMap_cons, ih]
    by_cases hc : c = 32
    . simp [hc, markup, isMarkup]
    . by_cases hmarkup : isMarkup c <;> simp [hc, markup, hmarkup]

-- The page without the texts that are put into it.
def pageFrame (entries : Nat) : Bytes :=
  ascii "<html><head><title>Open Web Server</title></head><body><h1></h1>"
    ++ (List.replicate entries (ascii "<br /><a href=></a>")).flatten ++ ascii "</body></html>"

theorem markup_listEntry (file : QFileInfo)
    : markup (listEntry file)
        =
      markup (ascii "<br /><a href=") ++ markup file.absoluteFilePath ++ markup (ascii "></a>") := by
  have hdir : markup (if file.isDir then toHtmlEscaped (ascii "<DIR> ") else []) = [] := by
    split
    . exact markup_toHtmlEscaped _
    . rfl
  have htail : markup (ascii "></a>") = markup (ascii ">") ++ markup (ascii "</a>") := by decide
  rw [listEntry_eq, htail]
  simp only [markup_append, markup_linkTarget, hdir, markup_toHtmlEscaped, List.nil_append,
    List.append_assoc]

theorem markup_pageFrame (entries : Nat)
    : markup (pageFrame entries)
        =
      markup (ascii "<html><head><title>Open Web Server</title></head><body><h1>")
        ++ markup (ascii "</h1>")
        ++ (List.replicate entries (markup (ascii "<br /><a href=") ++ markup (ascii "></a>"))).flatten
        ++ markup (ascii "</body></html>") := by
  have hentries : markup (List.replicate entries (ascii "<br /><a href=></a>")).flatten
      = (List.replicate entries
          (markup (ascii "<br /><a href=") ++ markup (ascii "></a>"))).flatten := by
    rw [markup, List.filter_flatten, List.map_replicate]
    rfl
  have hhead : markup (ascii "<html><head><title>Open Web Server</title></head><body><h1></h1>")
      = markup (ascii "<html><head><title>Open Web Server</title></head><body><h1>")
        ++ markup (ascii "</h1>") := by decide
  rw [pageFrame, markup_append, markup_append, hentries, hhead]

theorem markup_directoryPage (list : List QFileInfo) (currentPath : QString)
    : markup (directoryPage list currentPath)
        =
      markup (ascii "<html><head><title>Open Web Server</title></head><body><h1>")
        ++ markup currentPath ++ markup (ascii "</h1>")
        ++ list.flatMap (fun file => markup (ascii "<br /><a href=") ++ markup file.absoluteFilePath
            ++ markup (ascii "></a>"))
        ++ markup (ascii "</body></html>") := by
  rw [directoryPage]
  simp only [markup_append, markup_flatMap, markup_listEntry]

theorem markup_eq_nil_iff {s : Bytes} : markup s = [] ↔ ∀ c ∈ s, c ≠ 60 ∧ c ≠ 62 := by
  simp [markup, isMarkup]

theorem directoryPage_markup_iff (list : List QFileInfo) (currentPath : QString)
    : markup (directoryPage list currentPath) = markup (pageFrame list.length)
        ↔
      (∀ c ∈ currentPath, c ≠ 60 ∧ c ≠ 62)
        ∧ ∀ file ∈ list, ∀ c ∈ file.absoluteFilePath, c ≠ 60 ∧ c ≠ 62 := by
  simp only [← markup_eq_nil_iff]
  rw [markup_directoryPage, markup_pageFrame,
    ← Text.flatMap_eq_frames_iff (markup (ascii "<br /><a href=")) (markup (ascii "></a>"))]
  constructor
  . intro h
    have hlength := congrArg List.length h
    have hle := Text.length_frames_le (markup (ascii "<br /><a href=")) (markup (ascii "></a>"))
      (fun file : QFileInfo => markup file.absoluteFilePath) list
    simp only [List.length_append] at hlength hle
    have hempty : markup currentPath = [] := by
      apply List.eq_nil_of_length_eq_zero
      omega
    rw [hempty, List.append_nil, List.append_cancel_right_eq, List.append_cancel_left_eq] at h
    exact ⟨hempty, h⟩
  . rintro ⟨hempty, hentries⟩
    rw [hempty, List.append_nil, hentries]

def fileWithTag : QFileInfo where
  absoluteFilePath := ascii "/www/<b>"
  fileName := ascii "<b>"
  isDir := false

theorem not_directoryPage_markup
    : ¬ ∀ (list : List QFileInfo) (currentPath : QString),
        markup (directoryPage list currentPath) = markup (pageFrame list.length) := by
  intro h
  have htag := h [fileWithTag] (ascii "/www")
  rw [markup_directoryPage, markup_pageFrame] at htag
  revert htag
  decide +kernel

end HttpMessageDispatcher
