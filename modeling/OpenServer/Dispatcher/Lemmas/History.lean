import OpenServer.Dispatcher.Lemmas.Queue

/-!
This module shows when the response to a request does not depend on the requests served before it.
What they leave behind is the working directory of the process.
-/

namespace HttpMessageDispatcher

variable {qt : Qt} {disk : Disk}

-- Requests handled one at a time, each with what its uninitialised local holds.
def serveAll (qt : Qt) (disk : Disk) (sh : Shared) : List (ClientSession × Bool) → Option Shared
  | [] => some sh
  | (c, indeterminate) :: history => do
    let (sh, _) ← onClientRequest qt disk indeterminate sh c
    serveAll qt disk sh history

def builtResponse (qt : Qt) (disk : Disk) (indeterminate : Bool) (sh : Shared) (c : ClientSession)
    : Option Bytes := do
  let (sh, c) ← onClientRequest qt disk indeterminate sh c
  responseData sh c

-- The directory in which a request for no file leaves a process that stands in `cwd`.
def landing (qt : Qt) (disk : Disk) (cwd path : QString) : QString :=
  let dir := if path ≠ ascii "/" then qt.fromNativeSeparators path else ascii "/"
  (disk.setCurrent (qt.absolutePath cwd dir)).getD cwd

theorem changeDir_getD (c : ClientSession)
    : (changeDir qt disk cwd c).getD cwd = landing qt disk cwd c.request.requestPath := by
  unfold changeDir landing
  split <;> simp_all

def directoryAnswer (disk : Disk) (dir : QString) : Bytes :=
  let page := directoryPage (disk.entryInfoList dir) dir
  responseHeader (ascii "text/html") page.length ++ page

theorem builtResponse_of_directory {sh : Shared} {c : ClientSession} {request : HttpHeaderParser}
    (indeterminate : Bool) (hfresh : c.Fresh) (hparse : c.request.parse qt = some request)
    (hfile : ¬ (disk.pathExists (qt.absolutePath sh.cwd request.requestPath)
      ∧ disk.isFile (qt.absolutePath sh.cwd request.requestPath)))
    : builtResponse qt disk indeterminate sh c
        =
      some (directoryAnswer disk (landing qt disk sh.cwd request.requestPath)) := by
  have hlookup : lookup qt disk sh { c with request } = (.directory, { c with request }) := by
    simp [lookup, hfile]
  have hrequest := onClientRequest_of_directory indeterminate
    hfresh.ewouldblockFlag (parseRequest_of_parse hparse) hlookup (changeDir_getD _)
  rw [builtResponse, hrequest]
  cases indeterminate <;>
    simp [store, responseData, compose, directoryResponse, directoryAnswer, hfresh.isCached]

theorem directoryAnswer_inj (h : directoryAnswer disk dir = directoryAnswer disk dir')
    (hdir : 60 ∉ dir) (hdir' : 60 ∉ dir')
    : dir = dir' := by
  simp only [directoryAnswer, responseHeader, List.append_assoc, List.append_cancel_left_eq] at h
  rw [Text.append_separator_inj (by rfl) carriageReturn_notMem_toDecimal
    carriageReturn_notMem_toDecimal] at h
  obtain ⟨-, h⟩ := h
  simp only [directoryPage, List.append_assoc, List.append_cancel_left_eq] at h
  rw [Text.append_separator_inj (by rfl) hdir hdir'] at h
  exact h.1

theorem landing_of_absolute {path d : QString} (cwd' : QString) (hroot : path ≠ ascii "/")
    (habsolute : qt.isAbsolutePath (qt.fromNativeSeparators path))
    (hd : disk.setCurrent (qt.absolutePath cwd (qt.fromNativeSeparators path)) = some d)
    : landing qt disk cwd' path = d := by
  rw [landing, if_pos hroot, qt.absolutePath_eq cwd' cwd _ habsolute, hd]
  rfl

def responseAfter (qt : Qt) (disk : Disk) (sh : Shared) (history : List (ClientSession × Bool))
    (indeterminate : Bool) (c : ClientSession) : Option Bytes := do
  let sh ← serveAll qt disk sh history
  builtResponse qt disk indeterminate sh c

theorem responseAfter_eq_iff (qt : Qt) (disk : Disk) (sh sh₁ sh₂ : Shared)
    (history₁ history₂ : List (ClientSession × Bool)) (indeterminate₁ indeterminate₂ : Bool)
    (c : ClientSession) (request : HttpHeaderParser)
    (hhistory₁ : serveAll qt disk sh history₁ = some sh₁)
    (hhistory₂ : serveAll qt disk sh history₂ = some sh₂)
    (hfresh : c.Fresh) (hparse : c.request.parse qt = some request)
    (hfile₁ : ¬ (disk.pathExists (qt.absolutePath sh₁.cwd request.requestPath)
      ∧ disk.isFile (qt.absolutePath sh₁.cwd request.requestPath)))
    (hfile₂ : ¬ (disk.pathExists (qt.absolutePath sh₂.cwd request.requestPath)
      ∧ disk.isFile (qt.absolutePath sh₂.cwd request.requestPath)))
    : (landing qt disk sh₁.cwd request.requestPath = landing qt disk sh₂.cwd request.requestPath →
          responseAfter qt disk sh history₁ indeterminate₁ c
            = responseAfter qt disk sh history₂ indeterminate₂ c)
        ∧ (60 ∉ landing qt disk sh₁.cwd request.requestPath →
          60 ∉ landing qt disk sh₂.cwd request.requestPath →
          responseAfter qt disk sh history₁ indeterminate₁ c
            = responseAfter qt disk sh history₂ indeterminate₂ c →
          landing qt disk sh₁.cwd request.requestPath
            = landing qt disk sh₂.cwd request.requestPath) := by
  have h₁ := builtResponse_of_directory indeterminate₁ hfresh hparse hfile₁
  have h₂ := builtResponse_of_directory indeterminate₂ hfresh hparse hfile₂
  simp only [responseAfter, hhistory₁, hhistory₂, Option.bind_eq_bind, Option.bind_some, h₁, h₂]
  constructor
  . intro hlanding
    rw [hlanding]
  . intro hplain₁ hplain₂ heq
    injection heq with heq
    exact directoryAnswer_inj heq hplain₁ hplain₂

def twoDirs : Disk :=
  .ofTree [] [(ascii "/a", [⟨ascii "/a/x", ascii "x", false⟩]), (ascii "/b", [])]

theorem serveAll_get_a
    : serveAll Qt.unix twoDirs { cwd := ascii "/" } [(get "/a", false)]
        =
      some { cwd := ascii "/a" } := by
  rfl

theorem serveAll_get_b
    : serveAll Qt.unix twoDirs { cwd := ascii "/" } [(get "/b", false)]
        =
      some { cwd := ascii "/b" } := by
  rfl

theorem get_missing_parse
    : (get "/missing").request.parse Qt.unix = some (parsedGet "/missing") := by
  decide

theorem responseAfter_eq_iff_b
    : responseAfter Qt.unix twoDirs { cwd := ascii "/" } [(get "/a", false)] true (get "/b")
        =
      responseAfter Qt.unix twoDirs { cwd := ascii "/" } [] false (get "/b") :=
  (responseAfter_eq_iff Qt.unix twoDirs _ _ { cwd := ascii "/" } _ _ _ _ _ (parsedGet "/b")
    serveAll_get_a rfl (ClientSession.ofRequest_fresh _ _ _) (by decide) (by decide) (by decide)).1 rfl

theorem not_responseAfter_eq
    : ¬ ∀ (qt : Qt) (disk : Disk) (sh sh₁ sh₂ : Shared)
        (history₁ history₂ : List (ClientSession × Bool)) (c : ClientSession)
        (request : HttpHeaderParser),
        serveAll qt disk sh history₁ = some sh₁ → serveAll qt disk sh history₂ = some sh₂ →
        c.Fresh → c.request.parse qt = some request →
        ¬ (disk.pathExists (qt.absolutePath sh₁.cwd request.requestPath)
          ∧ disk.isFile (qt.absolutePath sh₁.cwd request.requestPath)) →
        ¬ (disk.pathExists (qt.absolutePath sh₂.cwd request.requestPath)
          ∧ disk.isFile (qt.absolutePath sh₂.cwd request.requestPath)) →
        responseAfter qt disk sh history₁ false c = responseAfter qt disk sh history₂ false c := by
  intro h
  have hfresh : (get "/missing").Fresh := ClientSession.ofRequest_fresh _ _ _
  have heq := h Qt.unix twoDirs _ _ _ _ _ _ _ serveAll_get_a serveAll_get_b hfresh
    get_missing_parse (by decide) (by decide)
  simp only [responseAfter, serveAll_get_a, serveAll_get_b, Option.bind_eq_bind, Option.bind_some]
    at heq
  rw [builtResponse_of_directory false hfresh get_missing_parse (by decide),
    builtResponse_of_directory false hfresh get_missing_parse (by decide)] at heq
  injection heq with heq
  exact absurd (directoryAnswer_inj heq (by decide) (by decide)) (by decide)

end HttpMessageDispatcher
