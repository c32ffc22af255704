import OpenServer.Dispatcher.Lemmas.Transparency
import OpenServer.Http.ResponseReader

/-!
This module shows that a client gets from the bytes of the responses the documents that it asked for.
What is asked for is read off the file system, by a server without a cache and without bytes.
-/

-- Every file holds something that fits into one chunk, and does not change while it is read.
def Disk.Small (disk : Disk) : Prop :=
  ∀ path, disk.isFile path →
    ∃ b, (disk.file path).Holds b ∧ b.length ≤ HttpMessageDispatcher.fileChunk

namespace HttpMessageDispatcher

variable {qt : Qt} {disk : Disk} {sh sh' : Shared}

def fileDocument (disk : Disk) (path : QString) : Document where
  mimeStr := disk.mimeTypeForFile path
  body := (disk.file path).readAt 0 ((disk.file path).size 0)

def directoryDocument (disk : Disk) (dir : QString) : Document where
  mimeStr := ascii "text/html"
  body := directoryPage (disk.entryInfoList dir) dir

-- The document that a path names to a process that stands in `cwd`, and where it leaves the process.
def documentAt (qt : Qt) (disk : Disk) (cwd path : QString) : Document × QString :=
  let file := qt.absolutePath cwd path
  if disk.pathExists file ∧ disk.isFile file then
    (fileDocument disk file, cwd)
  else
    let dir := landing qt disk cwd path
    (directoryDocument disk dir, dir)

structure Traffic where
  cwd : QString
  stream : Bytes := []
  documents : List Document := []

def traffic (qt : Qt) (disk : Disk) (cwd : QString) : History Shared Request Traffic where
  start := { cwd }
  extend past sh r _ :=
    match r.session.request.parse qt with
    | none => past
    | some request =>
      let (document, cwd) := documentAt qt disk past.cwd request.requestPath
      { cwd
        stream := past.stream ++ (builtResponse qt r.disk r.indeterminate sh r.session).getD []
        documents := past.documents ++ [document] }

structure Request.Asks (qt : Qt) (disk : Disk) (r : Request) : Prop where
  plain : r.Plain
  disk : r.disk = disk
  absolute : ∀ request, r.session.request.parse qt = some request →
    qt.isAbsolutePath request.requestPath

-- The only response that an entry of `cache_` may hold, wherever the process stands by then.
def entryFor (qt : Qt) (disk : Disk) (cwd path : QString) : Option Bytes :=
  let file := qt.absolutePath cwd path
  if qt.isAbsolutePath path ∧ disk.pathExists file ∧ disk.isFile file then
    some (fileDocument disk file).response
  else
    none

structure Understood (qt : Qt) (disk : Disk) (sh : Shared) (past : Traffic) : Prop where
  cwd : past.cwd = sh.cwd
  cached : Memo.Sound (entryFor qt disk sh.cwd) sh.cache
  stream : past.stream = past.documents.flatMap Document.response
  mimeStr : ∀ d ∈ past.documents, 13 ∉ d.mimeStr

theorem entryFor_cwd (qt : Qt) (disk : Disk) (cwd cwd' : QString)
    : entryFor qt disk cwd = entryFor qt disk cwd' := by
  funext path
  unfold entryFor
  by_cases habsolute : qt.isAbsolutePath path
  . rw [qt.absolutePath_eq cwd cwd' path habsolute]
  . simp [habsolute]

theorem fileDocument_of_holds {disk : Disk} (h : (disk.file path).Holds b)
    : fileDocument disk path = { mimeStr := disk.mimeTypeForFile path, body := b } := by
  simp [fileDocument, QFile.readAt, h.isOpen, h.size, h.read]

theorem fileResponse_message (mimeStr : Bytes) (hsmall : b.length ≤ fileChunk)
    : (fileResponse mimeStr b).message = Document.response { mimeStr, body := b } := by
  have hwhole : b.take fileChunk.toNat = b := by
    apply List.take_of_length_le
    omega
  rw [Response.message, fileResponse_contentLength, Document.response]
  simp [fileResponse, hwhole]

theorem documentAt_mimeStr {r : Request} (hg : r.Plain) (cwd path : QString)
    : 13 ∉ (documentAt qt r.disk cwd path).1.mimeStr := by
  unfold documentAt
  dsimp only
  split
  . exact hg.mimeStr _
  . change 13 ∉ ascii "text/html"
    decide

section

variable {r : Request} {request : HttpHeaderParser}
variable (hg : r.Asks qt disk) (hparse : r.session.request.parse qt = some request)

include hg hparse

theorem Understood.builtResponse_eq (h : Understood qt disk sh past) (hsmall : disk.Small)
    : builtResponse qt r.disk r.indeterminate sh r.session
        =
      some (documentAt qt disk past.cwd request.requestPath).1.response := by
  obtain rfl := hg.disk
  rw [h.cwd]
  by_cases hfile : r.disk.pathExists (qt.absolutePath sh.cwd request.requestPath)
      ∧ r.disk.isFile (qt.absolutePath sh.cwd request.requestPath)
  . obtain ⟨b, hholds, hb⟩ := hsmall _ hfile.2
    have hentry : entryFor qt r.disk sh.cwd request.requestPath
        = some (fileDocument r.disk (qt.absolutePath sh.cwd request.requestPath)).response := by
      rw [entryFor, if_pos ⟨hg.absolute request hparse, hfile⟩]
    have hresponse := h.cached _ _ hentry
    rw [builtResponse_of_file sh hg.plain.fresh hparse hfile.1 hfile.2 hholds, documentAt,
      if_pos hfile, fileResponse_message _ hb]
    rw [fileDocument_of_holds hholds] at hresponse ⊢
    rw [hresponse]
  . rw [builtResponse_of_directory r.indeterminate hg.plain.fresh hparse hfile, documentAt,
      if_neg hfile]
    rfl

-- A response that goes into `cache_` is the one that was sent, and the process moves with the pages.
theorem served_cases
    (hrequest : onClientRequest qt r.disk r.indeterminate sh r.session = some (sh', c'))
    (hbuilt : builtResponse qt r.disk r.indeterminate sh r.session = some data)
    : sh'.cwd = (documentAt qt disk sh.cwd request.requestPath).2
        ∧ (sh'.cache = sh.cache
          ∨ sh'.cache = fun key => if key = request.requestPath then some data else sh.cache key) := by
  obtain rfl := hg.disk
  simp only [builtResponse, hrequest, Option.bind_eq_bind, Option.bind_some] at hbuilt
  cases onClientRequest_cases hrequest with
  | pending hflag => simp [hg.plain.fresh.ewouldblockFlag] at hflag
  | cached hflag hparsed hlookup =>
    obtain ⟨request', entry, hrequest', hfile, -, -⟩ := parsed_cached hparsed hlookup
    obtain rfl : request = request' := by simpa [hparse] using hrequest'
    rw [documentAt, if_pos hfile]
    exact ⟨rfl, .inl rfl⟩
  | file hflag hparsed hlookup hread =>
    obtain ⟨request', hrequest', hfile, rfl⟩ := parsed_file hparsed hlookup
    obtain rfl : request = request' := by simpa [hparse] using hrequest'
    obtain ⟨more, rfl⟩ := readFile_eq hread
    simp only [store, compose_request, ↓reduceIte, responseData, Option.bind_some,
      Option.some.injEq] at hbuilt
    rw [documentAt, if_pos hfile, ← hbuilt]
    refine ⟨rfl, .inr ?_⟩
    simp only [store, compose_request, ↓reduceIte]
  | directory hflag hparsed hlookup hcwd hr =>
    obtain ⟨request', hrequest', hfile, rfl⟩ := parsed_directory hparsed hlookup
    obtain rfl : request = request' := by simpa [hparse] using hrequest'
    rw [changeDir_getD] at hcwd
    rw [documentAt, if_neg hfile]
    cases hindeterminate : r.indeterminate with
    | false => exact ⟨hcwd, .inl rfl⟩
    | true =>
      simp only [hindeterminate, store, compose_request, ↓reduceIte, responseData, Option.bind_some,
        Option.some.injEq] at hbuilt
      rw [← hbuilt]
      refine ⟨hcwd, .inr ?_⟩
      simp only [store, compose_request, ↓reduceIte]

end

-- The page of a directory goes under a path that no file has, so that no file is answered with it.
theorem Understood.cached_step (h : Understood qt disk sh past)
    (hcache : sh'.cache = sh.cache ∨ sh'.cache = fun key =>
      if key = path then some (documentAt qt disk sh.cwd path).1.response else sh.cache key)
    : Memo.Sound (entryFor qt disk sh'.cwd) sh'.cache := by
  rw [entryFor_cwd qt disk sh'.cwd sh.cwd]
  rcases hcache with hcache | hcache
  . rw [hcache]
    exact h.cached
  . rw [hcache]
    apply h.cached.store
    intro b hb
    unfold entryFor at hb
    dsimp only at hb
    split at hb
    . next hfile =>
      rw [documentAt, if_pos hfile.2]
      injection hb
    . cases hb

theorem Understood.step {r : Request} (h : Understood qt disk sh past) (hsmall : disk.Small)
    (hg : r.Asks qt disk) (ht : (answering qt start).step sh r = some sh')
    : Understood qt disk sh' ((traffic qt disk start).extend past sh r sh') := by
  obtain ⟨⟨_, c⟩, hrequest, rfl⟩ := Option.map_eq_some_iff.mp ht
  obtain ⟨request, hparse⟩ : ∃ request, r.session.request.parse qt = some request := by
    rw [onClientRequest, if_neg (by simp [hg.plain.fresh.ewouldblockFlag])] at hrequest
    obtain ⟨c₁, hparsed, -⟩ := Option.bind_eq_some_iff.mp hrequest
    obtain ⟨request, hparse, -⟩ := parseRequest_eq hparsed
    exact ⟨request, hparse⟩
  have hbuilt := h.builtResponse_eq hg hparse hsmall
  obtain ⟨hcwd, hcache⟩ := served_cases hg hparse hrequest hbuilt
  have hmime : 13 ∉ (documentAt qt r.disk past.cwd request.requestPath).1.mimeStr :=
    documentAt_mimeStr hg.plain past.cwd request.requestPath
  rw [hg.disk] at hmime
  simp only [traffic, hparse, hbuilt, Option.getD_some]
  constructor
  . rw [hcwd, h.cwd]
  . rw [h.cwd] at hcache
    exact h.cached_step hcache
  . simp [h.stream]
  . intro d hd
    rcases List.mem_append.mp hd with hd | hd
    . apply h.mimeStr d hd
    . rwa [List.mem_singleton.mp hd]

-- However much of the stream has arrived, the client has read the first documents and nothing else.
theorem documents_read_back (qt : Qt) (disk : Disk) (cwd : QString) (hsmall : disk.Small)
    : ∀ sh past, ((answering qt cwd).withHistory (traffic qt disk cwd)).ReachBy
          (fun _ r => r.Asks qt disk) (sh, past) →
        Client.responseReader.readAll past.stream = (past.documents, [])
          ∧ ∀ arrived, arrived <+: past.stream →
            (Client.responseReader.readAll arrived).1 <+: past.documents := by
  intro sh past hs
  have hunderstood : Understood qt disk sh past := by
    apply Machine.ReachBy.history_invariant _ _ hs
    . rintro sh rfl
      exact ⟨rfl, .empty _, rfl, by simp [traffic]⟩
    . intro sh past r sh' hi hg ht
      apply hi.step hsmall hg ht
  have hall : Client.responseReader.readAll past.stream = (past.documents, []) := by
    have hread := Client.responseReader.readAll_flatMap
      (fun d hd => Client.readResponse_response d (hunderstood.mimeStr d hd)) []
    rw [Text.Reader.readAll_nil, List.append_nil, List.append_nil, ← hunderstood.stream] at hread
    exact hread
  refine ⟨hall, ?_⟩
  intro arrived harrived
  have hprefix := Client.responseReader.readAll_prefix harrived
  rwa [hall] at hprefix

def site : Disk :=
  .ofTree [(ascii "/a", ascii "hi")] [(ascii "/d", [⟨ascii "/a", ascii "a", false⟩])]

theorem site_small : site.Small := by
  intro path hfile
  refine ⟨_, QFile.ofContent_holds _, ?_⟩
  obtain rfl : path = ascii "/a" := by simpa [site, Disk.ofTree] using hfile
  decide

def askSite (path : String) (indeterminate : Bool) : Request where
  disk := site
  indeterminate := indeterminate
  session := get path

theorem askSite_asks (indeterminate : Bool)
    (hparse : (get path).request.parse Qt.unix = some (parsedGet path))
    (habsolute : Qt.unix.isAbsolutePath (ascii path))
    : (askSite path indeterminate).Asks Qt.unix site := by
  constructor
  . constructor
    . exact ClientSession.ofRequest_fresh _ _ _
    . intro _
      change 13 ∉ ascii "text/plain"
      decide
  . rfl
  . intro request hrequest
    change (get path).request.parse Qt.unix = some request at hrequest
    rw [hparse] at hrequest
    rw [← Option.some.inj hrequest]
    exact habsolute

-- The file is answered from `cache_` in the end, where the page of the directory lies as well by then.
def browseSite : List Request :=
  [askSite "/a" false, askSite "/d" true, askSite "/missing" false, askSite "/a" true]

theorem documents_read_back_browseSite
    : ∃ sh past, ((answering Qt.unix (ascii "/")).withHistory
            (traffic Qt.unix site (ascii "/"))).run
          ({ cwd := ascii "/" }, { cwd := ascii "/" }) browseSite = some (sh, past)
        ∧ sh.cache (ascii "/a") ≠ none ∧ sh.cache (ascii "/d") ≠ none
        ∧ past.documents = [⟨ascii "text/plain", ascii "hi"⟩, directoryDocument site (ascii "/d"),
          directoryDocument site (ascii "/d"), ⟨ascii "text/plain", ascii "hi"⟩]
        ∧ Client.responseReader.readAll past.stream = (past.documents, []) := by
  have hrun : Option.any (fun p => p.1.cache (ascii "/a") ≠ none ∧ p.1.cache (ascii "/d") ≠ none
      ∧ p.2.documents = [⟨ascii "text/plain", ascii "hi"⟩, directoryDocument site (ascii "/d"),
        directoryDocument site (ascii "/d"), ⟨ascii "text/plain", ascii "hi"⟩])
      (((answering Qt.unix (ascii "/")).withHistory (traffic Qt.unix site (ascii "/"))).run
        ({ cwd := ascii "/" }, { cwd := ascii "/" }) browseSite) := by
    decide +kernel
  obtain ⟨⟨sh, past⟩, hrun, hstate⟩ := (Option.any_eq_true _ _).mp hrun
  obtain ⟨hfile, hdir, hdocuments⟩ := of_decide_eq_true hstate
  refine ⟨sh, past, hrun, hfile, hdir, hdocuments, ?_⟩
  refine (documents_read_back Qt.unix site (ascii "/") site_small sh past ?_).1
  apply Machine.ReachBy.run _ browseSite _ hrun
  . exact .init ⟨rfl, rfl⟩
  . intro r hr _
    simp only [browseSite, List.mem_cons, List.not_mem_nil, or_false] at hr
    rcases hr with rfl | rfl | rfl | rfl
    all_goals exact askSite_asks _ (by decide) (by decide)

end HttpMessageDispatcher
