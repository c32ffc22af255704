import OpenServer.Dispatcher.Lemmas.History
import OpenServer.Transition.History
import OpenServer.Transition.Memo

/-!
This module shows when a response from `cache_` is the one that the request would get without it.
Nothing ever leaves `cache_`, and its keys are paths as the clients wrote them.
-/

namespace HttpMessageDispatcher

variable {qt : Qt} {sh sh' : Shared}

structure Request where
  disk : Disk
  indeterminate : Bool
  session : ClientSession

-- Requests are served one at a time. Each finds the file system as it is by then.
def answering (qt : Qt) (cwd : QString) : Machine Shared Request where
  init sh := sh = { cwd }
  step sh r := (onClientRequest qt r.disk r.indeterminate sh r.session).map (·.1)

-- The response that a request puts into `cache_`, and the path it stands under there.
def storedBy (qt : Qt) (sh : Shared) (r : Request) : Option (QString × Response) := do
  let c ← parseRequest qt r.session
  match lookup qt r.disk sh c with
  | (.cached, _) => none
  | (.file, c) => do
    let (c, response) ← readFile qt r.disk sh.cwd c
    some (c.request.requestPath, response)
  | (.directory, c) =>
    let cwd := (changeDir qt r.disk sh.cwd c).getD sh.cwd
    if r.indeterminate then
      some (c.request.requestPath, directoryResponse (r.disk.entryInfoList cwd) cwd)
    else
      none

def origins (qt : Qt) : History Shared Request (QString → Option Response) where
  start _ := none
  extend past sh r _ :=
    match storedBy qt sh r with
    | some (path, response) => fun key => if key = path then some response else past key
    | none => past

def Response.contentLength (r : Response) : Int :=
  r.responseBody.length + r.pendingBytes

def Response.message (r : Response) : Bytes :=
  responseHeader r.mimeStr r.contentLength ++ r.responseBody

structure Request.Plain (r : Request) : Prop where
  fresh : r.session.Fresh
  mimeStr : ∀ path, 13 ∉ r.disk.mimeTypeForFile path

def Transparent (qt : Qt) (sh : Shared) (r : Request) : Prop :=
  builtResponse qt r.disk r.indeterminate sh r.session
    =
  builtResponse qt r.disk r.indeterminate { sh with cache := fun _ => none } r.session

-- What the entry was composed from is what the file with contents `b` would give now.
def Unchanged (origin : Option Response) (mimeStr b : Bytes) : Prop :=
  ∀ r, origin = some r →
    r.mimeStr = mimeStr ∧ r.contentLength.toNat = b.length
      ∧ r.responseBody = b.take fileChunk.toNat

theorem Response.message_inj {r r' : Response} (h : 13 ∉ r.mimeStr) (h' : 13 ∉ r'.mimeStr)
    : r.message = r'.message
        ↔ r.mimeStr = r'.mimeStr ∧ r.contentLength.toNat = r'.contentLength.toNat
          ∧ r.responseBody = r'.responseBody := by
  simp only [message, responseHeader, List.append_assoc, List.append_cancel_left_eq]
  rw [Text.append_separator_inj (by rfl) h h', List.append_cancel_left_eq,
    List.append_cancel_left_eq,
    Text.append_separator_inj (by rfl) carriageReturn_notMem_toDecimal
      carriageReturn_notMem_toDecimal,
    List.append_cancel_left_eq, toDecimal_inj]

theorem compose_sendMessage (c : ClientSession) (r : Response) (h : r.includeHeader)
    : (compose c r).sendMessage = r.message := by
  simp [compose, h, Response.message, Response.contentLength]

theorem compose_request (c : ClientSession) (r : Response) : (compose c r).request = c.request := by
  obtain ⟨message, size, hc⟩ := compose_eq c r
  rw [hc]

theorem readFile_response {disk : Disk} {c c' : ClientSession} {r : Response}
    (h : readFile qt disk cwd c = some (c', r))
    : r.mimeStr = disk.mimeTypeForFile (qt.absolutePath cwd c.request.requestPath)
        ∧ r.includeHeader = !c.sendMessageHasMoreBytes := by
  unfold readFile at h
  dsimp only at h
  split at h
  . simp only [Option.bind_eq_bind, Option.bind_eq_some_iff, Option.some.injEq, Prod.mk.injEq] at h
    obtain ⟨_, -, -, rfl⟩ := h
    constructor <;> rfl
  . split at h
    . simp only [Option.bind_eq_bind, Option.bind_eq_some_iff, Option.some.injEq,
        Prod.mk.injEq] at h
      obtain ⟨_, -, -, rfl⟩ := h
      constructor <;> rfl
    . simp only [Option.some.injEq, Prod.mk.injEq] at h
      obtain ⟨-, rfl⟩ := h
      constructor <;> rfl

structure Recorded (sh : Shared) (origin : QString → Option Response) : Prop where
  filled : Memo.Filled Response.message sh.cache origin
  mimeStr : ∀ path r, origin path = some r → 13 ∉ r.mimeStr

theorem Recorded.store {origin : QString → Option Response} (h : Recorded sh origin)
    {c : ClientSession} {r : Response} (hmessage : c.sendMessage = r.message)
    (hmime : 13 ∉ r.mimeStr) (cwd : QString)
    : Recorded (HttpMessageDispatcher.store true { sh with cwd } c).1
        (fun key => if key = c.request.requestPath then some r else origin key) := by
  constructor
  . simp only [HttpMessageDispatcher.store, ↓reduceIte, hmessage]
    exact h.filled.store _ r
  . intro path r' hr'
    split at hr'
    . injection hr' with hr'
      rwa [← hr']
    . exact h.mimeStr path r' hr'

theorem Recorded.step {origin : QString → Option Response} {r : Request} (h : Recorded sh origin)
    (hg : r.Plain) (ht : (answering qt cwd).step sh r = some sh')
    : Recorded sh' ((origins qt).extend origin sh r sh') := by
  obtain ⟨⟨_, c⟩, hrequest, rfl⟩ := Option.map_eq_some_iff.mp ht
  simp only [origins]
  cases onClientRequest_cases hrequest with
  | pending hflag => simp [hg.fresh.ewouldblockFlag] at hflag
  | cached hflag hparse hlookup =>
    have : storedBy qt sh r = none := by simp [storedBy, hparse, hlookup]
    rw [this]
    exact h
  | @file c₁ c₂ c₃ response hflag hparse hlookup hread =>
    have : storedBy qt sh r = some (c₃.request.requestPath, response) := by
      simp [storedBy, hparse, hlookup, hread]
    rw [this]
    obtain ⟨hmime, hheader⟩ := readFile_response hread
    obtain ⟨request, -, -, rfl⟩ := parsed_file hparse hlookup
    have hmessage := compose_sendMessage c₃ response
      (by rw [hheader, hg.fresh.sendMessageHasMoreBytes]; rfl)
    have := h.store hmessage (by rw [hmime]; exact hg.mimeStr _) sh.cwd
    rwa [compose_request] at this
  | @directory c₁ c₂ cwd' response hflag hparse hlookup hcwd hr =>
    cases hindeterminate : r.indeterminate with
    | false =>
      have : storedBy qt sh r = none := by simp [storedBy, hparse, hlookup, hindeterminate]
      rw [this]
      exact ⟨h.filled, h.mimeStr⟩
    | true =>
      have : storedBy qt sh r = some (c₂.request.requestPath, response) := by
        simp [storedBy, hparse, hlookup, hindeterminate, hr, hcwd]
      rw [this]
      have hmessage := compose_sendMessage c₂ response (by rw [hr]; rfl)
      have hmime : 13 ∉ response.mimeStr := by
        rw [hr]
        change 13 ∉ ascii "text/html"
        decide
      have := h.store hmessage hmime cwd'
      rwa [compose_request] at this

theorem recorded_of_reachBy {origin : QString → Option Response}
    (h : ((answering qt cwd).withHistory (origins qt)).ReachBy (fun _ r => r.Plain) (sh, origin))
    : Recorded sh origin := by
  apply Machine.ReachBy.history_invariant _ _ h
  . rintro sh rfl
    exact ⟨.empty _, by simp [origins]⟩
  . intro sh origin r sh' hrecorded hg ht
    exact hrecorded.step hg ht

-- What the uncached branch answers for a file with contents `b`.
def fileResponse (mimeStr b : Bytes) : Response where
  mimeStr := mimeStr
  responseBody := b.take fileChunk.toNat
  pendingBytes := b.length - (b.take fileChunk.toNat).length

theorem fileResponse_contentLength (mimeStr b : Bytes)
    : (fileResponse mimeStr b).contentLength = b.length := by
  simp only [Response.contentLength, fileResponse]
  omega

section

variable (sh : Shared) {r : Request} {request : HttpHeaderParser} {b : Bytes}
variable (hfresh : r.session.Fresh) (hparse : r.session.request.parse qt = some request)
variable (hexists : r.disk.pathExists (qt.absolutePath sh.cwd request.requestPath))
variable (hfile : r.disk.isFile (qt.absolutePath sh.cwd request.requestPath))
variable (hholds : (r.disk.file (qt.absolutePath sh.cwd request.requestPath)).Holds b)

include hfresh hparse hexists hfile hholds

theorem builtResponse_of_file
    : builtResponse qt r.disk r.indeterminate sh r.session
        =
      some ((sh.cache request.requestPath).getD (fileResponse
        (r.disk.mimeTypeForFile (qt.absolutePath sh.cwd request.requestPath)) b).message) := by
  cases hcache : sh.cache request.requestPath with
  | none =>
    let inp : Input := { disk := r.disk, indeterminate := r.indeterminate, results := fun _ => .closed }
    obtain ⟨sh', c', hrequest, -, hdata⟩ :=
      @onClientRequest_of_holds qt inp sh _ _ _ hfresh hparse hexists hfile hholds hcache
    simp only [builtResponse, inp] at hrequest ⊢
    rw [hrequest]
    simp only [Option.bind_eq_bind, Option.bind_some, hdata, Option.getD_none]
    rw [Response.message, fileResponse_contentLength]
    rfl
  | some v =>
    have hlookup : lookup qt r.disk sh { r.session with request }
        = (.cached, { r.session with
            request, cacheIterator := some request.requestPath, isCached := true }) := by
      simp [lookup, hexists, hfile, hcache]
    rw [builtResponse, onClientRequest_of_cached hfresh.ewouldblockFlag
      (parseRequest_of_parse hparse) hlookup]
    simp [responseData, hcache]

end

theorem transparent_iff (qt : Qt) (cwd : QString) (sh : Shared) (origin : QString → Option Response)
    (h : ((answering qt cwd).withHistory (origins qt)).ReachBy (fun _ r => r.Plain) (sh, origin))
    (r : Request) (request : HttpHeaderParser) (b : Bytes) (hplain : r.Plain)
    (hparse : r.session.request.parse qt = some request)
    (hexists : r.disk.pathExists (qt.absolutePath sh.cwd request.requestPath))
    (hfile : r.disk.isFile (qt.absolutePath sh.cwd request.requestPath))
    (hholds : (r.disk.file (qt.absolutePath sh.cwd request.requestPath)).Holds b)
    : Transparent qt sh r
        ↔
      Unchanged (origin request.requestPath)
        (r.disk.mimeTypeForFile (qt.absolutePath sh.cwd request.requestPath)) b := by
  have hrecorded := recorded_of_reachBy h
  have hbuilt := builtResponse_of_file sh hplain.fresh hparse hexists hfile hholds
  have huncached := builtResponse_of_file { sh with cache := fun _ => none } hplain.fresh
    hparse hexists hfile hholds
  rw [Transparent, hbuilt, huncached, Option.some.injEq, Option.getD_none,
    hrecorded.filled.getD_eq_iff, Unchanged]
  apply forall_congr'
  intro o
  apply forall_congr'
  intro ho
  rw [Response.message_inj (hrecorded.mimeStr _ o ho) (hplain.mimeStr _),
    fileResponse_contentLength, Int.toNat_natCast]
  rfl

def requestOfA (b : Bytes) : Request where
  disk := diskOfA b
  indeterminate := false
  session := get "/a"

theorem requestOfA_plain (b : Bytes) : (requestOfA b).Plain := by
  constructor
  . exact ClientSession.ofRequest_fresh _ _ _
  . intro _
    change 13 ∉ ascii "text/plain"
    decide

theorem transparent_iff_twice
    : ∃ sh origin, ((answering Qt.unix (ascii "/")).withHistory (origins Qt.unix)).run
          ({ cwd := ascii "/" }, fun _ => none) [requestOfA (ascii "hi")] = some (sh, origin)
        ∧ sh.cache (ascii "/a") ≠ none
        ∧ Transparent Qt.unix sh (requestOfA (ascii "hi"))
        ∧ ¬ Transparent Qt.unix sh (requestOfA (ascii "ho")) := by
  have hrun : (((answering Qt.unix (ascii "/")).withHistory (origins Qt.unix)).run
      ({ cwd := ascii "/" }, fun _ => none) [requestOfA (ascii "hi")]).any (fun p =>
        (p.1.cache (ascii "/a")).isSome
          && (p.2 (ascii "/a")).map (fun r => (r.mimeStr, r.contentLength, r.responseBody))
            == some (ascii "text/plain", 2, ascii "hi")) := by
    decide +kernel
  obtain ⟨⟨sh, origin⟩, hrun, hstate⟩ := (Option.any_eq_true _ _).mp hrun
  simp only [Bool.and_eq_true, Option.isSome_iff_ne_none, beq_iff_eq] at hstate
  obtain ⟨hentry, horigin⟩ := hstate
  have hreach : ((answering Qt.unix (ascii "/")).withHistory (origins Qt.unix)).ReachBy
      (fun _ r => r.Plain) (sh, origin) := by
    apply Machine.ReachBy.run _ [requestOfA (ascii "hi")] _ hrun
    . exact .init ⟨rfl, rfl⟩
    . rintro r hr _
      obtain rfl : r = requestOfA (ascii "hi") := by simpa using hr
      exact requestOfA_plain _
  have hiff : ∀ b, Transparent Qt.unix sh (requestOfA b)
      ↔ Unchanged (origin (ascii "/a")) (ascii "text/plain") b := by
    intro b
    exact transparent_iff Qt.unix (ascii "/") sh origin hreach (requestOfA b) (parsedGet "/a") b
      (requestOfA_plain b) requestForA_parse rfl rfl (diskOfA_holds b)
  obtain ⟨r, hr, hcomposed⟩ := Option.map_eq_some_iff.mp horigin
  simp only [Prod.mk.injEq] at hcomposed
  obtain ⟨hmime, hlength, hbody⟩ := hcomposed
  refine ⟨sh, origin, hrun, hentry, (hiff _).mpr ?_, fun htransparent => ?_⟩
  . intro r' hr'
    obtain rfl : r = r' := by simpa [hr] using hr'
    exact ⟨hmime, by rw [hlength]; rfl, hbody⟩
  . obtain ⟨-, -, hedited⟩ := (hiff _).mp htransparent r hr
    rw [hbody] at hedited
    revert hedited
    decide

-- The file is edited between its two requests.
theorem not_transparent
    : ¬ ∀ (qt : Qt) (cwd : QString) (sh : Shared) (r : Request) (request : HttpHeaderParser)
        (b : Bytes), (answering qt cwd).ReachBy (fun _ r => r.Plain) sh → r.Plain →
        r.session.request.parse qt = some request →
        r.disk.pathExists (qt.absolutePath sh.cwd request.requestPath) →
        r.disk.isFile (qt.absolutePath sh.cwd request.requestPath) →
        (r.disk.file (qt.absolutePath sh.cwd request.requestPath)).Holds b →
        Transparent qt sh r := by
  intro h
  obtain ⟨sh, hrun, hdifferent⟩ : ∃ sh, (answering Qt.unix (ascii "/")).run { cwd := ascii "/" }
      [requestOfA (ascii "hi")] = some sh
      ∧ ¬ Transparent Qt.unix sh (requestOfA (ascii "ho")) := by
    refine ⟨_, rfl, ?_⟩
    unfold Transparent
    decide +kernel
  apply hdifferent
  apply h Qt.unix (ascii "/") sh _ (parsedGet "/a") (ascii "ho") _ (requestOfA_plain _)
    requestForA_parse rfl rfl (diskOfA_holds _)
  apply Machine.ReachBy.run (.init rfl) [requestOfA (ascii "hi")] _ hrun
  rintro r hr _
  obtain rfl : r = requestOfA (ascii "hi") := by simpa using hr
  exact requestOfA_plain _

end HttpMessageDispatcher
