import OpenServer.Dispatcher.Lemmas.Iteration

/-!
This module shows which responses reach the socket whole: a file that is sent for the first time, and
a response that is sent from `cache_`.
-/

namespace HttpMessageDispatcher

variable {qt : Qt} {inp : Input}

theorem fill_eq (h : bytes.length = n) : fill n bytes = some bytes := by
  simp [fill, ← h]

theorem readFile_of_holds {disk : Disk} {cwd : QString} {c : ClientSession} {b : Bytes}
    (hfresh : c.Fresh)
    (hholds : (disk.file (qt.absolutePath cwd c.request.requestPath)).Holds b)
    : ∃ c' r, readFile qt disk cwd c = some (c', r)
        ∧ r.mimeStr = disk.mimeTypeForFile (qt.absolutePath cwd c.request.requestPath)
        ∧ r.responseBody = b.take fileChunk.toNat
        ∧ r.responseBody.length + r.pendingBytes = b.length
        ∧ r.includeHeader = true := by
  have hread : ∀ n, (disk.file (qt.absolutePath cwd c.request.requestPath)).readAt 0 n
      = b.take n.toNat := by
    intro n
    simp [QFile.readAt, hholds.isOpen, hholds.read]
  unfold readFile
  simp only [hholds.size, hfresh.sendMessageIndex, hfresh.sendMessageHeaderSize,
    hfresh.sendMessageHasMoreBytes, Int.sub_zero, Int.add_zero, hread]
  by_cases hlong : (b.length : Int) > fileChunk
  . have hfill : fill fileChunk (b.take fileChunk.toNat) = some (b.take fileChunk.toNat) := by
      apply fill_eq
      simp [fileChunk] at hlong ⊢
      omega
    simp only [hlong, ↓reduceIte, hfill]
    refine ⟨_, _, rfl, rfl, rfl, ?_, rfl⟩
    simp [fileChunk] at hlong ⊢
    omega
  . have htake : b.take fileChunk.toNat = b := by
      apply List.take_of_length_le
      omega
    have hfill : fill b.length (b.take (b.length : Int).toNat) = some b := by
      rw [Int.toNat_natCast, List.take_length]
      exact fill_eq rfl
    simp only [hlong, ↓reduceIte, hfill, show (b.length : Int) ≤ fileChunk by omega]
    refine ⟨_, _, rfl, rfl, htake.symm, by simp, rfl⟩

theorem Lookup.of_file {disk : Disk} {sh : Shared} {c : ClientSession}
    (hexists : disk.pathExists (qt.absolutePath sh.cwd c.request.requestPath))
    (hfile : disk.isFile (qt.absolutePath sh.cwd c.request.requestPath))
    (hcache : sh.cache c.request.requestPath = none)
    : lookup qt disk sh c = (.file, { c with cacheIterator := none }) := by
  simp [lookup, hexists, hfile, hcache]

theorem store_true_responseData (sh : Shared) (c : ClientSession)
    : responseData (store true sh c).1 (store true sh c).2 = some c.sendMessage := by
  simp [store, responseData]

section File

variable {sh : Shared} {c : ClientSession} {request : HttpHeaderParser} {b : Bytes}
variable (hfresh : c.Fresh) (hparse : c.request.parse qt = some request)
variable (hexists : inp.disk.pathExists (qt.absolutePath sh.cwd request.requestPath))
variable (hfile : inp.disk.isFile (qt.absolutePath sh.cwd request.requestPath))
variable (hholds : (inp.disk.file (qt.absolutePath sh.cwd request.requestPath)).Holds b)
variable (hcache : sh.cache request.requestPath = none)

include hfresh hparse hexists hfile hholds hcache

theorem onClientRequest_of_holds
    : ∃ sh' c', onClientRequest qt inp.disk inp.indeterminate sh c = some (sh', c')
        ∧ c'.isCached
        ∧ responseData sh' c'
          = some (responseHeader
              (inp.disk.mimeTypeForFile (qt.absolutePath sh.cwd request.requestPath)) b.length
            ++ b.take fileChunk.toNat) := by
  have hlookup := Lookup.of_file (c := { c with request }) hexists hfile hcache
  have hfresh' : ClientSession.Fresh { c with request, cacheIterator := none } :=
    ⟨hfresh.1, hfresh.2, hfresh.3, hfresh.4, hfresh.5⟩
  obtain ⟨c', r, hread, hmime, hbody, hlength, hheader⟩ := readFile_of_holds hfresh' hholds
  refine ⟨(store true sh (compose c' r)).1, (store true sh (compose c' r)).2,
    onClientRequest_of_file hfresh.ewouldblockFlag (parseRequest_of_parse hparse) hlookup hread,
    ?_, ?_⟩
  . simp [store_isCached]
  . rw [store_true_responseData]
    simp only [compose, hheader, hmime, hlength, ↓reduceIte]
    rw [hbody]

theorem iterate_of_holds {queue rest : List (Queued τ)} (hrotate : rotate queue = front :: rest)
    (hsession : front.session = c) (hsend : ∀ k, (inp.results k).IsAccepted)
    : ∃ r, iterate qt inp sh queue = some r ∧ r.worked = front.tag ∧ r.popped
        ∧ r.loop.sent
          = responseHeader (inp.disk.mimeTypeForFile (qt.absolutePath sh.cwd request.requestPath))
              b.length
            ++ b.take fileChunk.toNat := by
  obtain ⟨sh', c', hrequest, hcached, hdata⟩ :=
    onClientRequest_of_holds hfresh hparse hexists hfile hholds hcache
  rw [← hsession] at hrequest
  refine ⟨_, iterate_of_cached hrotate hrequest hcached hdata, rfl, rfl, ?_⟩
  rw [sendLoop.sent_eq_data_iff]
  exact Fits.of_all_accepted hsend _

end File

-- Only the first chunk of a longer file is ever sent: storing it in `cache_` makes the session
-- cached, and a cached session is popped after its first iteration.
theorem iterate_delivers_file_iff (qt : Qt) (inp : Input) (sh : Shared)
    (queue rest : List (Queued τ)) (front : Queued τ) (request : HttpHeaderParser) (b : Bytes)
    (hrotate : rotate queue = front :: rest) (hfresh : front.session.Fresh)
    (hparse : front.session.request.parse qt = some request)
    (hexists : inp.disk.pathExists (qt.absolutePath sh.cwd request.requestPath))
    (hfile : inp.disk.isFile (qt.absolutePath sh.cwd request.requestPath))
    (hholds : (inp.disk.file (qt.absolutePath sh.cwd request.requestPath)).Holds b)
    (hcache : sh.cache request.requestPath = none)
    (hsend : ∀ k, (inp.results k).IsAccepted)
    : ∃ r, iterate qt inp sh queue = some r ∧ r.worked = front.tag ∧ r.popped
        ∧ (r.loop.sent
              = responseHeader
                  (inp.disk.mimeTypeForFile (qt.absolutePath sh.cwd request.requestPath)) b.length
                ++ b
            ↔
          b.length ≤ fileChunk) := by
  obtain ⟨r, hr, hworked, hpopped, hsent⟩ :=
    iterate_of_holds hfresh hparse hexists hfile hholds hcache hrotate rfl hsend
  refine ⟨r, hr, hworked, hpopped, ?_⟩
  rw [hsent, List.append_cancel_left_eq, List.take_eq_self_iff, fileChunk]
  omega

def get (target : String) : ClientSession :=
  .ofRequest 5 1 (ascii "GET " ++ ascii target ++ ascii " HTTP/1.1\r\n\r\n")

def parsedGet (target : String) : HttpHeaderParser :=
  { (get target).request with requestPath := ascii target, isDirty := false }

def requestForA : ClientSession := get "/a"

def parsedForA : HttpHeaderParser := parsedGet "/a"

theorem requestForA_parse : requestForA.request.parse Qt.unix = some parsedForA := by
  decide

def diskOfA (b : Bytes) : Disk :=
  .ofTree [(ascii "/a", b)] []

theorem diskOfA_holds (b : Bytes) : ((diskOfA b).file (ascii "/a")).Holds b := by
  simpa [diskOfA, Disk.ofTree] using QFile.ofContent_holds b

def inputOfA (b : Bytes) (result : SendResult) : Input where
  disk := diskOfA b
  indeterminate := false
  results _ := result

def blockedForB : ClientSession :=
  { get "/b" with ewouldblockFlag := true, sendMessage := ascii "</html>" }

theorem iterate_delivers_file_iff_hi
    : ∃ r, iterate Qt.unix (inputOfA (ascii "hi") (.accepted 1)) { cwd := ascii "/" }
          [⟨1, blockedForB⟩, ⟨0, requestForA⟩] = some r ∧ r.worked = 0 ∧ r.popped
        ∧ (r.loop.sent = responseHeader (ascii "text/plain") (ascii "hi").length ++ ascii "hi"
            ↔
          (ascii "hi").length ≤ fileChunk) :=
  iterate_delivers_file_iff _ _ _ [⟨1, blockedForB⟩, ⟨0, requestForA⟩] [⟨1, blockedForB⟩]
    ⟨0, requestForA⟩ _ _ rfl (ClientSession.ofRequest_fresh _ _ _) requestForA_parse rfl rfl
    (diskOfA_holds _) rfl (fun _ => ⟨1, rfl⟩)

theorem not_iterate_delivers_file
    : ¬ ∀ (qt : Qt) (inp : Input) (sh : Shared) (queue rest : List (Queued Nat))
        (front : Queued Nat) (request : HttpHeaderParser) (b : Bytes),
        rotate queue = front :: rest → front.session.Fresh →
        front.session.request.parse qt = some request →
        inp.disk.pathExists (qt.absolutePath sh.cwd request.requestPath) →
        inp.disk.isFile (qt.absolutePath sh.cwd request.requestPath) →
        (inp.disk.file (qt.absolutePath sh.cwd request.requestPath)).Holds b →
        sh.cache request.requestPath = none → (∀ k, (inp.results k).IsAccepted) →
        ∃ r, iterate qt inp sh queue = some r ∧ r.worked = front.tag ∧ r.popped
          ∧ r.loop.sent
            = responseHeader
                (inp.disk.mimeTypeForFile (qt.absolutePath sh.cwd request.requestPath)) b.length
              ++ b := by
  intro h
  have hlength : (List.replicate 1048577 (0 : UInt8)).length = 1048577 := List.length_replicate
  generalize List.replicate 1048577 (0 : UInt8) = b at hlength
  let front : Queued Nat := ⟨0, requestForA⟩
  let inp := inputOfA b (.accepted 1)
  have hfresh : front.session.Fresh := ClientSession.ofRequest_fresh _ _ _
  have hsend : ∀ k, (inp.results k).IsAccepted := fun _ => ⟨1, rfl⟩
  have hrotate : rotate [front] = [front] := rfl
  obtain ⟨r, hr, -, -, hsent⟩ := h Qt.unix inp { cwd := ascii "/" } [front] [] front parsedForA
    b hrotate hfresh requestForA_parse rfl rfl (diskOfA_holds b) rfl hsend
  obtain ⟨r', hr', -, -, hsent'⟩ : ∃ r, iterate Qt.unix inp { cwd := ascii "/" } [front] = some r
      ∧ r.worked = front.tag ∧ r.popped ∧ r.loop.sent = _ :=
    iterate_of_holds hfresh requestForA_parse rfl rfl (diskOfA_holds b) rfl hrotate rfl hsend
  rw [hr] at hr'
  injection hr' with hr'
  rw [← hr', hsent, List.append_cancel_left_eq] at hsent'
  have := congrArg List.length hsent'
  simp only [List.length_take, fileChunk] at this
  omega

theorem iterate_delivers_cached_iff (qt : Qt) (inp : Input) (sh sh' : Shared)
    (queue rest : List (Queued τ)) (front : Queued τ) (c : ClientSession) (v : Bytes)
    (hrotate : rotate queue = front :: rest)
    (hrequest : onClientRequest qt inp.disk inp.indeterminate sh front.session = some (sh', c))
    (hcached : c.isCached) (hentry : responseData sh' c = some v)
    : ∃ r, iterate qt inp sh queue = some r ∧ r.worked = front.tag ∧ r.popped
        ∧ (r.loop.sent = v ↔ Fits inp.results v.length) := by
  refine ⟨_, iterate_of_cached hrotate hrequest hcached hentry, rfl, rfl, ?_⟩
  exact sendLoop.sent_eq_data_iff v inp.results

def sharedWithA (v : Bytes) : Shared where
  cache path := if path = ascii "/a" then some v else none
  cwd := ascii "/"

def cachedForA : ClientSession :=
  { requestForA with request := parsedForA, cacheIterator := some (ascii "/a"), isCached := true }

theorem onClientRequest_cachedForA (v : Bytes) (result : SendResult)
    : onClientRequest Qt.unix (inputOfA v result).disk (inputOfA v result).indeterminate
          (sharedWithA v) requestForA
        =
      some (sharedWithA v, cachedForA) := by
  apply onClientRequest_of_cached rfl (parseRequest_of_parse requestForA_parse)
  simp [lookup, parsedForA, parsedGet, cachedForA, inputOfA, diskOfA, Disk.ofTree, sharedWithA, Qt.unix,
    ascii]

theorem responseData_cachedForA (v : Bytes) : responseData (sharedWithA v) cachedForA = some v := by
  rfl

theorem iterate_delivers_cached_iff_hi
    : ∃ r, iterate Qt.unix (inputOfA (ascii "hi") (.accepted 1)) (sharedWithA (ascii "hi"))
          [⟨0, requestForA⟩] = some r ∧ r.worked = 0 ∧ r.popped
        ∧ (r.loop.sent = ascii "hi"
            ↔
          Fits (inputOfA (ascii "hi") (.accepted 1)).results (ascii "hi").length) :=
  iterate_delivers_cached_iff _ _ _ _ [⟨0, requestForA⟩] [] ⟨0, requestForA⟩ _ _ rfl
    (onClientRequest_cachedForA _ _) rfl (responseData_cachedForA _)

theorem not_iterate_delivers_cached
    : ¬ ∀ (qt : Qt) (inp : Input) (sh sh' : Shared) (queue rest : List (Queued Nat))
        (front : Queued Nat) (c : ClientSession) (v : Bytes),
        rotate queue = front :: rest →
        onClientRequest qt inp.disk inp.indeterminate sh front.session = some (sh', c) →
        c.isCached → responseData sh' c = some v →
        (∀ k, (inp.results k).IsAccepted ∨ inp.results k = .wouldBlock) →
        ∃ r, iterate qt inp sh queue = some r ∧ r.worked = front.tag
          ∧ (r.popped → r.loop.sent = v) := by
  intro h
  let front : Queued Nat := ⟨0, requestForA⟩
  let inp := inputOfA (ascii "hi") .wouldBlock
  have hrequest := onClientRequest_cachedForA (ascii "hi") .wouldBlock
  obtain ⟨r, hr, -, hsent⟩ := h Qt.unix inp _ _ [front] [] front _ (ascii "hi") rfl hrequest rfl
    (responseData_cachedForA _) (fun _ => .inr rfl)
  have hrotate : rotate [front] = [front] := rfl
  rw [iterate_of_cached hrotate hrequest rfl (responseData_cachedForA _)] at hr
  injection hr with hr
  rw [← hr] at hsent
  have hfits := (sendLoop.sent_eq_data_iff _ _).mp (hsent rfl)
  apply Fits.not_of_refused _ _ hfits
  . simp [inputOfA, SendResult.IsAccepted]
  . decide

end HttpMessageDispatcher
