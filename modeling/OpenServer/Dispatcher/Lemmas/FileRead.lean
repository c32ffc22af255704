import OpenServer.Dispatcher.Lemmas.Delivery

/-!
This module shows for which outcomes of `open`, `seek`, `size` and `read` the response to a request
for a file holds bytes of the file and no others.
-/

namespace HttpMessageDispatcher

variable {qt : Qt} {f : QFile} {c : ClientSession}

def readPos (c : ClientSession) : Int :=
  c.sendMessageIndex - c.sendMessageHeaderSize

-- What is left of the file by the `k`-th answer of `size()`.
def remaining (f : QFile) (k : Nat) (c : ClientSession) : Int :=
  f.size k - c.sendMessageIndex + c.sendMessageHeaderSize

-- The size of the buffer and the number of bytes that are asked for.
def readSizes (f : QFile) (c : ClientSession) : Option (Int × Int) :=
  if remaining f 0 c > fileChunk then
    some (fileChunk, fileChunk)
  else if remaining f 1 c ≤ fileChunk then
    some (remaining f 2 c, remaining f 3 c)
  else
    none

theorem readFile_body (h : readFile qt disk cwd c = some (c', r))
    (hf : disk.file (qt.absolutePath cwd c.request.requestPath) = f)
    : (∀ buffer asked, readSizes f c = some (buffer, asked) →
          fill buffer (f.readAt (readPos c) asked) = some r.responseBody)
        ∧ (readSizes f c = none → r.responseBody = []) := by
  unfold readFile at h
  dsimp only at h
  rw [hf] at h
  split at h
  . next hmore =>
    have hsizes : readSizes f c = some (fileChunk, fileChunk) := if_pos hmore
    simp only [Option.bind_eq_bind, Option.bind_eq_some_iff] at h
    obtain ⟨body, hbody, h⟩ := h
    injection h with h
    injection h with hc hr
    rw [hsizes, ← hr]
    simpa [readPos] using hbody
  . next hmore =>
    split at h
    . next hlast =>
      have hsizes : readSizes f c = some (remaining f 2 c, remaining f 3 c) :=
        (if_neg hmore).trans (if_pos hlast)
      simp only [Option.bind_eq_bind, Option.bind_eq_some_iff] at h
      obtain ⟨body, hbody, h⟩ := h
      injection h with h
      injection h with hc hr
      rw [hsizes, ← hr]
      simpa [readPos, remaining] using hbody
    . next hlast =>
      have hsizes : readSizes f c = none := (if_neg hmore).trans (if_neg hlast)
      injection h with h
      injection h with hc hr
      rw [hsizes, ← hr]
      simp

theorem fill_eq_some_iff {bytes body : Bytes}
    : fill n bytes = some body
        ↔
      bytes.length ≤ n ∧ body = bytes ++ List.replicate (n.toNat - bytes.length) 0 := by
  unfold fill
  split
  . next hle => simp [hle, eq_comm]
  . next hle => simp [hle]

-- Every byte of the body is what a read at its place has delivered, and `cache_` has no entry where
-- `open` or `read` failed.
structure OnlyRead (f : QFile) (c : ClientSession) (body : Bytes) (entry : Option Bytes) : Prop where
  body : ∀ (j : Nat) (b : UInt8), body[j]? = some b → f.isOpen
    ∧ ∃ buffer asked, readSizes f c = some (buffer, asked)
    ∧ (f.seek (readPos c) ∨ readPos c = 0) ∧ (f.read (readPos c) asked)[j]? = some b
  failed : (¬ f.isOpen ∨ ∃ buffer asked, readSizes f c = some (buffer, asked)
    ∧ (f.readAt (readPos c) asked).length ≠ asked) → entry = none

structure ReadsWhole (f : QFile) (c : ClientSession) : Prop where
  isOpen : f.isOpen
  whole : ∀ buffer asked, readSizes f c = some (buffer, asked) →
    (f.readAt (readPos c) asked).length = asked ∧ buffer = asked
      ∧ (asked = 0 ∨ f.seek (readPos c) ∨ readPos c = 0)

theorem readAt_eq_read (hopen : f.isOpen) (hseek : f.seek pos ∨ pos = 0) (n : Int)
    : f.readAt pos n = f.read pos n := by
  rcases hseek with hseek | rfl
  . simp [QFile.readAt, hopen, hseek]
  . simp [QFile.readAt, hopen]

theorem ReadsWhole.readFile_isSome (h : ReadsWhole f c)
    (hf : disk.file (qt.absolutePath cwd c.request.requestPath) = f)
    : (readFile qt disk cwd c).isSome := by
  unfold readFile
  dsimp only
  rw [hf]
  split
  . next hmore =>
    have hsizes : readSizes f c = some (fileChunk, fileChunk) := if_pos hmore
    have hlength := (h.whole _ _ hsizes).1
    unfold readPos at hlength
    rw [fill_eq hlength]
    rfl
  . next hmore =>
    split
    . next hlast =>
      have hsizes : readSizes f c = some (remaining f 2 c, remaining f 3 c) :=
        (if_neg hmore).trans (if_pos hlast)
      obtain ⟨hlength, hbuffer, -⟩ := h.whole _ _ hsizes
      rw [← hbuffer] at hlength
      unfold readPos remaining at hlength
      unfold remaining at hbuffer
      rw [← hbuffer, fill_eq hlength]
      rfl
    . rfl

section OnlyRead

variable {body entry : Bytes}

theorem OnlyRead.isOpen (h : OnlyRead f c body (some entry)) : f.isOpen := by
  by_contra hopen
  cases h.failed (.inl hopen)

theorem onlyRead_iff_of_none (hsizes : readSizes f c = none) (hbody : body = [])
    : OnlyRead f c body (some entry) ↔ ReadsWhole f c := by
  constructor
  . intro h
    constructor
    . exact h.isOpen
    . simp [hsizes]
  . intro h
    constructor
    . simp [hbody]
    . simp [hsizes, h.isOpen]

variable {buffer asked : Int} (hsizes : readSizes f c = some (buffer, asked))

include hsizes

theorem OnlyRead.delivered (h : OnlyRead f c body (some entry))
    : (f.readAt (readPos c) asked).length = asked := by
  by_contra hshort
  cases h.failed (.inr ⟨buffer, asked, hsizes, hshort⟩)

theorem OnlyRead.at_place (h : OnlyRead f c body (some entry)) {j : Nat} (hj : j < body.length)
    : (f.seek (readPos c) ∨ readPos c = 0) ∧ j < (f.read (readPos c) asked).length := by
  obtain ⟨-, buffer', asked', hsizes', hplace, hread⟩ := h.body j _ (List.getElem?_eq_getElem hj)
  rw [hsizes] at hsizes'
  injection hsizes' with hsizes'
  injection hsizes' with hbuffer hasked
  rw [← hasked] at hread
  exact ⟨hplace, (List.getElem?_eq_some_iff.mp hread).1⟩

variable (hfill : fill buffer (f.readAt (readPos c) asked) = some body)

include hfill

theorem OnlyRead.readsWhole (h : OnlyRead f c body (some entry)) : ReadsWhole f c := by
  obtain ⟨hle, hbody⟩ := fill_eq_some_iff.mp hfill
  have hlength := h.delivered hsizes
  have hbodyLength : body.length = buffer.toNat := by
    rw [hbody, List.length_append, List.length_replicate]
    omega
  refine ⟨h.isOpen, ?_⟩
  intro buffer' asked' hsizes'
  rw [hsizes] at hsizes'
  injection hsizes' with hsizes'
  injection hsizes' with hbuffer hasked
  rw [← hbuffer, ← hasked]
  refine ⟨hlength, ?_, ?_⟩
  . -- a longer buffer has a byte that no read delivered
    by_contra hne
    have hlast : asked.toNat < body.length := by omega
    have := (h.at_place hsizes hlast).2
    have := f.read_le (readPos c) asked
    omega
  . by_cases hzero : asked = 0
    . exact .inl hzero
    . right
      have hfirst : 0 < body.length := by omega
      exact (h.at_place hsizes hfirst).1

theorem ReadsWhole.onlyRead (h : ReadsWhole f c) : OnlyRead f c body (some entry) := by
  obtain ⟨hle, hbody⟩ := fill_eq_some_iff.mp hfill
  obtain ⟨hlength, hbuffer, hplace⟩ := h.whole buffer asked hsizes
  have hexact : body = f.readAt (readPos c) asked := by
    have hpad : buffer.toNat - (f.readAt (readPos c) asked).length = 0 := by omega
    rw [hbody, hpad, List.replicate_zero, List.append_nil]
  constructor
  . intro j b hj
    rcases hplace with hzero | hplace
    . have hempty : body = [] := by
        apply List.eq_nil_of_length_eq_zero
        rw [hexact]
        omega
      simp [hempty] at hj
    . rw [hexact, readAt_eq_read h.isOpen hplace] at hj
      exact ⟨h.isOpen, buffer, asked, hsizes, hplace, hj⟩
  . rintro (hopen | ⟨buffer', asked', hsizes', hshort⟩)
    . exact absurd h.isOpen hopen
    . exact absurd (h.whole buffer' asked' hsizes').1 hshort

end OnlyRead

-- A readable file that does not change under the read.
theorem readsWhole_of_holds (hfresh : c.Fresh) (hholds : f.Holds b) : ReadsWhole f c := by
  have hpos : readPos c = 0 := by
    simp [readPos, hfresh.sendMessageIndex, hfresh.sendMessageHeaderSize]
  have hremaining : ∀ k, remaining f k c = b.length := by
    intro k
    simp [remaining, hholds.size, hfresh.sendMessageIndex, hfresh.sendMessageHeaderSize]
  have hread : ∀ n, f.readAt (readPos c) n = b.take n.toNat := by
    intro n
    rw [readAt_eq_read hholds.isOpen (.inr hpos), hholds.read, hpos]
    rfl
  refine ⟨hholds.isOpen, ?_⟩
  intro buffer asked hsizes
  rw [hread, List.length_take]
  simp only [readSizes, hremaining] at hsizes
  split at hsizes
  . next hlong =>
    injection hsizes with hsizes
    injection hsizes with hbuffer hasked
    rw [← hbuffer, ← hasked]
    refine ⟨?_, rfl, .inr (.inr hpos)⟩
    unfold fileChunk at hlong ⊢
    omega
  . split at hsizes
    . injection hsizes with hsizes
      injection hsizes with hbuffer hasked
      rw [← hbuffer, ← hasked]
      refine ⟨?_, rfl, .inr (.inr hpos)⟩
      omega
    . cases hsizes

section Served

variable {disk : Disk} {sh : Shared} {request : HttpHeaderParser}
variable (hflag : c.ewouldblockFlag = false) (hparse : c.request.parse qt = some request)
variable (hexists : disk.pathExists (qt.absolutePath sh.cwd request.requestPath))
variable (hfile : disk.isFile (qt.absolutePath sh.cwd request.requestPath))
variable (hcache : sh.cache request.requestPath = none)

include hflag hparse hexists hfile hcache

theorem onClientRequest_eq_store (indeterminate : Bool)
    : onClientRequest qt disk indeterminate sh c
        =
      (readFile qt disk sh.cwd { c with request, cacheIterator := none }).map
        (fun read => store true sh (compose read.1 read.2)) := by
  have hlookup := Lookup.of_file (c := { c with request }) hexists hfile hcache
  cases hread : readFile qt disk sh.cwd { c with request, cacheIterator := none } with
  | none =>
    rw [onClientRequest, if_neg (by simp [hflag]), parseRequest_of_parse hparse]
    simp [hlookup, hread]
  | some read =>
    rw [onClientRequest_of_file hflag (parseRequest_of_parse hparse) hlookup hread, Option.map_some]

theorem served_onlyRead_iff (indeterminate : Bool)
    : (ReadsWhole (disk.file (qt.absolutePath sh.cwd request.requestPath)) c →
          (onClientRequest qt disk indeterminate sh c).isSome)
        ∧ ∀ sh' c', onClientRequest qt disk indeterminate sh c = some (sh', c') →
          ∃ c₃ r, readFile qt disk sh.cwd { c with request, cacheIterator := none } = some (c₃, r)
            ∧ sh'.cache request.requestPath = some (compose c₃ r).sendMessage
            ∧ (OnlyRead (disk.file (qt.absolutePath sh.cwd request.requestPath)) c r.responseBody
                  (sh'.cache request.requestPath)
                ↔
              ReadsWhole (disk.file (qt.absolutePath sh.cwd request.requestPath)) c) := by
  have hserved := onClientRequest_eq_store hflag hparse hexists hfile hcache indeterminate
  constructor
  . intro h
    have hwhole : ReadsWhole (disk.file (qt.absolutePath sh.cwd request.requestPath))
        { c with request, cacheIterator := none } := ⟨h.isOpen, h.whole⟩
    rw [hserved, Option.isSome_map]
    exact hwhole.readFile_isSome rfl
  . intro sh' c' h
    rw [hserved, Option.map_eq_some_iff] at h
    obtain ⟨⟨c₃, r⟩, hread, h⟩ := h
    obtain ⟨hbody, hempty⟩ := readFile_body hread rfl
    obtain ⟨more, hmore⟩ := readFile_eq hread
    obtain ⟨message, size, hcompose⟩ := compose_eq c₃ r
    have hpath : (compose c₃ r).request.requestPath = request.requestPath := by
      rw [hcompose, hmore]
    have hsh : sh' = (store true sh (compose c₃ r)).1 := by rw [h]
    have hentry : sh'.cache request.requestPath = some (compose c₃ r).sendMessage := by
      rw [hsh, ← hpath]
      simp [store]
    refine ⟨c₃, r, hread, hentry, ?_⟩
    rw [hentry]
    cases hsizes : readSizes (disk.file (qt.absolutePath sh.cwd request.requestPath)) c with
    | none => exact onlyRead_iff_of_none hsizes (hempty hsizes)
    | some sizes =>
      have hfill := hbody sizes.1 sizes.2 hsizes
      exact ⟨fun h => h.readsWhole hsizes hfill, fun h => h.onlyRead hsizes hfill⟩

end Served

theorem served_onlyRead_requestForA
    : ∃ sh' c' c₃ r, onClientRequest Qt.unix (diskOfA (ascii "hi")) false { cwd := ascii "/" }
            requestForA
          = some (sh', c')
        ∧ readFile Qt.unix (diskOfA (ascii "hi")) (ascii "/")
            { requestForA with request := parsedForA, cacheIterator := none } = some (c₃, r)
        ∧ OnlyRead ((diskOfA (ascii "hi")).file (ascii "/a")) requestForA r.responseBody
            (sh'.cache (ascii "/a")) := by
  have hfresh : requestForA.Fresh := ClientSession.ofRequest_fresh _ _ _
  have hwhole : ReadsWhole ((diskOfA (ascii "hi")).file (ascii "/a")) requestForA :=
    readsWhole_of_holds hfresh (diskOfA_holds _)
  obtain ⟨hcompletes, hserved⟩ : (_ → (onClientRequest Qt.unix (diskOfA (ascii "hi")) false
      { cwd := ascii "/" } requestForA).isSome) ∧ _ :=
    served_onlyRead_iff rfl requestForA_parse rfl rfl rfl false
  obtain ⟨⟨sh', c'⟩, h⟩ := Option.isSome_iff_exists.mp (hcompletes hwhole)
  obtain ⟨c₃, r, hread, -, honly⟩ := hserved sh' c' h
  exact ⟨sh', c', c₃, r, h, hread, honly.mpr hwhole⟩

-- A file of three bytes that may not be opened.
def lockedFile : QFile where
  isOpen := false
  size _ := 3
  seek _ := false
  read _ _ := []
  read_le := by simp

def diskOfLockedA : Disk :=
  { diskOfA [] with file := fun _ => lockedFile }

theorem not_served_onlyRead
    : ¬ ∀ (qt : Qt) (disk : Disk) (indeterminate : Bool) (sh sh' : Shared) (c c' c₃ : ClientSession)
        (request : HttpHeaderParser) (r : Response), c.ewouldblockFlag = false →
        c.request.parse qt = some request →
        disk.pathExists (qt.absolutePath sh.cwd request.requestPath) →
        disk.isFile (qt.absolutePath sh.cwd request.requestPath) →
        sh.cache request.requestPath = none →
        onClientRequest qt disk indeterminate sh c = some (sh', c') →
        readFile qt disk sh.cwd { c with request, cacheIterator := none } = some (c₃, r) →
        OnlyRead (disk.file (qt.absolutePath sh.cwd request.requestPath)) c r.responseBody
          (sh'.cache request.requestPath) := by
  intro h
  have hread : ∃ c₃ r, readFile Qt.unix diskOfLockedA (ascii "/")
      { requestForA with request := parsedForA, cacheIterator := none } = some (c₃, r)
        ∧ r.responseBody = [0, 0, 0] := ⟨_, _, rfl, rfl⟩
  obtain ⟨c₃, r, hread, hbody⟩ := hread
  have hlookup : lookup Qt.unix diskOfLockedA { cwd := ascii "/" }
      { requestForA with request := parsedForA }
        = (.file, { requestForA with request := parsedForA, cacheIterator := none }) :=
    Lookup.of_file rfl rfl rfl
  have hserved : onClientRequest Qt.unix diskOfLockedA false { cwd := ascii "/" } requestForA = _ :=
    onClientRequest_of_file rfl (parseRequest_of_parse requestForA_parse) hlookup hread
  have honly := h Qt.unix diskOfLockedA false _ _ requestForA _ c₃ parsedForA r rfl requestForA_parse
    rfl rfl rfl hserved hread
  -- the first zero of the body comes from a file that was never opened
  have hfirst : r.responseBody[0]? = some 0 := by rw [hbody]; rfl
  have hopen := (honly.body 0 0 hfirst).1
  cases hopen

end HttpMessageDispatcher
