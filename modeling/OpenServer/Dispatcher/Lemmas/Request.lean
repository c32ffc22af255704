import Mathlib.Logic.Basic
import OpenServer.Dispatcher.Impl.Request

/-!
This module contains the case analysis of `onClientRequest` and what every case leaves alone.
-/

namespace HttpMessageDispatcher

variable {qt : Qt} {disk : Disk}

inductive Requested (qt : Qt) (disk : Disk) (indeterminate : Bool) (sh : Shared) (c : ClientSession)
    : Shared → ClientSession → Prop where
  | pending (hflag : c.ewouldblockFlag)
      : Requested qt disk indeterminate sh c sh { c with ewouldblockFlag := false }
  | cached (hflag : ¬ c.ewouldblockFlag) (hparse : parseRequest qt c = some c₁)
      (hlookup : lookup qt disk sh c₁ = (.cached, c₂))
      : Requested qt disk indeterminate sh c sh c₂
  | file (hflag : ¬ c.ewouldblockFlag) (hparse : parseRequest qt c = some c₁)
      (hlookup : lookup qt disk sh c₁ = (.file, c₂))
      (hread : readFile qt disk sh.cwd c₂ = some (c₃, r))
      : Requested qt disk indeterminate sh c (store true sh (compose c₃ r)).1
          (store true sh (compose c₃ r)).2
  | directory (hflag : ¬ c.ewouldblockFlag) (hparse : parseRequest qt c = some c₁)
      (hlookup : lookup qt disk sh c₁ = (.directory, c₂))
      (hcwd : cwd = (changeDir qt disk sh.cwd c₂).getD sh.cwd)
      (hr : r = directoryResponse (disk.entryInfoList cwd) cwd)
      : Requested qt disk indeterminate sh c
          (store indeterminate { sh with cwd } (compose c₂ r)).1
          (store indeterminate { sh with cwd } (compose c₂ r)).2

theorem onClientRequest_cases (h : onClientRequest qt disk indeterminate sh c = some (sh', c'))
    : Requested qt disk indeterminate sh c sh' c' := by
  unfold onClientRequest at h
  split at h
  . next hflag =>
    injection h with h
    injection h with hsh hc
    rw [← hsh, ← hc]
    exact .pending hflag
  . next hflag =>
    simp only [Option.bind_eq_bind, Option.bind_eq_some_iff] at h
    obtain ⟨c₁, hparse, h⟩ := h
    split at h
    . next c₂ hlookup =>
      injection h with h
      injection h with hsh hc
      rw [← hsh, ← hc]
      exact .cached hflag hparse hlookup
    . next c₂ hlookup =>
      simp only [Option.bind_eq_some_iff] at h
      obtain ⟨⟨c₃, r⟩, hread, h⟩ := h
      injection h with h
      have := @Requested.file qt disk indeterminate _ _ _ _ _ _ hflag hparse hlookup hread
      rwa [h] at this
    . next c₂ hlookup =>
      injection h with h
      have := @Requested.directory qt disk indeterminate _ _ _ _ _ _ hflag hparse hlookup rfl rfl
      rwa [h] at this

theorem parseRequest_of_parse (h : c.request.parse qt = some request)
    : parseRequest qt c = some { c with request } := by
  simp [parseRequest, h]

theorem onClientRequest_of_cached (hflag : c.ewouldblockFlag = false)
    (hparse : parseRequest qt c = some c₁) (hlookup : lookup qt disk sh c₁ = (.cached, c₂))
    : onClientRequest qt disk indeterminate sh c = some (sh, c₂) := by
  simp [onClientRequest, hflag, hparse, hlookup]

theorem onClientRequest_of_file (hflag : c.ewouldblockFlag = false)
    (hparse : parseRequest qt c = some c₁) (hlookup : lookup qt disk sh c₁ = (.file, c₂))
    (hread : readFile qt disk sh.cwd c₂ = some (c₃, r))
    : onClientRequest qt disk indeterminate sh c = some (store true sh (compose c₃ r)) := by
  simp [onClientRequest, hflag, hparse, hlookup, hread]

theorem onClientRequest_of_directory (indeterminate : Bool) (hflag : c.ewouldblockFlag = false)
    (hparse : parseRequest qt c = some c₁) (hlookup : lookup qt disk sh c₁ = (.directory, c₂))
    (hcwd : (changeDir qt disk sh.cwd c₂).getD sh.cwd = cwd)
    : onClientRequest qt disk indeterminate sh c
        =
      some (store indeterminate { sh with cwd }
        (compose c₂ (directoryResponse (disk.entryInfoList cwd) cwd))) := by
  simp [onClientRequest, hflag, hparse, hlookup, hcwd]

structure SameConnection (c c' : ClientSession) : Prop where
  socket : c'.socket = c.socket
  fdsIndex : c'.fdsIndex = c.fdsIndex
  keepAlive : c'.keepAlive = c.keepAlive

theorem SameConnection.trans (h : SameConnection c c') (h' : SameConnection c' c'')
    : SameConnection c c'' := by
  constructor
  . rw [h'.socket, h.socket]
  . rw [h'.fdsIndex, h.fdsIndex]
  . rw [h'.keepAlive, h.keepAlive]

theorem parseRequest_eq (h : parseRequest qt c = some c')
    : ∃ request, c.request.parse qt = some request ∧ c' = { c with request } := by
  simp only [parseRequest, Option.bind_eq_bind, Option.bind_eq_some_iff] at h
  obtain ⟨request, hparse, h⟩ := h
  injection h with h
  exact ⟨request, hparse, h.symm⟩

theorem parseRequest_sameConnection (h : parseRequest qt c = some c') : SameConnection c c' := by
  obtain ⟨request, -, rfl⟩ := parseRequest_eq h
  constructor <;> rfl

theorem lookup_cases (h : lookup qt disk sh c = (found, c'))
    : let path := c.request.requestPath
      let checkFile := qt.absolutePath sh.cwd path
      found = .cached ∧ (disk.pathExists checkFile ∧ disk.isFile checkFile) ∧ sh.cache path ≠ none
          ∧ c' = { c with cacheIterator := some path, isCached := true }
        ∨ found = .file ∧ (disk.pathExists checkFile ∧ disk.isFile checkFile)
          ∧ sh.cache path = none ∧ c' = { c with cacheIterator := none }
        ∨ found = .directory ∧ ¬ (disk.pathExists checkFile ∧ disk.isFile checkFile)
          ∧ c' = c := by
  unfold lookup at h
  dsimp only at h ⊢
  split at h
  . next hfile =>
    simp only [Bool.and_eq_true] at hfile
    split at h
    . next data hcache =>
      injection h with hfound hc
      simp [← hfound, ← hc, hfile, hcache]
    . next hcache =>
      injection h with hfound hc
      simp [← hfound, ← hc, hfile, hcache]
  . next hfile =>
    simp only [Bool.and_eq_true] at hfile
    injection h with hfound hc
    simp only [← hfound, ← hc, hfile]
    simp

section

variable (hparse : parseRequest qt c = some c₁)

include hparse

theorem parsed_cached (hlookup : lookup qt disk sh c₁ = (.cached, c₂))
    : ∃ request data, c.request.parse qt = some request
        ∧ (disk.pathExists (qt.absolutePath sh.cwd request.requestPath)
          ∧ disk.isFile (qt.absolutePath sh.cwd request.requestPath))
        ∧ sh.cache request.requestPath = some data
        ∧ c₂ = { c with request, cacheIterator := some request.requestPath, isCached := true } := by
  obtain ⟨request, hrequest, rfl⟩ := parseRequest_eq hparse
  obtain ⟨-, hfile, hentry, hc⟩ | ⟨hfound, -⟩ | ⟨hfound, -⟩ := lookup_cases hlookup
  . obtain ⟨data, hdata⟩ := Option.ne_none_iff_exists'.mp hentry
    exact ⟨request, data, hrequest, hfile, hdata, hc⟩
  . cases hfound
  . cases hfound

theorem parsed_file (hlookup : lookup qt disk sh c₁ = (.file, c₂))
    : ∃ request, c.request.parse qt = some request
        ∧ (disk.pathExists (qt.absolutePath sh.cwd request.requestPath)
          ∧ disk.isFile (qt.absolutePath sh.cwd request.requestPath))
        ∧ c₂ = { c with request, cacheIterator := none } := by
  obtain ⟨request, hrequest, rfl⟩ := parseRequest_eq hparse
  obtain ⟨hfound, -⟩ | ⟨-, hfile, -, hc⟩ | ⟨hfound, -⟩ := lookup_cases hlookup
  . cases hfound
  . exact ⟨request, hrequest, hfile, hc⟩
  . cases hfound

theorem parsed_directory (hlookup : lookup qt disk sh c₁ = (.directory, c₂))
    : ∃ request, c.request.parse qt = some request
        ∧ ¬ (disk.pathExists (qt.absolutePath sh.cwd request.requestPath)
          ∧ disk.isFile (qt.absolutePath sh.cwd request.requestPath))
        ∧ c₂ = { c with request } := by
  obtain ⟨request, hrequest, rfl⟩ := parseRequest_eq hparse
  obtain ⟨hfound, -⟩ | ⟨hfound, -⟩ | ⟨-, hfile, hc⟩ := lookup_cases hlookup
  . cases hfound
  . cases hfound
  . exact ⟨request, hrequest, hfile, hc⟩

end

theorem lookup_sameConnection (h : lookup qt disk sh c = (found, c')) : SameConnection c c' := by
  obtain ⟨-, -, -, rfl⟩ | ⟨-, -, -, rfl⟩ | ⟨-, -, rfl⟩ := lookup_cases h <;> constructor <;> rfl

theorem readFile_eq (h : readFile qt disk cwd c = some (c', r))
    : ∃ more, c' = { c with sendMessageHasMoreBytes := more } := by
  unfold readFile at h
  dsimp only at h
  split at h
  . simp only [Option.bind_eq_bind, Option.bind_eq_some_iff] at h
    obtain ⟨body, -, h⟩ := h
    injection h with h
    injection h with hc hr
    exact ⟨true, hc.symm⟩
  . split at h
    . simp only [Option.bind_eq_bind, Option.bind_eq_some_iff] at h
      obtain ⟨body, -, h⟩ := h
      injection h with h
      injection h with hc hr
      exact ⟨false, hc.symm⟩
    . injection h with h
      injection h with hc hr
      exact ⟨c.sendMessageHasMoreBytes, hc.symm⟩

theorem readFile_sameConnection (h : readFile qt disk cwd c = some (c', r))
    : SameConnection c c' := by
  obtain ⟨more, rfl⟩ := readFile_eq h
  constructor <;> rfl

theorem compose_eq (c : ClientSession) (r : Response)
    : ∃ message size, compose c r
        = { c with sendMessage := message, sendMessageHeaderSize := size } := by
  unfold compose
  dsimp only
  split
  . exact ⟨_, _, rfl⟩
  . exact ⟨_, c.sendMessageHeaderSize, rfl⟩

theorem compose_isCached (c : ClientSession) (r : Response)
    : (compose c r).isCached = c.isCached := by
  obtain ⟨message, size, hc⟩ := compose_eq c r
  rw [hc]

theorem compose_sameConnection (c : ClientSession) (r : Response)
    : SameConnection c (compose c r) := by
  obtain ⟨message, size, hc⟩ := compose_eq c r
  rw [hc]
  constructor <;> rfl

theorem store_sameConnection (should : Bool) (sh : Shared) (c : ClientSession)
    : SameConnection c (store should sh c).2 := by
  unfold store
  dsimp only
  split <;> constructor <;> rfl

theorem store_isCached (should : Bool) (sh : Shared) (c : ClientSession)
    : (store should sh c).2.isCached = (should || c.isCached) := by
  unfold store
  dsimp only
  split
  . next hshould => simp [hshould]
  . next hshould => simp [hshould]

theorem onClientRequest_sameConnection
    (h : onClientRequest qt disk indeterminate sh c = some (sh', c'))
    : SameConnection c c' := by
  cases onClientRequest_cases h with
  | pending hflag => constructor <;> rfl
  | cached hflag hparse hlookup =>
    exact (parseRequest_sameConnection hparse).trans (lookup_sameConnection hlookup)
  | file hflag hparse hlookup hread =>
    apply (parseRequest_sameConnection hparse).trans
    apply (lookup_sameConnection hlookup).trans
    apply (readFile_sameConnection hread).trans
    exact (compose_sameConnection _ _).trans (store_sameConnection _ _ _)
  | directory hflag hparse hlookup hcwd hr =>
    apply (parseRequest_sameConnection hparse).trans
    apply (lookup_sameConnection hlookup).trans
    exact (compose_sameConnection _ _).trans (store_sameConnection _ _ _)

-- The session will be answered from `cache_`, in terms of what the iteration finds.
def ServedFromCache (qt : Qt) (disk : Disk) (indeterminate : Bool) (sh : Shared)
    (c : ClientSession) : Prop :=
  c.isCached ∨ ¬ c.ewouldblockFlag ∧ (indeterminate ∨ ∃ request,
    c.request.parse qt = some request
      ∧ disk.pathExists (qt.absolutePath sh.cwd request.requestPath)
      ∧ disk.isFile (qt.absolutePath sh.cwd request.requestPath))

theorem onClientRequest_isCached_iff
    (h : onClientRequest qt disk indeterminate sh c = some (sh', c'))
    : c'.isCached ↔ ServedFromCache qt disk indeterminate sh c := by
  unfold ServedFromCache
  cases onClientRequest_cases h with
  | pending hflag => simp [hflag]
  | cached hflag hparse hlookup =>
    obtain ⟨request, data, hrequest, hfile, -, rfl⟩ := parsed_cached hparse hlookup
    simp only [true_iff]
    exact .inr ⟨hflag, .inr ⟨request, hrequest, hfile⟩⟩
  | file hflag hparse hlookup hread =>
    obtain ⟨request, hrequest, hfile, rfl⟩ := parsed_file hparse hlookup
    rw [store_isCached]
    simp only [Bool.true_or, true_iff]
    exact .inr ⟨hflag, .inr ⟨request, hrequest, hfile⟩⟩
  | directory hflag hparse hlookup hcwd hr =>
    obtain ⟨request, hrequest, hfile, rfl⟩ := parsed_directory hparse hlookup
    obtain ⟨message, size, hc⟩ := compose_eq { c with request } (directoryResponse _ _)
    rw [store_isCached, hr, hc]
    simp only [Bool.or_eq_true]
    grind

end HttpMessageDispatcher
