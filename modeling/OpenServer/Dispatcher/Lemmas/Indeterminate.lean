import OpenServer.Dispatcher.Lemmas.Delivery

/-!
This module shows for which sessions the result of `onClientRequest` depends on what the uninitialised
`should_cache_response` happens to hold. The directory branch is the one that never assigns it.
-/

namespace HttpMessageDispatcher

variable {qt : Qt} {disk : Disk} {sh : Shared} {c : ClientSession}

theorem Lookup.of_not_file
    (h : ¬ (disk.pathExists (qt.absolutePath sh.cwd c.request.requestPath)
      ∧ disk.isFile (qt.absolutePath sh.cwd c.request.requestPath)))
    : lookup qt disk sh c = (.directory, c) := by
  rw [lookup, if_neg]
  simpa using h

theorem responseHeader_ne_nil (mimeStr : Bytes) (contentLength : Int)
    : responseHeader mimeStr contentLength ≠ [] := by
  intro h
  simp only [responseHeader, List.append_eq_nil_iff] at h
  exact absurd h.1.1.1.1.1.1.1 (by decide)

theorem compose_directory_ne_nil (c : ClientSession) (list : List QFileInfo) (currentPath : QString)
    : (compose c (directoryResponse list currentPath)).sendMessage ≠ [] := by
  simp [compose, directoryResponse, responseHeader_ne_nil]

-- A stored message is moved out of the session.
theorem store_ne (sh : Shared) (h : c.sendMessage ≠ []) : store true sh c ≠ store false sh c := by
  intro heq
  have := congrArg (fun r => r.2.sendMessage) heq
  simp only [store, if_true, Bool.false_eq_true, if_false] at this
  exact h this.symm

theorem onClientRequest_of_not_directory (hflag : ¬ c.ewouldblockFlag)
    (h : ∀ request, c.request.parse qt = some request →
      disk.pathExists (qt.absolutePath sh.cwd request.requestPath)
        ∧ disk.isFile (qt.absolutePath sh.cwd request.requestPath)) (v v' : Bool)
    : onClientRequest qt disk v sh c = onClientRequest qt disk v' sh c := by
  cases hparse : parseRequest qt c with
  | none => simp [onClientRequest, hflag, hparse]
  | some c₁ =>
    obtain ⟨request, hrequest, hc⟩ := parseRequest_eq hparse
    cases hlookup : lookup qt disk sh c₁ with
    | mk found c₂ =>
      obtain ⟨rfl, -⟩ | ⟨rfl, -⟩ | ⟨-, hnot, -⟩ := lookup_cases hlookup
      . simp [onClientRequest, hflag, hparse, hlookup]
      . simp [onClientRequest, hflag, hparse, hlookup]
      . rw [hc] at hnot
        exact absurd (h request hrequest) hnot

theorem onClientRequest_ne_of_directory (hflag : c.ewouldblockFlag = false)
    (hparse : c.request.parse qt = some request)
    (h : ¬ (disk.pathExists (qt.absolutePath sh.cwd request.requestPath)
      ∧ disk.isFile (qt.absolutePath sh.cwd request.requestPath)))
    : onClientRequest qt disk true sh c ≠ onClientRequest qt disk false sh c := by
  have hlookup : lookup qt disk sh { c with request } = (.directory, { c with request }) :=
    Lookup.of_not_file h
  rw [onClientRequest_of_directory true hflag (parseRequest_of_parse hparse) hlookup rfl,
    onClientRequest_of_directory false hflag (parseRequest_of_parse hparse) hlookup rfl]
  intro heq
  injection heq with heq
  exact store_ne _ (compose_directory_ne_nil _ _ _) heq

theorem onClientRequest_determined_iff (qt : Qt) (disk : Disk) (sh : Shared) (c : ClientSession)
    : (∀ v v', onClientRequest qt disk v sh c = onClientRequest qt disk v' sh c)
        ↔
      c.ewouldblockFlag ∨ ∀ request, c.request.parse qt = some request →
        disk.pathExists (qt.absolutePath sh.cwd request.requestPath)
          ∧ disk.isFile (qt.absolutePath sh.cwd request.requestPath) := by
  constructor
  . intro h
    by_contra hnot
    simp only [not_or, not_forall] at hnot
    obtain ⟨hflag, request, hparse, hnot⟩ := hnot
    exact onClientRequest_ne_of_directory (by simpa using hflag) hparse hnot (h true false)
  . rintro (hflag | h) v v'
    . simp [onClientRequest, hflag]
    . by_cases hflag : c.ewouldblockFlag
      . simp [onClientRequest, hflag]
      . exact onClientRequest_of_not_directory hflag h v v'

def requestForRoot : ClientSession := get "/"

theorem not_onClientRequest_determined
    : ¬ ∀ (qt : Qt) (disk : Disk) (sh : Shared) (c : ClientSession) (v v' : Bool),
        onClientRequest qt disk v sh c = onClientRequest qt disk v' sh c := by
  intro h
  have hparse : requestForRoot.request.parse Qt.unix = some (parsedGet "/") := by decide
  have hnot : ¬ ((diskOfA []).pathExists (ascii "/") ∧ (diskOfA []).isFile (ascii "/")) := by decide
  exact onClientRequest_ne_of_directory rfl hparse hnot
    (h Qt.unix (diskOfA []) { cwd := ascii "/" } requestForRoot true false)

end HttpMessageDispatcher
