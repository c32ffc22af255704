import OpenServer.Dispatcher.Lemmas.Accounts
import OpenServer.Dispatcher.Lemmas.DispatchMessageQueue
import OpenServer.Dispatcher.Lemmas.FileRead

/-!
This module shows that a session with a request the parser is defined on stays one that an iteration
can serve, whatever the file system, `cache_` and the sockets answer it, until it leaves the queue.
-/

namespace HttpMessageDispatcher

variable {qt : Qt}

structure Servable (qt : Qt) (c : ClientSession) : Prop where
  isCached : c.isCached = false
  parses : (c.request.parse qt).isSome

-- Every file can be opened, and a read for this session delivers all that it asks for.
def Turn.Readable (turn : Turn) (c : ClientSession) : Prop :=
  ∀ path, turn.input.disk.isFile path → ReadsWhole (turn.input.disk.file path) c

theorem responseData_store (h : should = true ∨ c.isCached = false) (sh : Shared)
    : (responseData (store should sh c).1 (store should sh c).2).isSome := by
  rcases h with rfl | hown
  . simp [store, responseData]
  . cases should with
    | false => simp [store, responseData, hown]
    | true => simp [store, responseData]

theorem parse_of_parse {p p' : HttpHeaderParser} (h : p.parse qt = some p')
    : p'.parse qt = some p' := by
  have hclean : p'.isDirty = false := by
    unfold HttpHeaderParser.parse at h
    split at h
    . simp only [Option.bind_eq_bind, Option.bind_eq_some_iff, Option.some.injEq] at h
      obtain ⟨line, -, url, -, rfl⟩ := h
      rfl
    . next hdirty =>
      injection h with h
      simpa [h] using hdirty
  simp [HttpHeaderParser.parse, hclean]

theorem request_of_served (h : onClientRequest qt disk indeterminate sh c = some (sh', c'))
    : c'.request = c.request ∨ c.request.parse qt = some c'.request := by
  have hstore : ∀ should sh (c : ClientSession), (store should sh c).2.request = c.request := by
    intro should sh c
    unfold store
    split <;> rfl
  have hcompose : ∀ (c : ClientSession) r, (compose c r).request = c.request := by
    intro c r
    obtain ⟨message, size, hc⟩ := compose_eq c r
    rw [hc]
  cases onClientRequest_cases h with
  | pending hflag => exact .inl rfl
  | cached hflag hparse hlookup =>
    obtain ⟨request, data, hrequest, -, -, rfl⟩ := parsed_cached hparse hlookup
    exact .inr hrequest
  | file hflag hparse hlookup hread =>
    obtain ⟨request, hrequest, -, rfl⟩ := parsed_file hparse hlookup
    obtain ⟨more, rfl⟩ := readFile_eq hread
    rw [hstore, hcompose]
    exact .inr hrequest
  | directory hflag hparse hlookup hcwd hr =>
    obtain ⟨request, hrequest, -, rfl⟩ := parsed_directory hparse hlookup
    rw [hstore, hcompose]
    exact .inr hrequest

theorem sendData_request (c : ClientSession) (data : Bytes) (results : Nat → SendResult)
    : (sendData c data results).request = c.request := by
  unfold sendData eraseSent
  rcases sendLoop data results 0 with ⟨totalBytes, ending, sent⟩
  cases ending <;> simp only [endSend] <;> grind

namespace Servable

theorem served (h : Servable qt c)
    (hserve : serveFront qt inp sh c = some (sh', c', loop)) (hkept : ¬ isFinished c')
    : Servable qt c' := by
  simp only [serveFront, Option.bind_eq_bind, Option.bind_eq_some_iff, Option.some.injEq] at hserve
  obtain ⟨⟨sh₁, c₁⟩, hrequest, data, -, heq⟩ := hserve
  have hc' : c' = sendData c₁ data inp.results := by
    injection heq with _ heq
    injection heq with heq
    exact heq.symm
  constructor
  . by_contra hcached
    simp [isFinished, hcached] at hkept
  . rw [hc', sendData_request]
    rcases request_of_served hrequest with hsame | hparse
    . rw [hsame]
      exact h.parses
    . simp [parse_of_parse hparse]

theorem serves (h : Servable qt c) {turn : Turn} (hreads : turn.Readable c)
    : (serveFront qt turn.input turn.shared c).isSome := by
  suffices hserved : ∃ sh c', onClientRequest qt turn.input.disk turn.input.indeterminate turn.shared c
      = some (sh, c') ∧ (responseData sh c').isSome by
    obtain ⟨sh, c', hrequest, hdata⟩ := hserved
    obtain ⟨data, hdata⟩ := Option.isSome_iff_exists.mp hdata
    simp [serveFront, hrequest, hdata]
  by_cases hflag : c.ewouldblockFlag
  . refine ⟨turn.shared, { c with ewouldblockFlag := false }, by simp [onClientRequest, hflag], ?_⟩
    simp [responseData, h.isCached]
  . obtain ⟨request, hrequest⟩ := Option.isSome_iff_exists.mp h.parses
    have hparse := parseRequest_of_parse hrequest
    have hflag : c.ewouldblockFlag = false := by simpa using hflag
    obtain ⟨found, c₂, hlookup⟩ : ∃ found c₂, lookup qt turn.input.disk turn.shared
        { c with request } = (found, c₂) := ⟨_, _, rfl⟩
    obtain ⟨rfl, -, hentry, rfl⟩ | ⟨rfl, ⟨-, hfile⟩, -, rfl⟩ | ⟨rfl, -, rfl⟩ := lookup_cases hlookup
    . refine ⟨_, _, onClientRequest_of_cached hflag hparse hlookup, ?_⟩
      simpa [responseData, Option.isSome_iff_ne_none] using hentry
    . have hwhole := hreads _ hfile
      have hwhole' : ReadsWhole _ { c with request, cacheIterator := none } :=
        ⟨hwhole.isOpen, hwhole.whole⟩
      obtain ⟨⟨c', r⟩, hread⟩ := Option.isSome_iff_exists.mp (hwhole'.readFile_isSome rfl)
      exact ⟨_, _, onClientRequest_of_file hflag hparse hlookup hread, responseData_store (.inl rfl) _⟩
    . refine ⟨_, _, onClientRequest_of_directory _ hflag hparse hlookup rfl, ?_⟩
      apply responseData_store
      right
      rw [compose_isCached]
      exact h.isCached

end Servable

end HttpMessageDispatcher
