import OpenServer.Dispatcher.Lemmas.Accounts
import OpenServer.Transition.History

/-!
This module shows when an entry of `cache_` stays as it is while a thread sends from it. Every thread
that missed a path stores it, whoever is sending from the entry.
-/

namespace HttpMessageDispatcher

variable {qt : Qt} {sh sh' : Shared} {t t' : Thread τ}

namespace Thread

def fromCache (t : Thread τ) : Bool :=
  match t.queue with
  | [] => false
  | front :: _ => front.session.isCached

def data (sh : Shared) (t : Thread τ) : Option Bytes :=
  match t.queue with
  | [] => none
  | front :: _ => responseData sh front.session

end Thread

namespace Threads

-- For every thread the value of its session's entry at the moment that sets `is_cached`.
def pins (ι τ : Type) [DecidableEq ι] : History (Threads ι τ) (Label ι τ) (ι → Option Bytes) where
  start _ := none
  extend past s l t :=
    match l with
    | .arrive _ _ => past
    | .run i _ =>
      if !(s.threads i).fromCache && (t.threads i).fromCache then
        Function.update past i ((t.threads i).data t.shared)
      else
        past

-- What `send` is given is inside the entry as it is, and is what the pinned value has there.
def EntriesStable (s : Threads ι τ) (pinned : ι → Option Bytes) : Prop :=
  ∀ i totalBytes bytesleft, (s.threads i).pc = .send totalBytes bytesleft →
    (s.threads i).fromCache →
    ∃ entry v, (s.threads i).data s.shared = some entry ∧ pinned i = some v
      ∧ totalBytes + bytesleft ≤ entry.length
      ∧ (entry.drop totalBytes).take bytesleft = (v.drop totalBytes).take bytesleft

-- Sessions arrive as the composer makes them, and no store puts other bytes under a path while
-- another thread is sending what stands there.
structure KeepsEntries (s : Threads ι τ) (a : Label ι τ) : Prop where
  arrive : ∀ i e, a = .arrive i e → e.session.isCached = false
  store : ∀ i x front entered, a = .run i x → (s.threads i).pc = .store true entered →
    (s.threads i).queue.head? = some front →
    ∀ j ≠ i, ∀ other, (s.threads j).pc.Reads → (s.threads j).queue.head? = some other →
      other.session.isCached →
      other.session.cacheIterator = some front.session.request.requestPath →
      s.shared.cache front.session.request.requestPath = some front.session.sendMessage

end Threads

theorem Thread.step_cache (h : t.step qt x sh = some (sh', t', effect))
    : (∀ entered, t.pc ≠ .store true entered) ∧ sh'.cache = sh.cache
        ∨ ∃ front entered, t.pc = .store true entered ∧ t.queue.head? = some front
          ∧ sh'.cache = fun key =>
            if key = front.session.request.requestPath then
              some front.session.sendMessage
            else
              sh.cache key := by
  cases Thread.step_cases h with
  | start hpc => exact .inl ⟨by simp [hpc], rfl⟩
  | popped hpc => exact .inl ⟨by simp [hpc], rfl⟩
  | kept hpc => exact .inl ⟨by simp [hpc], rfl⟩
  | serve hqueue hserve =>
    have hstep := serveStep_cases hserve
    generalize hpc : t.pc = pc at hstep
    cases hstep with
    | @stored should entered =>
      cases should with
      | false => exact .inl ⟨by simp, rfl⟩
      | true => exact .inr ⟨_, entered, rfl, by rw [hqueue]; rfl, rfl⟩
    | _ => exact .inl ⟨by simp, rfl⟩

-- A cached session is in the send loop or at its end: it leaves the queue there.
structure Thread.Pinned (sh : Shared) (pin : Option Bytes) (t : Thread τ) : Prop where
  waiting : ∀ e ∈ t.queue.tail, e.session.isCached = false
  finishing : t.fromCache → t.pc.Reads ∨ ∃ ending totalBytes, t.pc = .finish ending totalBytes
  reads : t.fromCache → t.pc.Reads → ∃ v, t.data sh = some v ∧ pin = some v
  send : ∀ totalBytes bytesleft, t.fromCache → t.pc = .send totalBytes bytesleft →
    ∃ v, t.data sh = some v ∧ totalBytes + bytesleft = v.length

theorem serveStep_cached (h : serveStep qt x sh c pc = some (sh', c', pc', bytes))
    (hown : c.isCached = false) (hcached : c'.isCached)
    : pc' = .select ∧ ∃ v, responseData sh' c' = some v := by
  cases serveStep_cases h with
  | pending => simp [hown] at hcached
  | cached hflag hparse hlookup =>
    obtain ⟨request, v, -, -, hv, rfl⟩ := parsed_cached hparse hlookup
    exact ⟨rfl, v, by simpa [responseData] using hv⟩
  | file hflag hparse hlookup =>
    obtain ⟨request, -, -, rfl⟩ := parsed_file hparse hlookup
    simp [hown] at hcached
  | directory hflag hparse hlookup =>
    obtain ⟨request, -, -, rfl⟩ := parsed_directory hparse hlookup
    simp [hown] at hcached
  | read hread =>
    obtain ⟨more, rfl⟩ := readFile_eq hread
    simp [compose_isCached, hown] at hcached
  | entered => simp [hown] at hcached
  | listed => simp [hown] at hcached
  | headed => simp [compose_isCached, hown] at hcached
  | @stored should entered =>
    cases should with
    | true => exact ⟨rfl, c.sendMessage, store_true_responseData sh c⟩
    | false => simp [store_isCached, hown] at hcached
  | selected => simp [hown] at hcached
  | sent => simp [hown] at hcached

namespace Thread.Pinned

theorem of_uncached (h : ∀ e ∈ t.queue, e.session.isCached = false) : t.Pinned sh pin := by
  have hown : t.fromCache = false := by
    unfold fromCache
    split
    . rfl
    . next front rest hqueue => exact h front (by simp [hqueue])
  constructor
  . intro e he
    exact h e (List.mem_of_mem_tail he)
  . simp [hown]
  . simp [hown]
  . simp [hown]

theorem uncached (h : t.Pinned sh pin) (hreads : ¬ t.pc.Reads)
    (hfinish : ∀ ending totalBytes, t.pc ≠ .finish ending totalBytes)
    : ∀ e ∈ t.queue, e.session.isCached = false := by
  have hown : ¬ t.fromCache := by
    intro hcached
    rcases h.finishing hcached with h | ⟨ending, totalBytes, h⟩
    . exact hreads h
    . exact hfinish _ _ h
  intro e he
  cases hqueue : t.queue with
  | nil => simp [hqueue] at he
  | cons front rest =>
    rw [hqueue] at he
    cases he with
    | head => simpa [fromCache, hqueue] using hown
    | tail _ he => exact h.waiting e (by rw [hqueue]; exact he)

theorem of_reads {pc : Pc} {e : Queued τ} (hrest : ∀ e ∈ rest, e.session.isCached = false)
    (hreads : pc.Reads) (hv : responseData sh e.session = some v) (hpin : pin = some v)
    (hlength : ∀ totalBytes bytesleft, pc = .send totalBytes bytesleft →
      totalBytes + bytesleft = v.length)
    : Pinned sh pin { pc, queue := e :: rest } := by
  constructor
  . exact hrest
  . exact fun _ => .inl hreads
  . exact fun _ _ => ⟨v, hv, hpin⟩
  . intro totalBytes bytesleft _ hpc
    exact ⟨v, hv, hlength totalBytes bytesleft hpc⟩

theorem of_finish (hrest : ∀ e ∈ rest, e.session.isCached = false) (e : Queued τ)
    : Pinned sh pin { pc := .finish ending totalBytes, queue := e :: rest } := by
  constructor
  . exact hrest
  . exact fun _ => .inr ⟨ending, totalBytes, rfl⟩
  . exact fun _ hreads => absurd hreads id
  . simp

theorem serve_cached {front : Queued τ} (h : t.Pinned sh pin) (hqueue : t.queue = front :: rest)
    (hcached : front.session.isCached)
    (hserve : serveStep qt x sh front.session t.pc = some (sh', c, pc', bytes))
    : Pinned sh' pin { pc := pc', queue := { front with session := c } :: rest } := by
  have hrest : ∀ e ∈ rest, e.session.isCached = false := by
    intro e he
    exact h.waiting e (by rw [hqueue]; exact he)
  have hcache : t.fromCache := by simpa [fromCache, hqueue] using hcached
  have hdata : t.data sh = responseData sh front.session := by simp [data, hqueue]
  have hstep := serveStep_cases hserve
  have hfinishing := h.finishing hcache
  have hreads := h.reads hcache
  have hsend := h.send
  rw [hdata] at hreads hsend
  generalize t.pc = pc at hstep hfinishing hreads hsend
  cases hstep with
  | @selected data hdata =>
    obtain ⟨v, hv, hpin⟩ := hreads trivial
    rw [hdata] at hv
    injection hv with hv
    refine of_reads hrest trivial (by rw [hdata, hv]) hpin ?_
    intro totalBytes bytesleft hpc
    injection hpc with htotal hleft
    rw [← htotal, ← hleft, hv, Nat.zero_add]
  | @sent data totalBytes bytesleft pc bytes hdata hsent =>
    obtain ⟨v, hv, hpin⟩ := hreads trivial
    obtain ⟨v', hv', hlength⟩ := hsend totalBytes bytesleft hcache rfl
    rw [hv] at hv'
    injection hv' with hv'
    obtain ⟨n, -, -, -, rfl, -⟩ | ⟨ending, rfl, -⟩ := sendOnce_cases hsent
    . refine of_reads hrest trivial hv hpin ?_
      intro totalBytes' bytesleft' hpc
      injection hpc with htotal hleft
      rw [hv']
      omega
    . exact of_finish hrest _
  | _ => simp [Pc.Reads] at hfinishing

theorem serve {front : Queued τ} (h : t.Pinned sh pin) (hqueue : t.queue = front :: rest)
    (hserve : serveStep qt x sh front.session t.pc = some (sh', c, pc', bytes))
    (ht : t' = { pc := pc', queue := { front with session := c } :: rest })
    : t'.Pinned sh' (if !t.fromCache && t'.fromCache then t'.data sh' else pin) := by
  have hrest : ∀ e ∈ rest, e.session.isCached = false := by
    intro e he
    exact h.waiting e (by rw [hqueue]; exact he)
  have hold : t.fromCache = front.session.isCached := by simp [fromCache, hqueue]
  have hnew : t'.fromCache = c.isCached := by simp [fromCache, ht]
  have hdata : t'.data sh' = responseData sh' c := by simp [data, ht]
  cases hcached : c.isCached with
  | false =>
    apply of_uncached
    intro e he
    rw [ht] at he
    cases he with
    | head => exact hcached
    | tail _ he => exact hrest e he
  | true =>
    cases hfront : front.session.isCached with
    | false =>
      obtain ⟨rfl, v, hv⟩ := serveStep_cached hserve hfront hcached
      simp only [hold, hnew, hfront, hcached, Bool.not_false, Bool.and_self, ↓reduceIte]
      rw [hdata, ht]
      exact of_reads hrest trivial hv hv (by simp)
    | true =>
      simp only [hold, hfront, Bool.not_true, Bool.false_and, Bool.false_eq_true, ↓reduceIte]
      rw [ht]
      exact h.serve_cached hqueue hfront hserve

theorem step (h : t.Pinned sh pin) (hstep : t.step qt x sh = some (sh', t', effect))
    : t'.Pinned sh' (if !t.fromCache && t'.fromCache then t'.data sh' else pin) := by
  cases Thread.step_cases hstep with
  | start hpc hqueue =>
    apply of_uncached
    intro e he
    apply h.uncached (by simp [hpc, Pc.Reads]) (by simp [hpc])
    exact (rotate_perm t.queue).mem_iff.mp he
  | serve hqueue hserve => exact h.serve hqueue hserve rfl
  | popped hpc hqueue hc hfinished =>
    apply of_uncached
    intro e he
    exact h.waiting e (by rw [hqueue]; exact he)
  | kept hpc hqueue hc hfinished =>
    apply of_uncached
    intro e he
    cases he with
    | head =>
      simp only [isFinished, Bool.or_eq_true, not_or, Bool.not_eq_true] at hfinished
      exact hfinished.1
    | tail _ he => exact h.waiting e (by rw [hqueue]; exact he)

theorem arrive {e : Queued τ} (h : t.Pinned sh pin) (hpc : t.pc = .outside)
    (he : e.session.isCached = false)
    : Pinned sh pin { t with queue := t.queue ++ [e] } := by
  apply of_uncached
  intro e' he'
  rcases List.mem_append.mp he' with he' | he'
  . exact h.uncached (by simp [hpc, Pc.Reads]) (by simp [hpc]) e' he'
  . obtain rfl : e' = e := by simpa using he'
    exact he

theorem of_data (h : t.Pinned sh pin)
    (hdata : t.fromCache → t.pc.Reads → t.data sh' = t.data sh)
    : t.Pinned sh' pin := by
  constructor
  . exact h.waiting
  . exact h.finishing
  . intro hcache hreads
    rw [hdata hcache hreads]
    exact h.reads hcache hreads
  . intro totalBytes bytesleft hcache hpc
    rw [hdata hcache (by simp [hpc, Pc.Reads])]
    exact h.send totalBytes bytesleft hcache hpc

end Thread.Pinned

namespace Threads

variable [DecidableEq ι] {s t : Threads ι τ} {pinned : ι → Option Bytes}

def Pinned (s : Threads ι τ) (pinned : ι → Option Bytes) : Prop :=
  ∀ i, (s.threads i).Pinned s.shared (pinned i)

omit [DecidableEq ι] in
theorem KeepsEntries.data_eq {i j : ι} (hg : KeepsEntries s (.run i x))
    (hstep : (s.threads i).step qt x s.shared = some (sh, t', effect)) (hj : j ≠ i)
    (hcache : (s.threads j).fromCache) (hreads : (s.threads j).pc.Reads)
    : (s.threads j).data sh = (s.threads j).data s.shared := by
  cases hqueue : (s.threads j).queue with
  | nil => simp [Thread.data, hqueue]
  | cons other rest =>
    have hcached : other.session.isCached := by
      simpa [Thread.fromCache, hqueue] using hcache
    simp only [Thread.data, hqueue, responseData, hcached, ↓reduceIte]
    cases hiterator : other.session.cacheIterator with
    | none => rfl
    | some path =>
      obtain ⟨-, hsame⟩ | ⟨front, entered, hpc, hfront, hstored⟩ := Thread.step_cache hstep
      . rw [hsame]
      . simp only [Option.bind_some, hstored]
        split
        . next hpath =>
          rw [hpath]
          rw [hpath] at hiterator
          exact (hg.store i x front entered rfl hpc hfront j hj other hreads (by simp [hqueue])
            hcached hiterator).symm
        . rfl

theorem Pinned.step (h : s.Pinned pinned) (hg : KeepsEntries s a)
    (ht : Threads.step qt s a = some t)
    : t.Pinned ((pins ι τ).extend pinned s a t) := by
  cases a with
  | arrive i e =>
    obtain ⟨hpc, rfl⟩ := arrive_cases ht
    intro j
    simp only [pins]
    by_cases hj : j = i
    . subst hj
      simp only [Function.update_self]
      exact (h j).arrive hpc (hg.arrive j e rfl)
    . simpa [Function.update_of_ne hj] using h j
  | run i x =>
    obtain ⟨sh, t', effect, hstep, rfl⟩ := step_run ht
    intro j
    simp only [pins, Function.update_self]
    by_cases hj : j = i
    . subst hj
      have := (h j).step hstep
      simp only [Function.update_self]
      split
      . next hset =>
        rw [if_pos hset] at this
        simpa using this
      . next hset =>
        rwa [if_neg hset] at this
    . have hpin : (if (!(s.threads i).fromCache && t'.fromCache) = true then
          Function.update pinned i (t'.data sh) else pinned) j = pinned j := by
        split
        . simp [Function.update_of_ne hj]
        . rfl
      simp only [Function.update_of_ne hj, hpin]
      apply (h j).of_data
      intro hcache hreads
      exact hg.data_eq hstep hj hcache hreads

omit [DecidableEq ι] in
theorem Pinned.stable (h : s.Pinned pinned) : EntriesStable s pinned := by
  intro i totalBytes bytesleft hpc hcache
  obtain ⟨v, hv, hpin⟩ := (h i).reads hcache (by simp [hpc, Pc.Reads])
  obtain ⟨v', hv', hlength⟩ := (h i).send totalBytes bytesleft hcache hpc
  rw [hv] at hv'
  injection hv' with hv'
  exact ⟨v, v, hv, hpin, by rw [hv']; omega, rfl⟩

-- Outside the condition a thread in its send loop finds another value than the one it was given.
theorem Pinned.replaced {x : StepInput} (h : s.Pinned pinned) (hg : ¬ KeepsEntries s (.run i x))
    (ht : Threads.step qt s (.run i x) = some t)
    : ∃ j, (t.threads j).fromCache ∧ (t.threads j).pc.Reads
        ∧ (t.threads j).data t.shared ≠ pinned j := by
  obtain ⟨sh, t', effect, hstep, rfl⟩ := step_run ht
  by_contra hnone
  apply hg
  constructor
  . simp
  . rintro _ _ front entered hrun hpc hfront j hj other hreads hother hcached hiterator
    injection hrun with hi hx
    subst hi hx
    obtain ⟨rest, hqueue⟩ : ∃ rest, (s.threads j).queue = other :: rest :=
      List.head?_eq_some_iff.mp hother
    have hcache : (s.threads j).fromCache := by simpa [Thread.fromCache, hqueue] using hcached
    obtain ⟨v, hv, hpin⟩ := (h j).reads hcache hreads
    obtain ⟨hstore, -⟩ | ⟨front', entered', -, hfront', hstored⟩ := Thread.step_cache hstep
    . exact absurd hpc (hstore entered)
    . obtain rfl : front = front' := by simpa [hfront] using hfront'
      by_contra hdifferent
      apply hnone
      refine ⟨j, ?_⟩
      simp only [Function.update_of_ne hj]
      refine ⟨hcache, hreads, ?_⟩
      simp only [Thread.data, hqueue, responseData, hcached, ↓reduceIte, hiterator,
        Option.bind_some] at hv ⊢
      simp only [hpin, hstored, ↓reduceIte]
      rw [← hv]
      exact fun heq => hdifferent heq.symm

theorem entriesStable (ι τ : Type) [DecidableEq ι] (qt : Qt) (sh : Shared)
    : (∀ s pinned, ((machine ι τ qt sh).withHistory (pins ι τ)).ReachBy
            (fun p => KeepsEntries p.1) (s, pinned) →
          EntriesStable s pinned)
        ∧ ∀ s pinned i x t, ((machine ι τ qt sh).withHistory (pins ι τ)).ReachBy
            (fun p => KeepsEntries p.1) (s, pinned) →
          ¬ KeepsEntries s (.run i x) → step qt s (.run i x) = some t →
          ∃ j, (t.threads j).fromCache ∧ (t.threads j).pc.Reads
            ∧ (t.threads j).data t.shared ≠ pinned j := by
  have hpinned : ∀ s pinned, ((machine ι τ qt sh).withHistory (pins ι τ)).ReachBy
      (fun p => KeepsEntries p.1) (s, pinned) → Pinned s pinned := by
    intro s pinned h
    apply Machine.ReachBy.history_invariant _ _ h
    . rintro s rfl i
      apply Thread.Pinned.of_uncached
      simp
    . intro s pinned a t hs hg ht
      exact hs.step hg ht
  constructor
  . intro s pinned h
    exact (hpinned s pinned h).stable
  . intro s pinned i x t h hg ht
    exact (hpinned s pinned h).replaced hg ht

def sendsA (b : Bytes) (result : SendResult) : StepInput where
  disk := diskOfA b
  indeterminate := false
  result := result

-- Both threads miss the path and find the same file. The second one stores its response while the
-- first is sending.
def sameFileTwice : List (Label Bool Nat) :=
  [.arrive false ⟨0, get "/a"⟩, .arrive true ⟨1, get "/a"⟩]
    ++ List.replicate 3 (.run false (sendsA (ascii "hello") oneByte))
    ++ List.replicate 3 (.run true (sendsA (ascii "hello") oneByte))
    ++ List.replicate 3 (.run false (sendsA (ascii "hello") oneByte))
    ++ [.run true (sendsA (ascii "hello") oneByte)]

def storesSame (s : Threads Bool Nat) : Label Bool Nat → Bool
  | .arrive _ e => !e.session.isCached
  | .run i _ =>
    match (s.threads i).pc, (s.threads i).queue with
    | .store true _, front :: _ =>
      (s.threads !i).pc == .store true none
        || s.shared.cache front.session.request.requestPath == some front.session.sendMessage
    | _, _ => true

theorem keepsEntries_of_storesSame {s : Threads Bool Nat} (h : storesSame s a) : KeepsEntries s a := by
  constructor
  . rintro i e rfl
    simpa [storesSame] using h
  . rintro i x front entered rfl hpc hfront j hj other hreads - - -
    obtain rfl : j = !i := Bool.eq_not.mpr hj
    obtain ⟨rest, hqueue⟩ := List.head?_eq_some_iff.mp hfront
    simp only [storesSame, hpc, hqueue, Bool.or_eq_true, beq_iff_eq] at h
    rcases h with hstoring | hsame
    . rw [hstoring] at hreads
      exact absurd hreads id
    . exact hsame

theorem entriesStable_sameFileTwice
    : ∃ s pinned, ((machine Bool Nat Qt.unix { cwd := ascii "/" }).withHistory (pins Bool Nat)).run
          ({ shared := { cwd := ascii "/" } }, fun _ => none) sameFileTwice = some (s, pinned)
        ∧ (s.threads false).pc = .send 1 87 ∧ (s.threads false).fromCache
        ∧ (s.threads true).pc = .select ∧ (s.threads true).fromCache
        ∧ EntriesStable s pinned := by
  have hrun : (((machine Bool Nat Qt.unix { cwd := ascii "/" }).withHistory
      (pins Bool Nat)).runGuarded (fun p a => storesSame p.1 a)
        ({ shared := { cwd := ascii "/" } }, fun _ => none) sameFileTwice).any (fun p =>
          decide ((p.1.threads false).pc = .send 1 87 ∧ (p.1.threads false).fromCache
            ∧ (p.1.threads true).pc = .select ∧ (p.1.threads true).fromCache)) := by
    decide +kernel
  obtain ⟨⟨s, pinned⟩, hguarded, hstate⟩ := (Option.any_eq_true _ _).mp hrun
  obtain ⟨hsending, hcache, hstored, hcache'⟩ := of_decide_eq_true hstate
  obtain ⟨hrun, hreach⟩ := Machine.reachBy_of_runGuarded hguarded (.init ⟨rfl, rfl⟩)
    (fun _ _ p h => keepsEntries_of_storesSame (s := p.1) h)
  refine ⟨s, pinned, hrun, hsending, hcache, hstored, hcache', ?_⟩
  exact (entriesStable Bool Nat Qt.unix { cwd := ascii "/" }).1 s pinned hreach

-- Both threads miss the path. The file gets shorter before the second one reads it.
def missTwice : List (Label Bool Nat) :=
  [.arrive false ⟨0, get "/a"⟩, .arrive true ⟨1, get "/a"⟩]
    ++ List.replicate 3 (.run false (sendsA (ascii "hello") .wouldBlock))
    ++ List.replicate 3 (.run true (sendsA (ascii "hi") .wouldBlock))
    ++ List.replicate 3 (.run false (sendsA (ascii "hi") oneByte))
    ++ [.run true (sendsA (ascii "hi") .wouldBlock)]

theorem not_entriesStable
    : ¬ ∀ s pinned, ((machine Bool Nat Qt.unix { cwd := ascii "/" }).withHistory
          (pins Bool Nat)).ReachBy (fun _ a => ∀ i e, a = .arrive i e → e.session.Fresh) (s, pinned) →
        EntriesStable s pinned := by
  intro h
  have hrun : (((machine Bool Nat Qt.unix { cwd := ascii "/" }).withHistory (pins Bool Nat)).run
      ({ shared := { cwd := ascii "/" } }, fun _ => none) missTwice).any (fun p =>
        decide ((p.1.threads false).pc = .send 1 87 ∧ (p.1.threads false).fromCache
          ∧ ((p.1.threads false).data p.1.shared).map List.length = some 85)) := by
    decide +kernel
  obtain ⟨⟨s, pinned⟩, hrun, hsending⟩ := (Option.any_eq_true _ _).mp hrun
  obtain ⟨hpc, hcache, hlength⟩ := of_decide_eq_true hsending
  have hstable := h s pinned ?_
  . obtain ⟨entry, v, hentry, -, hle, -⟩ := hstable false 1 87 hpc hcache
    rw [hentry] at hlength
    have : entry.length = 85 := by simpa using hlength
    omega
  . apply Machine.ReachBy.run _ missTwice _ hrun
    . exact .init ⟨rfl, rfl⟩
    . rintro _ ha p i e rfl
      have : e = ⟨0, get "/a"⟩ ∨ e = ⟨1, get "/a"⟩ := by
        simp [missTwice] at ha
        grind
      rcases this with rfl | rfl
      . exact ClientSession.ofRequest_fresh _ _ _
      . exact ClientSession.ofRequest_fresh _ _ _

end Threads

end HttpMessageDispatcher
