import OpenServer.Dispatcher.Lemmas.CacheEntries
import OpenServer.Dispatcher.Lemmas.OwnBuffers
import OpenServer.Server.Impl.Service
import OpenServer.Transition.Streams

/-!
This module shows when the responses of one connection come in the order of its requests. The
processor deals the requests out to dispatchers that know nothing of each other.
-/

open HttpMessageDispatcher

namespace Service

variable {qt : Qt} {s t : Service κ} {w : Streams κ UInt8}

def marks (s : Service κ) : List (κ × Nat) :=
  s.qclients.map (·.tag)

def threadMarks (s : Service κ) (i : Nat) : List (κ × Nat) :=
  (s.threads.threads i).queue.map (·.tag)

def write [DecidableEq κ] (stream : κ → Bytes) : Effect (κ × Nat) → κ → Bytes
  | .sent e bytes => Function.update stream e.tag.1 (stream e.tag.1 ++ bytes)
  | _ => stream

def written (κ : Type) [DecidableEq κ] (qt : Qt)
    : History (Service κ) (Label κ) (Streams κ UInt8) where
  start := {}
  extend w s a t :=
    match a with
    | .receive _ _ => w
    | .handOver =>
      match s.qclients with
      | e :: _ => { w with ledger := w.ledger.arrive e.tag }
      | [] => w
    | .run i x =>
      match s.threads.runStep qt i x with
      | some (_, effect) =>
        { ledger :=
            (s.threads.threads i).record t.threads.shared (t.threads.threads i) effect w.ledger
          stream := write w.stream effect }
      | none => w

-- The client of `k` sends a request when all its earlier ones are answered in full, and no entry of
-- `cache_` is replaced under a thread that sends from it. The other clients do as they like.
structure InTurn (k : κ) (p : Service κ × Streams κ UInt8) (a : Label κ) : Prop where
  fresh : ∀ k' c, a = .receive k' c → c.Fresh
  awaits : ∀ c, a = .receive k c → ∀ m < p.1.received k, p.2.ledger.Settled (k, m)
  result : ∀ i x, a = .run i x → x.result.Transient
  entries : ∀ i x, a = .run i x → p.1.threads.KeepsEntries (.run i x)

structure Marked (s : Service κ) : Prop where
  waiting : ∀ tag ∈ s.marks, tag.2 < s.received tag.1
  handed : ∀ i, ∀ tag ∈ s.threadMarks i, tag.2 < s.received tag.1
  nodup : s.marks.Nodup
  apart : ∀ i, ∀ tag ∈ s.threadMarks i, tag ∉ s.marks ∧ ∀ j ≠ i, tag ∉ s.threadMarks j

structure Serves (s : Service κ) (w : Streams κ UInt8) (k : κ) : Prop where
  marked : s.Marked
  fresh : ∀ e ∈ s.qclients, e.session.Fresh
  untouched : ∀ e ∈ s.qclients, w.ledger.Untouched e.tag
  accounts : ∀ i, (s.threads.threads i).Accounts w.ledger s.threads.shared
  awaited : w.Awaited s.received k
  ordered : w.Ordered s.received k

theorem Marked.init (shared : Shared) : Marked { threads := { shared } : Service κ } := by
  constructor <;> simp [marks, threadMarks]

theorem Marked.of_subset (h : s.Marked) (hreceived : t.received = s.received)
    (hmarks : t.marks = s.marks) (hthreads : ∀ i, t.threadMarks i ⊆ s.threadMarks i)
    : t.Marked := by
  constructor
  . rw [hmarks, hreceived]
    apply h.waiting
  . rw [hreceived]
    intro i tag htag
    apply h.handed i tag (hthreads i htag)
  . rw [hmarks]
    apply h.nodup
  . intro i tag htag
    obtain ⟨hwaiting, hothers⟩ := h.apart i tag (hthreads i htag)
    rw [hmarks]
    refine ⟨hwaiting, ?_⟩
    intro j hj hmem
    apply hothers j hj (hthreads j hmem)

theorem Marked.handOver (h : s.Marked) (hqclients : s.qclients = e :: rest)
    (hreceived : t.received = s.received) (hrest : t.qclients = rest)
    (hi : t.threadMarks i = s.threadMarks i ++ [e.tag])
    (hothers : ∀ j ≠ i, t.threadMarks j = s.threadMarks j)
    : t.Marked := by
  have hmarks : s.marks = e.tag :: t.marks := by simp [marks, hqclients, hrest]
  have hnodup := h.nodup
  have hwaiting := h.waiting
  have hapart := h.apart
  rw [hmarks] at hnodup hwaiting hapart
  rw [List.nodup_cons] at hnodup
  have hcases : ∀ j, ∀ tag ∈ t.threadMarks j, tag ∈ s.threadMarks j ∨ j = i ∧ tag = e.tag := by
    intro j tag htag
    by_cases hj : j = i
    . subst hj
      simpa [hi] using htag
    . rw [hothers j hj] at htag
      left
      apply htag
  constructor
  . rw [hreceived]
    intro tag htag
    apply hwaiting tag (List.mem_cons_of_mem _ htag)
  . rw [hreceived]
    intro j tag htag
    rcases hcases j tag htag with htag | ⟨-, rfl⟩
    . apply h.handed j tag htag
    . apply hwaiting
      apply List.mem_cons_self
  . apply hnodup.2
  . intro j tag htag
    constructor
    . rcases hcases j tag htag with htag | ⟨-, rfl⟩
      . intro hmem
        apply (hapart j tag htag).1 (List.mem_cons_of_mem _ hmem)
      . apply hnodup.1
    . -- one mark in two threads: they are both old, or one of them is still waiting
      intro j' hj' hmem
      rcases hcases j tag htag with htag | ⟨rfl, rfl⟩
      . rcases hcases j' tag hmem with hmem | ⟨-, rfl⟩
        . apply (hapart j tag htag).2 j' hj' hmem
        . apply (hapart j e.tag htag).1 List.mem_cons_self
      . rcases hcases j' e.tag hmem with hmem | ⟨rfl, -⟩
        . apply (hapart j' e.tag hmem).1 List.mem_cons_self
        . apply hj' rfl

variable [DecidableEq κ]

theorem received_le_receive (s : Service κ) (k k' : κ) (c : ClientSession)
    : s.received k' ≤ (s.receive k c).received k' := by
  by_cases hk : k' = k
  . subst hk
    simp [Service.receive]
  . simp [Service.receive, Function.update_of_ne hk]

theorem marks_receive (s : Service κ) (k : κ) (c : ClientSession)
    : (s.receive k c).marks = s.marks ++ [(k, s.received k)] := by
  simp [Service.receive, marks]

theorem Marked.receive (h : s.Marked) (k : κ) (c : ClientSession) : (s.receive k c).Marked := by
  have hnew : ∀ tag, tag.2 < s.received tag.1 → tag ≠ (k, s.received k) := by
    rintro tag hlt rfl
    simp at hlt
  have hle : ∀ tag : κ × Nat, tag.2 < s.received tag.1 → tag.2 < (s.receive k c).received tag.1 := by
    intro tag hlt
    have := received_le_receive s k tag.1 c
    omega
  constructor
  . intro tag htag
    rw [marks_receive] at htag
    rcases List.mem_append.mp htag with htag | htag
    . apply hle tag (h.waiting tag htag)
    . obtain rfl : tag = (k, s.received k) := by simpa using htag
      simp [Service.receive]
  . intro i tag htag
    apply hle tag (h.handed i tag htag)
  . rw [marks_receive, ← List.concat_eq_append]
    apply h.nodup.concat
    intro hmem
    apply hnew _ (h.waiting _ hmem) rfl
  . intro i tag htag
    obtain ⟨hwaiting, hothers⟩ := h.apart i tag htag
    refine ⟨?_, hothers⟩
    rw [marks_receive, List.mem_append, not_or]
    refine ⟨hwaiting, ?_⟩
    intro hmem
    apply hnew tag (h.handed i tag htag)
    simpa using hmem

theorem step_handOver (h : step qt s .handOver = some t)
    : ∃ e rest i worker threads, s.qclients = e :: rest
        ∧ HtmlMessageProcessor.branch s.worker = some (i, worker)
        ∧ s.threads.arrive i e = some threads
        ∧ t = { s with qclients := rest, worker, threads } := by
  obtain ⟨r, hr, h⟩ := Option.bind_eq_some_iff.mp h
  injection h with h
  obtain ⟨e, i, hqclients, hbranch, harrive⟩ := HtmlMessageProcessor.Hands.handOver_cases hr
  exact ⟨e, r.qclients, i, r.worker, r.threads, hqclients, hbranch, harrive, h.symm⟩

theorem step_run (h : step qt s (.run i x) = some t)
    : ∃ sh t' effect, (s.threads.threads i).step qt x s.threads.shared = some (sh, t', effect)
        ∧ t = { s with threads :=
            { shared := sh, threads := Function.update s.threads.threads i t' } } := by
  obtain ⟨⟨_, effect⟩, hrun, h⟩ := Option.bind_eq_some_iff.mp h
  injection h with h
  obtain ⟨sh, t', hstep, rfl⟩ := Threads.runStep_eq_some_iff.mp hrun
  exact ⟨sh, t', effect, hstep, h.symm⟩

theorem Serves.init (qt : Qt) (shared : Shared) (k : κ)
    : Serves { threads := { shared } : Service κ } (written κ qt).start k := by
  constructor
  . apply Marked.init
  . simp
  . simp
  . intro i
    apply Thread.Accounts.of_waiting _ _ (.inl rfl)
    . simp
    . simp
  . intro m hm
    cases hm
  . apply Streams.Ordered.init

theorem Serves.receive (h : s.Serves w k) (hfresh : c.Fresh)
    (hawaits : k' = k → ∀ m < s.received k, w.ledger.Settled (k, m))
    : (s.receive k' c).Serves w k := by
  constructor
  . apply h.marked.receive
  . intro e he
    rcases List.mem_append.mp he with he | he
    . apply h.fresh e he
    . obtain rfl : e = { tag := (k', s.received k'), session := c } := by simpa using he
      apply hfresh
  . intro e he
    rcases List.mem_append.mp he with he | he
    . apply h.untouched e he
    . obtain rfl : e = { tag := (k', s.received k'), session := c } := by simpa using he
      apply h.ordered.unknown (k', s.received k') (Nat.le_refl _)
  . apply h.accounts
  . intro m hm
    by_cases hk : k = k'
    . subst hk
      simp only [Service.receive, Function.update_self] at hm
      apply hawaits rfl m (by omega)
    . simp only [Service.receive, Function.update_of_ne hk] at hm
      apply h.awaited m hm
  . apply h.ordered.of_agrees (Ledger.Agrees.refl _) rfl
    intro k''
    apply received_le_receive

theorem Serves.handOver (h : s.Serves w k) (ht : step qt s .handOver = some t)
    : t.Serves ((written κ qt).extend w s .handOver t) k := by
  obtain ⟨e, rest, i, worker, threads, hqclients, -, harrive, rfl⟩ := step_handOver ht
  obtain ⟨hpc, rfl⟩ := Threads.arrive_cases harrive
  have htag : e.tag ∈ s.marks := by simp [marks, hqclients]
  have he : e ∈ s.qclients := by simp [hqclients]
  have hrest : ∀ e' ∈ rest, e' ∈ s.qclients := by
    intro e' he'
    simp [hqclients, he']
  simp only [written, hqclients]
  constructor
  . refine h.marked.handOver (i := i) hqclients rfl rfl ?_ ?_
    . simp [threadMarks]
    . intro j hj
      simp [threadMarks, Function.update_of_ne hj]
  . intro e' he'
    apply h.fresh e' (hrest e' he')
  . intro e' he'
    apply Ledger.Agrees.untouched (Ledger.agrees_arrive _ _ _) (h.untouched e' (hrest e' he'))
  . intro j
    by_cases hj : j = i
    . subst hj
      simp only [Function.update_self]
      apply (h.accounts j).arrive hpc (h.fresh e he) _ (h.untouched e he)
      intro hmem
      apply (h.marked.apart j e.tag hmem).1 htag
    . simp only [Function.update_of_ne hj]
      apply (h.accounts j).of_agrees
      . intro e' _
        apply Ledger.agrees_arrive
      . intro _ _ _ _
        rfl
  . intro m hm
    apply (Ledger.agrees_arrive _ _ _).settled (h.awaited m hm)
  . refine h.ordered.of_agrees ?_ rfl (fun _ => Nat.le_refl _)
    intro client
    apply Ledger.agrees_arrive

theorem written_run (hstep : (s.threads.threads i).step qt x s.threads.shared = some (sh, t', effect))
    : (written κ qt).extend w s (.run i x)
          { s with threads := { shared := sh, threads := Function.update s.threads.threads i t' } }
        =
      { ledger := (s.threads.threads i).record sh t' effect w.ledger
        stream := write w.stream effect } := by
  have hrun : s.threads.runStep qt i x
      = some ({ shared := sh, threads := Function.update s.threads.threads i t' }, effect) :=
    Threads.runStep_eq_some_iff.mpr ⟨sh, t', hstep, rfl⟩
  simp only [written, hrun, Function.update_self]

omit [DecidableEq κ] in
theorem responseData_eq {front : Queued (κ × Nat)} {j : Nat}
    (hg : s.threads.KeepsEntries (.run i x))
    (hstep : (s.threads.threads i).step qt x s.threads.shared = some (sh, t', effect)) (hj : j ≠ i)
    (hqueue : (s.threads.threads j).queue = front :: rest) (hreads : (s.threads.threads j).pc.Reads)
    : responseData sh front.session = responseData s.threads.shared front.session := by
  cases hcached : front.session.isCached with
  | false => rw [responseData_of_own hcached, responseData_of_own hcached]
  | true =>
    have hcache : (s.threads.threads j).fromCache := by simpa [Thread.fromCache, hqueue] using hcached
    have := hg.data_eq hstep hj hcache hreads
    simpa [Thread.data, hqueue] using this

theorem ordered_booked {t : Thread (κ × Nat)} {w' : Streams κ UInt8} {received : κ → Nat}
    (hbooked : t.Booked w.ledger w'.ledger effect) (h : w.Ordered received k)
    (hawaited : w.Awaited received k)
    (hreceived : ∀ tag ∈ t.queue.map (·.tag), tag.2 < received tag.1)
    (hstream : w'.stream = write w.stream effect)
    : w'.Ordered received k := by
  generalize hafter : w'.ledger = after at hbooked
  cases hbooked with
  | silent hl heffect =>
    refine h.of_agrees (by rwa [hafter]) ?_ (fun _ => Nat.le_refl _)
    rw [hstream]
    cases effect with
    | sent e bytes => apply absurd rfl (heffect e bytes)
    | quiet => rfl
    | close => rfl
  | @answer tag bytes htag huntouched =>
    have heq : w' = w.answer tag bytes := Streams.ext hafter hstream
    rw [heq]
    apply h.answer huntouched (hreceived tag htag)
  | @send bytes left e htag howes =>
    have heq : w' = w.send e.tag bytes := Streams.ext hafter hstream
    rw [heq]
    apply h.send howes _ (hreceived e.tag htag)
    intro hk
    rw [← hk] at hawaited
    apply hawaited.turn (hreceived e.tag htag)

theorem Serves.run {w' : Streams κ UInt8} (h : s.Serves w k) (hg : InTurn k (s, w) (.run i x))
    (hstep : (s.threads.threads i).step qt x s.threads.shared = some (sh, t', effect))
    (hledger : w'.ledger = (s.threads.threads i).record sh t' effect w.ledger)
    (hstream : w'.stream = write w.stream effect)
    : Serves { s with threads :=
        { shared := sh, threads := Function.update s.threads.threads i t' } } w' k := by
  have hbooked := (h.accounts i).booked hstep
  rw [← hledger] at hbooked
  constructor
  . refine h.marked.of_subset rfl rfl ?_
    intro j
    by_cases hj : j = i
    . subst hj
      intro tag htag
      simp only [threadMarks, Function.update_self, List.mem_map] at htag ⊢
      obtain ⟨e', he', rfl⟩ := htag
      obtain ⟨e, he, htag, -⟩ := Thread.step_sameConnection hstep e' he'
      exact ⟨e, he, htag.symm⟩
    . simp [threadMarks, Function.update_of_ne hj]
  . apply h.fresh
  . intro e he
    apply (hbooked.agrees _).untouched (h.untouched e he)
    intro hmem
    apply (h.marked.apart i e.tag hmem).1
    apply List.mem_map_of_mem he
  . intro j
    by_cases hj : j = i
    . subst hj
      simp only [Function.update_self]
      rw [hledger]
      apply (h.accounts j).step (hg.result j x rfl) hstep
    . simp only [Function.update_of_ne hj]
      apply (h.accounts j).of_agrees
      . intro e he
        apply hbooked.agrees
        apply (h.marked.apart j e.tag (List.mem_map_of_mem he)).2 i (Ne.symm hj)
      . intro front rest hqueue hreads
        apply responseData_eq (hg.entries i x rfl) hstep hj hqueue hreads
  . intro m hm
    apply hbooked.settled (h.awaited m hm)
  . apply ordered_booked hbooked h.ordered h.awaited (h.marked.handed i) hstream

theorem Serves.step (h : s.Serves w k) (hg : InTurn k (s, w) a) (ht : step qt s a = some t)
    : t.Serves ((written κ qt).extend w s a t) k := by
  cases a with
  | receive k' c =>
    injection ht with ht
    rw [← ht]
    apply h.receive (hg.fresh k' c rfl)
    rintro rfl
    apply hg.awaits c rfl
  | handOver => apply h.handOver ht
  | run i x =>
    obtain ⟨sh, t', effect, hstep, rfl⟩ := step_run ht
    rw [written_run hstep]
    exact h.run hg hstep rfl rfl

theorem responses_inOrder (κ : Type) [DecidableEq κ] (qt : Qt) (shared : Shared) (k : κ)
    (s : Service κ) (w : Streams κ UInt8)
    (h : ((machine κ qt shared).withHistory (written κ qt)).ReachBy (InTurn k) (s, w))
    : w.InOrder k := by
  have hserves : s.Serves w k := by
    apply Machine.ReachBy.history_invariant (I := fun s w => s.Serves w k) _ _ h
    . rintro s rfl
      apply Serves.init qt
    . intro s w a t hs hg ht
      apply hs.step hg ht
  apply hserves.ordered.inOrder

def Alone (s : Service κ) (i : Nat) : Prop :=
  ∀ j ≠ i, (s.threads.threads j).queue = []

omit [DecidableEq κ] in
theorem Alone.inTurn (h : s.Alone i) (w : Streams κ UInt8) (hresult : x.result.Transient)
    : InTurn k (s, w) (.run i x) := by
  constructor
  . simp
  . simp
  . rintro i' x' heq
    injection heq with _ hx
    rwa [← hx]
  . rintro i' x' heq
    injection heq with hi hx
    constructor
    . simp
    . rintro i'' _ front entered heq _ _ j hj other _ hother
      injection heq with hi'
      rw [← hi', ← hi] at hj
      simp [h j hj] at hother

theorem Alone.run (h : s.Alone i) (ht : step qt s (.run i x) = some t) : t.Alone i := by
  obtain ⟨sh, t', effect, hstep, rfl⟩ := step_run ht
  intro j hj
  simpa [Function.update_of_ne hj] using h j hj

theorem Alone.handOver (h : ∀ j, (s.threads.threads j).queue = [])
    (hbranch : HtmlMessageProcessor.branch s.worker = some (i, next))
    (ht : step qt s .handOver = some t)
    : t.Alone i := by
  obtain ⟨e, rest, i', worker', threads, -, hbranch', harrive, rfl⟩ := step_handOver ht
  obtain ⟨-, rfl⟩ := Threads.arrive_cases harrive
  rw [hbranch] at hbranch'
  simp only [Option.some.injEq, Prod.mk.injEq] at hbranch'
  intro j hj
  rw [hbranch'.1] at hj
  simpa [Function.update_of_ne hj] using h j

def start : Service Unit × Streams Unit UInt8 :=
  ({ threads := { shared := { cwd := ascii "/" } } }, {})

def service : Machine (Service Unit × Streams Unit UInt8) (Label Unit) :=
  (machine Unit Qt.unix { cwd := ascii "/" }).withHistory (written Unit Qt.unix)

theorem reachBy_next (hp : service.ReachBy (InTurn ()) p) (hfresh : c.Fresh)
    (hawaits : ∀ m < p.1.received (), p.2.ledger.Settled ((), m))
    (hidle : ∀ j, (p.1.threads.threads j).queue = [])
    (hbranch : HtmlMessageProcessor.branch p.1.worker = some (i, next))
    (h : service.run p [.receive () c, .handOver] = some q)
    : service.ReachBy (InTurn ()) q ∧ q.1.Alone i := by
  rw [Machine.run_cons] at h
  obtain ⟨r, hr, h⟩ := Option.bind_eq_some_iff.mp h
  have hhandOver : service.step r .handOver = some q := by
    simpa [Machine.run_cons] using h
  have hreceive : p.1.receive () c = r.1 :=
    Option.some.inj (Machine.withHistory_step_iff.mp hr).1
  constructor
  . have hnext : service.ReachBy (InTurn ()) r := by
      refine .step hp ?_ hr
      constructor
      . rintro k c' heq
        injection heq with _ hc
        rwa [← hc]
      . intro _ _
        exact hawaits
      . simp
      . simp
    refine .step hnext ?_ hhandOver
    constructor <;> simp
  . have ht : step Qt.unix r.1 .handOver = some q.1 := (Machine.withHistory_step_iff.mp hhandOver).1
    rw [← hreceive] at ht
    exact Alone.handOver (s := p.1.receive () c) hidle hbranch ht

theorem reachBy_serve (hp : service.ReachBy (InTurn ()) p) (hi : p.1.Alone i) (n : Nat)
    (hresult : x.result.Transient) (h : service.run p (List.replicate n (.run i x)) = some q)
    : service.ReachBy (InTurn ()) q ∧ q.1.Alone i := by
  induction n generalizing p with
  | zero =>
    obtain rfl : p = q := by simpa using h
    exact ⟨hp, hi⟩
  | succ n ih =>
    rw [List.replicate_succ, Machine.run_cons] at h
    obtain ⟨r, hr, h⟩ := Option.bind_eq_some_iff.mp h
    apply ih _ _ h
    . exact .step hp (hi.inTurn p.2 hresult) hr
    . exact hi.run (Machine.withHistory_step_iff.mp hr).1

def whole : StepInput :=
  Threads.onTwoDirsWith (.accepted (Nat.succPNat 999))

def firstServed : List (Label Unit) :=
  [.receive () (get "/a"), .handOver] ++ List.replicate 10 (.run 0 whole)

def secondBegun : List (Label Unit) :=
  [.receive () (get "/b"), .handOver]
    ++ List.replicate 8 (.run 1 (Threads.onTwoDirsWith Threads.oneByte))

-- The second request is sent when the first page has been read to its end. Of the second page one
-- byte is on its way.
theorem responses_inOrder_secondBegun
    : ∃ s w, service.run start (firstServed ++ secondBegun) = some (s, w)
        ∧ w.ledger.Settled ((), 0) ∧ w.stream () = w.ledger.sent ((), 0) ++ ascii "H"
        ∧ w.InOrder () := by
  obtain ⟨handed, hhanded⟩ : ∃ p, service.run start [.receive () (get "/a"), .handOver] = some p :=
    ⟨_, rfl⟩
  obtain ⟨hfirst, halone⟩ := reachBy_next (p := start) (.init ⟨rfl, rfl⟩)
    (ClientSession.ofRequest_fresh _ _ _) (by simp [start]) (by simp [start]) rfl hhanded
  have hrun : (service.run start firstServed).any (fun p =>
      (p.1.threads.threads 0).queue.isEmpty && p.1.received () == 1
        && HtmlMessageProcessor.branch p.1.worker == some (1, 2)
        && decide (p.2.ledger.answers ((), 0) = [p.2.ledger.sent ((), 0)])
        && (service.run p secondBegun).any (fun q =>
          decide (q.2.ledger.answers ((), 0) = [q.2.ledger.sent ((), 0)]
            ∧ q.2.stream () = q.2.ledger.sent ((), 0) ++ ascii "H"))) := by
    decide +kernel
  obtain ⟨served, hserved, hrun⟩ := (Option.any_eq_true _ _).mp hrun
  simp only [Bool.and_eq_true, List.isEmpty_iff, beq_iff_eq, decide_eq_true_eq] at hrun
  obtain ⟨⟨⟨⟨hempty, hreceived⟩, hbranch⟩, hsettled⟩, hrun⟩ := hrun
  obtain ⟨⟨s, w⟩, hlast, hrun⟩ := (Option.any_eq_true _ _).mp hrun
  obtain ⟨hfirstSettled, hstream⟩ := of_decide_eq_true hrun
  have hall : service.run start (firstServed ++ secondBegun) = some (s, w) := by
    rw [Machine.run_append, hserved]
    exact hlast
  rw [firstServed, Machine.run_append, hhanded] at hserved
  obtain ⟨hreach, halone⟩ := reachBy_serve hfirst halone 10 (.inl ⟨_, rfl⟩) hserved
  rw [secondBegun, Machine.run_append] at hlast
  obtain ⟨next, hnext, hlast⟩ := Option.bind_eq_some_iff.mp hlast
  have hidle : ∀ j, (served.1.threads.threads j).queue = [] := by
    intro j
    by_cases hj : j = 0
    . rw [hj]
      exact hempty
    . exact halone j hj
  have hawaits : ∀ m < served.1.received (), served.2.ledger.Settled ((), m) := by
    intro m hm
    obtain rfl : m = 0 := by omega
    exact hsettled
  obtain ⟨hsecond, halone⟩ := reachBy_next hreach (ClientSession.ofRequest_fresh _ _ _) hawaits hidle
    hbranch hnext
  obtain ⟨hreach, -⟩ := reachBy_serve hsecond halone 8 (.inl ⟨_, rfl⟩) hlast
  exact ⟨s, w, hall, hfirstSettled, hstream, responses_inOrder Unit Qt.unix _ () s w hreach⟩

def secondFirst : List (Label Unit) :=
  [.receive () (get "/a"), .receive () (get "/b"), .handOver, .handOver]
    ++ List.replicate 8 (.run 1 (Threads.onTwoDirsWith (.accepted 1000)))
    ++ List.replicate 5 (.run 0 (Threads.onTwoDirsWith (.accepted 1000)))

-- The second request is answered first: its length has the digit 8 where the first has the 1.
theorem not_responses_inOrder
    : ¬ ∀ s w, service.ReachBy (fun _ a => (∀ k c, a = .receive k c → c.Fresh)
          ∧ ∀ i x, a = .run i x → x.result.Transient) (s, w) →
        w.InOrder () := by
  intro h
  have hrun : (service.run start secondFirst).any (fun p =>
      decide ((p.2.stream ())[77]? = some 56
        ∧ (p.2.ledger.answers ((), 0)).map (fun answer => (answer.drop 77).head?) = [some 49])) := by
    decide +kernel
  obtain ⟨⟨s, w⟩, hrun, hdifferent⟩ := (Option.any_eq_true _ _).mp hrun
  obtain ⟨hstream, hanswer⟩ := of_decide_eq_true hdifferent
  have hinOrder : w.InOrder () := by
    apply h s w
    apply Machine.ReachBy.run _ secondFirst _ hrun
    . exact .init ⟨rfl, rfl⟩
    . intro a ha _
      constructor
      . rintro k c rfl
        have : c = get "/a" ∨ c = get "/b" := by simpa [secondFirst] using ha
        rcases this with rfl | rfl
        . apply ClientSession.ofRequest_fresh
        . apply ClientSession.ofRequest_fresh
      . rintro i x rfl
        have : x = Threads.onTwoDirsWith (.accepted 1000) := by
          simp [secondFirst] at ha
          grind
        rw [this]
        exact .inl ⟨1000, rfl⟩
  obtain ⟨answers, hanswers, tail, htail⟩ := hinOrder
  dsimp only at hstream hanswer hanswers htail
  cases answers with
  | nil =>
    obtain ⟨hnone, -⟩ : w.stream () = [] ∧ tail = [] := by simpa using htail
    simp [hnone] at hstream
  | cons answer rest =>
    rw [hanswers 0 answer rfl] at hanswer
    have hdigit : answer[77]? = some 49 := by simpa using hanswer
    have := congrArg (fun bytes : Bytes => bytes[77]?) htail
    simp only [List.flatten_cons] at this
    rw [List.getElem?_append_left (List.getElem?_eq_some_iff.mp hstream).1,
      List.getElem?_append_left (List.getElem?_eq_some_iff.mp hdigit).1, hstream, hdigit] at this
    simp at this

end Service
