import OpenServer.Dispatcher.Lemmas.DispatchMessageQueue
import OpenServer.Server.Lemmas.HandOver
import OpenServer.Server.Lemmas.Pipeline
import OpenServer.Transition.Refinement

/-!
This module shows that the threads over their mutexes refine the pipeline: a hand-over takes effect
with the push, an iteration of a dispatcher with the test that pops.
-/

open HttpMessageDispatcher HtmlMessageProcessor

namespace Locking

-- What the poll thread has pushed, and what every dispatcher has popped.
structure Passage (τ : Type) where
  pushed : List (Queued τ) := []
  left : Fin 12 → List τ := fun _ => []

def State.pushes (s t : State τ) : List (Queued τ) :=
  match s.processor.producers (), t.processor.producers () with
  | .locked e, .pushed => [e]
  | _, _ => []

def pops (q q' : DispatcherState Unit τ) : List τ :=
  match q.consumer, q'.consumer, q.queue with
  | .inside .finish, .outside, front :: _ =>
    if isFinished front.session then [front.tag] else []
  | _, _, _ => []

def passage (τ : Type) : History (State τ) (Label τ) (Passage τ) where
  start := {}
  extend past s _ t :=
    { pushed := past.pushed ++ s.pushes t
      left := fun d => past.left d ++ pops (s.dispatchers d) (t.dispatchers d) }

-- The front of `qclients_` is on the queue of its dispatcher, and not popped yet.
def ahead (s : State τ) : Nat :=
  match s.handOver with
  | .pending => 0
  | .returned => 1
  | .calling d =>
    match (s.dispatchers d).producers () with
    | .pushed => 1
    | .unlocked => 1
    | _ => 0

def State.submitted (s : State τ) : List (Queued τ) :=
  s.processor.memory.messages ++ s.processor.queue

def State.dealt (s : State τ) : Nat :=
  s.processor.memory.handed.length + ahead s

-- The queue as it was when the iteration began.
def Began (qt : Qt) (q : DispatcherState Unit τ) (queue : List (Queued τ)) : Prop :=
  match q.consumer with
  | .inside .serve => q.queue = rotate queue
  | .inside .finish =>
    ∃ (turn : Turn) (front : Queued τ) (rest : _) (served : _), rotate queue = front :: rest
      ∧ serveFront qt turn.input turn.shared front.session = some served
      ∧ q.queue = { front with session := served.2.1 } :: rest
  | _ => q.queue = queue

structure Represents (qt : Qt) (p : State τ × Passage τ) (r : Pipeline τ) : Prop where
  pushed : r.submitted = p.2.pushed
  submitted : r.submitted = p.1.submitted
  dealt : r.dealt = p.1.dealt
  queues : ∀ d, Began qt (p.1.dispatchers d) (r.queues d)
  left : r.left = p.2.left

variable {qt : Qt} {s t : State τ} {past : Passage τ} {r : Pipeline τ}

theorem pushes_eq_nil (h : t.processor.producers () = .pushed → s.processor.producers () = .pushed)
    : s.pushes t = [] := by
  unfold State.pushes
  split
  . next hlocked hpushed => simp [h hpushed] at hlocked
  . rfl

theorem pops_eq_nil {q q' : DispatcherState Unit τ}
    (h : q.consumer = .inside .finish → q'.consumer ≠ .outside)
    : pops q q' = [] := by
  unfold pops
  split
  . next hfinish houtside _ => exact absurd houtside (h hfinish)
  . rfl

theorem pops_self (q : DispatcherState Unit τ) : pops q q = [] := by
  apply pops_eq_nil
  intro hfinish
  simp [hfinish]

theorem began_iff {q : DispatcherState Unit τ} (hserve : q.consumer ≠ .inside .serve)
    (hfinish : q.consumer ≠ .inside .finish)
    : Began qt q queue ↔ q.queue = queue := by
  unfold Began
  split
  . next h => exact absurd h hserve
  . next h => exact absurd h hfinish
  . rfl

theorem Began.of_same {q q' : DispatcherState Unit τ} (h : Began qt q queue)
    (hqueue : q'.queue = q.queue) (hconsumer : q'.consumer = q.consumer)
    : Began qt q' queue := by
  unfold Began
  rw [hqueue, hconsumer]
  exact h

-- The iteration takes effect with its last step.
theorem Began.finish {q q' : DispatcherState Unit τ} (h : Began qt q queue)
    (hpoint : q.consumer = .inside .finish)
    (hact : Point.act qt .finish q.memory q.queue turn = some (m, q'.queue, .unlock))
    (hconsumer : q'.consumer = .outside)
    : ∃ (turn : Turn) (r : Iteration τ), iterate qt turn.input turn.shared queue = some r
        ∧ Began qt q' r.queue ∧ pops q q' = if r.popped then [r.worked] else [] := by
  simp only [Began, hpoint] at h
  obtain ⟨began, front, rest, ⟨sh, c, loop⟩, hrotate, hserve, hqueue⟩ := h
  obtain ⟨front', rest', hfront, -, hq'⟩ := Point.act_finish_cases hact
  rw [hqueue] at hfront
  injection hfront with hfront hrest
  subst hfront hrest
  have hbegan : ∀ others, q'.queue = others → Began qt q' others := by
    intro others hothers
    rw [began_iff (by simp [hconsumer]) (by simp [hconsumer])]
    exact hothers
  by_cases hfinished : isFinished c
  . refine ⟨began, { shared := sh, queue := rest, worked := front.tag, loop, popped := true,
                       close := closeRequest c }, ?_, hbegan rest ?_, ?_⟩
    . simp [iterate, hrotate, hserve, hfinished]
    . simpa [hfinished] using hq'
    . simp [pops, hpoint, hconsumer, hqueue, hfinished]
  . refine ⟨began, { shared := sh, queue := { front with session := c } :: rest, worked := front.tag,
                       loop, popped := false, close := none }, ?_, hbegan _ ?_, ?_⟩
    . simp [iterate, hrotate, hserve, hfinished]
    . simpa [hfinished, hqueue] using hq'
    . simp [pops, hpoint, hconsumer, hqueue, hfinished]

theorem Began.act {q q' : DispatcherState Unit τ} {point : HttpMessageDispatcher.Point}
    (h : Began qt q queue) (hpoint : q.consumer = .inside point)
    (hafter : (dispatchMessageQueue qt).After q point turn q')
    : (Began qt q' queue ∧ pops q q' = [])
        ∨ ∃ (turn : Turn) (r : Iteration τ), iterate qt turn.input turn.shared queue = some r
          ∧ Began qt q' r.queue ∧ pops q q' = if r.popped then [r.worked] else [] := by
  cases point with
  | test =>
    refine .inl ⟨?_, pops_eq_nil (by simp [hpoint])⟩
    rw [began_iff (by simp [hpoint]) (by simp [hpoint])] at h
    cases hafter with
    | goto hact =>
      obtain ⟨rfl, ⟨hwait, -⟩ | ⟨hgoto, -⟩⟩ := Point.act_test_cases hact
      . cases hwait
      . injection hgoto with hgoto
        subst hgoto
        exact h
    | wait hact =>
      obtain ⟨rfl, -⟩ := Point.act_test_cases hact
      exact h
    | unlock hact => obtain ⟨-, ⟨hwait, -⟩ | ⟨hgoto, -⟩⟩ := Point.act_test_cases hact <;> contradiction
  | rotate =>
    refine .inl ⟨?_, pops_eq_nil (by simp [hpoint])⟩
    rw [began_iff (by simp [hpoint]) (by simp [hpoint])] at h
    cases hafter with
    | goto hact =>
      obtain ⟨rfl, -, hgoto⟩ := Point.act_rotate_cases hact
      injection hgoto with hgoto
      subst hgoto
      rw [← h]
      exact rfl
    | wait hact => cases (Point.act_rotate_cases hact).2.2
    | unlock hact => cases (Point.act_rotate_cases hact).2.2
  | serve =>
    refine .inl ⟨?_, pops_eq_nil (by simp [hpoint])⟩
    simp only [Began, hpoint] at h
    cases hafter with
    | goto hact =>
      obtain ⟨front, rest, sh, c, loop, hfront, hserve, rfl, hgoto⟩ := Point.act_serve_cases hact
      injection hgoto with hgoto
      subst hgoto
      exact ⟨turn, front, rest, (sh, c, loop), h ▸ hfront, hserve, rfl⟩
    | wait hact => obtain ⟨_, _, _, _, _, -, -, -, hgoto⟩ := Point.act_serve_cases hact; cases hgoto
    | unlock hact => obtain ⟨_, _, _, _, _, -, -, -, hgoto⟩ := Point.act_serve_cases hact; cases hgoto
  | finish =>
    cases hafter with
    | unlock hact => exact .inr (h.finish hpoint hact rfl)
    | goto hact => obtain ⟨_, _, -, hunlock, -⟩ := Point.act_finish_cases hact; cases hunlock
    | wait hact => obtain ⟨_, _, -, hunlock, -⟩ := Point.act_finish_cases hact; cases hunlock

theorem Began.consumer {q q' : DispatcherState Unit τ} {c : ConsumerStep Turn}
    (h : Began qt q queue) (hs : Monitor.step (dispatchMessageQueue qt) q c.label = some q')
    : (Began qt q' queue ∧ pops q q' = [])
        ∨ ∃ (turn : Turn) (r : Iteration τ), iterate qt turn.input turn.shared queue = some r
          ∧ Began qt q' r.queue ∧ pops q q' = if r.popped then [r.worked] else [] := by
  cases c with
  | lock =>
    obtain ⟨houtside, -, rfl⟩ := Monitor.step_lock hs
    refine .inl ⟨?_, pops_eq_nil (by simp [houtside])⟩
    rw [began_iff (by simp [houtside]) (by simp [houtside])] at h
    exact h
  | act turn =>
    obtain ⟨point, hpoint, hafter⟩ := Monitor.step_act hs
    exact h.act hpoint hafter
  | wake =>
    obtain ⟨hnotified, -, rfl⟩ := Monitor.step_wake hs
    refine .inl ⟨?_, pops_eq_nil (by simp [hnotified])⟩
    rw [began_iff (by simp [hnotified]) (by simp [hnotified])] at h
    exact h
  | spurious =>
    obtain ⟨hblocked, rfl⟩ := Monitor.step_spurious hs
    refine .inl ⟨?_, pops_eq_nil (by simp [hblocked])⟩
    rw [began_iff (by simp [hblocked]) (by simp [hblocked])] at h
    exact h

theorem Began.producer {q q' : DispatcherState Unit τ} {p : ProducerStep}
    (h : Began qt q queue) (hexclusive : Monitor.Exclusive q)
    (hs : Monitor.step (dispatchMessageQueue qt) q p.label = some q')
    : pops q q' = [] ∧ Began qt q' (queue ++ p.adds (q.producers ())) := by
  cases p with
  | lock =>
    obtain ⟨a, -, -, rfl⟩ := Monitor.step_lockProducer hs
    refine ⟨pops_eq_nil ?_, ?_⟩
    . intro hfinish
      simp [hfinish]
    . simp only [ProducerStep.adds, List.append_nil]
      exact h.of_same rfl rfl
  | push =>
    obtain ⟨a, ha, rfl⟩ := Monitor.step_push hs
    have howner := hexclusive.locked () a ha
    have hinside : ∀ point, q.consumer ≠ .inside point := by
      intro point hpoint
      simp [hexclusive.inside point hpoint] at howner
    refine ⟨pops_eq_nil (fun hfinish => absurd hfinish (hinside _)), ?_⟩
    rw [began_iff (hinside _) (hinside _)] at h
    rw [began_iff]
    . simp [ProducerStep.adds, ha, Monitor.ProducerPc.pending, h]
    . exact hinside _
    . exact hinside _
  | unlock =>
    obtain ⟨-, rfl⟩ := Monitor.step_unlockProducer hs
    refine ⟨pops_eq_nil ?_, ?_⟩
    . intro hfinish
      simp [hfinish]
    . simp only [ProducerStep.adds, List.append_nil]
      exact h.of_same rfl rfl
  | notifyOne =>
    obtain ⟨-, rfl⟩ := Monitor.step_notifyOne hs
    refine ⟨pops_eq_nil ?_, ?_⟩
    . intro hfinish
      simp [hfinish, Monitor.ConsumerPc.notify]
    . simp only [ProducerStep.adds, List.append_nil]
      unfold Began at h ⊢
      cases hc : q.consumer <;> simpa [hc, Monitor.ConsumerPc.notify] using h

theorem setDispatcher_dispatchers (s : State τ) (d e : Fin 12) (q : DispatcherState Unit τ)
    : (s.setDispatcher d q).dispatchers e = if e = d then q else s.dispatchers e := by
  simp [State.setDispatcher, Function.update_apply]

theorem Represents.stutter (h : Represents qt (s, past) r) (hsubmitted : t.submitted = s.submitted)
    (hdealt : t.dealt = s.dealt) (hpushes : s.pushes t = [])
    (hbegan : ∀ d, Began qt (t.dispatchers d) (r.queues d))
    (hpops : ∀ d, pops (s.dispatchers d) (t.dispatchers d) = [])
    : Represents qt (t, (passage τ).extend past s l t) r := by
  constructor
  . simp [passage, hpushes, h.pushed]
  . simp [hsubmitted, h.submitted]
  . simp [hdealt, h.dealt]
  . exact hbegan
  . simp [passage, hpops, h.left]

theorem Represents.poll (h : Represents qt (s, past) r)
    (hs : Monitor.step processMessageQueue s.processor (ProducerStep.label p) = some m)
    (ht : t = { s with processor := m })
    : ∃ r', (Pipeline.machine τ qt).LeadsTo (fun _ _ => True) r r'
        ∧ Represents qt (t, (passage τ).extend past s l t) r' := by
  obtain ⟨hmemory, hqueue⟩ := ProducerStep.queue_eq hs
  have hdealt : t.dealt = s.dealt := by
    simp [ht, State.dealt, hmemory, ahead]
  have hsubmitted : t.submitted = s.submitted ++ p.adds (s.processor.producers ()) := by
    simp [ht, State.submitted, hmemory, hqueue]
  have hdispatchers : t.dispatchers = s.dispatchers := by
    rw [ht]
  have hstutter : p.adds (s.processor.producers ()) = [] → s.pushes t = [] →
      Represents qt (t, (passage τ).extend past s l t) r := by
    intro hadds hpushes
    apply h.stutter _ hdealt hpushes
    . rw [hdispatchers]
      exact h.queues
    . intro d
      rw [hdispatchers, pops_self]
    . rw [hsubmitted, hadds, List.append_nil]
  cases p with
  | push =>
    obtain ⟨e, he, rfl⟩ := Monitor.step_push hs
    have hpushes : s.pushes t = [e] := by
      simp [State.pushes, ht, he, Monitor.State.setProducer_producers]
    simp only [ProducerStep.adds, he, Monitor.ProducerPc.pending] at hsubmitted
    refine ⟨{ r with submitted := r.submitted ++ [e] }, Pipeline.leadsTo (.submit e) rfl, ?_⟩
    constructor
    . simp [passage, hpushes, h.pushed]
    . simp [hsubmitted, h.submitted]
    . simp [hdealt, h.dealt]
    . intro d
      simp only [hdispatchers]
      exact h.queues d
    . simp [passage, hdispatchers, pops_self, h.left]
  | lock =>
    obtain ⟨e, he, -, rfl⟩ := Monitor.step_lockProducer hs
    refine ⟨r, .refl r, hstutter rfl (pushes_eq_nil ?_)⟩
    simp [ht, Monitor.State.setProducer_producers]
  | unlock =>
    obtain ⟨he, rfl⟩ := Monitor.step_unlockProducer hs
    refine ⟨r, .refl r, hstutter rfl (pushes_eq_nil ?_)⟩
    simp [ht, Monitor.State.setProducer_producers]
  | notifyOne =>
    obtain ⟨he, rfl⟩ := Monitor.step_notifyOne hs
    refine ⟨r, .refl r, hstutter rfl (pushes_eq_nil ?_)⟩
    simp [ht, Monitor.State.setProducer_producers]

theorem moved_of_processor (hcarrying : Carrying s) (hmay : s.mayPop)
    (hs : Monitor.step processMessageQueue s.processor (ConsumerStep.label c) = some m)
    : State.submitted { s with processor := m, handOver := .pending } = s.submitted
        ∧ State.dealt { s with processor := m, handOver := .pending } = s.dealt := by
  have hstill : m.memory = s.processor.memory → m.queue = s.processor.queue →
      s.handOver = .pending →
      State.submitted { s with processor := m, handOver := .pending } = s.submitted
        ∧ State.dealt { s with processor := m, handOver := .pending } = s.dealt := by
    intro hmemory hqueue hpending
    simp [State.submitted, State.dealt, ahead, hmemory, hqueue, hpending]
  have hpending : s.processor.consumer ≠ .inside .drain ∨ s.processor.queue = [] →
      s.handOver = .pending := by
    intro hnot
    unfold State.mayPop at hmay
    split at hmay
    . next hdrain hqueue => simp [hdrain, hqueue] at hnot
    . simpa using hmay
  cases c with
  | lock =>
    obtain ⟨houtside, -, rfl⟩ := Monitor.step_lock hs
    exact hstill rfl rfl (hpending (.inl (by simp [houtside])))
  | wake =>
    obtain ⟨hnotified, -, rfl⟩ := Monitor.step_wake hs
    exact hstill rfl rfl (hpending (.inl (by simp [hnotified])))
  | spurious =>
    obtain ⟨hblocked, rfl⟩ := Monitor.step_spurious hs
    exact hstill rfl rfl (hpending (.inl (by simp [hblocked])))
  | act x =>
    obtain ⟨point, hpoint, hafter⟩ := Monitor.step_act hs
    cases point with
    | wait =>
      have := hpending (.inl (by simp [hpoint]))
      cases hafter with
      | wait hact =>
        simp only [processMessageQueue, HtmlMessageProcessor.Point.act, Option.some.injEq,
          Prod.mk.injEq] at hact
        exact hstill hact.1.symm hact.2.1.symm this
      | goto hact => cases hact
      | unlock hact => cases hact
    | drain =>
      cases hqueue : s.processor.queue with
      | nil =>
        have := hpending (.inr hqueue)
        cases hafter with
        | unlock hact =>
          simp only [processMessageQueue, HtmlMessageProcessor.Point.act, hqueue, Option.some.injEq,
            Prod.mk.injEq] at hact
          exact hstill hact.1.symm (by rw [hqueue]; exact hact.2.1.symm) this
        | goto hact => simp [processMessageQueue, HtmlMessageProcessor.Point.act, hqueue] at hact
        | wait hact => simp [processMessageQueue, HtmlMessageProcessor.Point.act, hqueue] at hact
      | cons front rest =>
        have hreturned : s.handOver = .returned := by
          simpa [State.mayPop, hpoint, hqueue] using hmay
        cases hafter with
        | goto hact =>
          rw [hqueue] at hact
          obtain ⟨rfl, hhanded, -⟩ := drain_cases hcarrying.inTurn hact
          simp [State.submitted, State.dealt, ahead, Memory.messages, hhanded, hqueue, hreturned]
        | wait hact =>
          rw [hqueue] at hact
          cases (drain_cases hcarrying.inTurn hact).2.2
        | unlock hact =>
          rw [hqueue] at hact
          cases (drain_cases hcarrying.inTurn hact).2.2

theorem Represents.processor (h : Represents qt (s, past) r) (hcarrying : Carrying s)
    (hmay : s.mayPop)
    (hs : Monitor.step processMessageQueue s.processor (ConsumerStep.label c) = some m)
    (ht : t = { s with processor := m, handOver := .pending })
    : Represents qt (t, (passage τ).extend past s l t) r := by
  have hmoved := moved_of_processor hcarrying hmay hs
  rw [← ht] at hmoved
  apply h.stutter hmoved.1 hmoved.2
  . apply pushes_eq_nil
    simp [ht, ConsumerStep.producers_eq hs]
  . rw [ht]
    exact h.queues
  . rw [ht]
    exact fun d => pops_self _

theorem Represents.called (h : Represents qt (s, past) r)
    (ht : step qt s .onNewMessageArrived = some t)
    : Represents qt (t, (passage τ).extend past s l t) r := by
  obtain ⟨front, rest, dispatcher, worker, q, hpending, -, -, -, hs, rfl⟩ := step_called ht
  obtain ⟨-, rfl⟩ := Monitor.step_call hs
  apply h.stutter
  . rfl
  . simp [State.dealt, ahead, hpending, State.setDispatcher, Monitor.State.setProducer_producers]
  . exact pushes_eq_nil (fun hpushed => hpushed)
  . intro d
    dsimp only
    rw [setDispatcher_dispatchers]
    split
    . next hd =>
      subst hd
      exact (h.queues _).of_same rfl rfl
    . exact h.queues d
  . intro d
    dsimp only
    rw [setDispatcher_dispatchers]
    split
    . next hd =>
      subst hd
      apply pops_eq_nil
      intro hfinish houtside
      cases hfinish.symm.trans houtside
    . exact pops_self _

theorem ahead_calling (h : s.handOver = .calling d)
    : ahead s = match (s.dispatchers d).producers () with
      | .pushed => 1
      | .unlocked => 1
      | _ => 0 := by
  simp only [ahead, h]

theorem Represents.pushed_deal (h : Represents qt (s, past) r) (hcarrying : Carrying s)
    (hcalling : s.handOver = .calling d) (he : (s.dispatchers d).producers () = .locked e)
    : r.deal = some { r with
        dealt := r.dealt + 1
        queues := Function.update r.queues d (r.queues d ++ [e]) } := by
  obtain ⟨hworker, front, rest, hfront, hcarried⟩ := hcarrying.carried d hcalling
  have hsame := hcarried e (.inr he)
  subst hsame
  have hdealt : r.dealt = s.processor.memory.handed.length := by
    simp [h.dealt, State.dealt, ahead_calling hcalling, he]
  have hd : r.dealt % 12 = d := by
    rw [hworker, hcarrying.inTurn.worker, hdealt]
    rfl
  have hnext : r.submitted[r.dealt]? = some e := by
    rw [h.submitted, hdealt]
    simp [State.submitted, Memory.messages, hfront]
  simp [Pipeline.deal, hnext, hd]

theorem Represents.handOver (h : Represents qt (s, past) r) (hcarrying : Carrying s)
    (hexclusive : Monitor.Exclusive (s.dispatchers d)) (hcalling : s.handOver = .calling d)
    (hs : Monitor.step (dispatchMessageQueue qt) (s.dispatchers d) (ProducerStep.label p) = some q)
    (ht : t = { s.setDispatcher d q with handOver := p.handOver d })
    : ∃ r', (Pipeline.machine τ qt).LeadsTo (fun _ _ => True) r r'
        ∧ Represents qt (t, (passage τ).extend past s l t) r' := by
  obtain ⟨hpops, hbegan⟩ := (h.queues d).producer hexclusive hs
  have hdispatchers : ∀ d', t.dispatchers d' = if d' = d then q else s.dispatchers d' := by
    intro d'
    rw [ht]
    exact setDispatcher_dispatchers s d d' q
  have hprocessor : t.processor = s.processor := by
    rw [ht]
    rfl
  have hpops' : ∀ d', pops (s.dispatchers d') (t.dispatchers d') = [] := by
    intro d'
    rw [hdispatchers]
    split
    . next hd =>
      subst hd
      exact hpops
    . exact pops_self _
  have hpushes : s.pushes t = [] := by
    apply pushes_eq_nil
    rw [ht]
    exact fun hpushed => hpushed
  have hsubmitted : t.submitted = s.submitted := by
    rw [ht]
    rfl
  have hstutter : p.adds ((s.dispatchers d).producers ()) = [] → ahead t = ahead s →
      Represents qt (t, (passage τ).extend past s l t) r := by
    intro hadds hahead
    rw [hadds, List.append_nil] at hbegan
    apply h.stutter hsubmitted _ hpushes _ hpops'
    . rw [State.dealt, hahead, hprocessor, State.dealt]
    . intro d'
      rw [hdispatchers]
      split
      . next hd =>
        subst hd
        exact hbegan
      . exact h.queues d'
  cases p with
  | push =>
    obtain ⟨e, he, rfl⟩ := Monitor.step_push hs
    have hdeal := h.pushed_deal hcarrying hcalling he
    simp only [ProducerStep.adds, he, Monitor.ProducerPc.pending] at hbegan
    refine ⟨_, Pipeline.leadsTo .deal hdeal, ?_⟩
    constructor
    . simp [passage, hpushes, h.pushed]
    . simp [hsubmitted, h.submitted]
    . have hs0 := ahead_calling hcalling
      have ht1 : ahead t = 1 := by
        simp [ht, ahead, ProducerStep.handOver, State.setDispatcher,
          Monitor.State.setProducer_producers]
      simp only [he] at hs0
      simp only [h.dealt, State.dealt, hs0, ht1, hprocessor]
    . intro d'
      by_cases hd : d' = d
      . subst hd
        simpa [hdispatchers] using hbegan
      . simpa [hdispatchers, hd] using h.queues d'
    . simp [passage, hpops', h.left]
  | lock =>
    obtain ⟨e, he, -, rfl⟩ := Monitor.step_lockProducer hs
    refine ⟨r, .refl r, hstutter rfl ?_⟩
    rw [ahead_calling hcalling, he]
    simp [ht, ahead, ProducerStep.handOver, State.setDispatcher,
      Monitor.State.setProducer_producers]
  | unlock =>
    obtain ⟨he, rfl⟩ := Monitor.step_unlockProducer hs
    refine ⟨r, .refl r, hstutter rfl ?_⟩
    rw [ahead_calling hcalling, he]
    simp [ht, ahead, ProducerStep.handOver, State.setDispatcher,
      Monitor.State.setProducer_producers]
  | notifyOne =>
    obtain ⟨he, rfl⟩ := Monitor.step_notifyOne hs
    refine ⟨r, .refl r, hstutter rfl ?_⟩
    rw [ahead_calling hcalling, he]
    simp [ht, ahead, ProducerStep.handOver]

theorem Represents.dispatcher (h : Represents qt (s, past) r)
    (hs : Monitor.step (dispatchMessageQueue qt) (s.dispatchers d) (ConsumerStep.label c) = some q)
    (ht : t = (s.setDispatcher d q).setClosing d .outside)
    : ∃ r', (Pipeline.machine τ qt).LeadsTo (fun _ _ => True) r r'
        ∧ Represents qt (t, (passage τ).extend past s l t) r' := by
  have hdispatchers : ∀ d', t.dispatchers d' = if d' = d then q else s.dispatchers d' := by
    intro d'
    rw [ht]
    exact setDispatcher_dispatchers s d d' q
  have hpushes : s.pushes t = [] := by
    apply pushes_eq_nil
    rw [ht]
    exact fun hpushed => hpushed
  have hsubmitted : t.submitted = s.submitted := by
    rw [ht]
    rfl
  have hdealt : t.dealt = s.dealt := by
    have hahead : ahead t = ahead s := by
      have hhandOver : t.handOver = s.handOver := by rw [ht]; rfl
      have hproducers : ∀ d', (t.dispatchers d').producers = (s.dispatchers d').producers := by
        intro d'
        rw [hdispatchers]
        split
        . next hd =>
          subst hd
          exact ConsumerStep.producers_eq hs
        . rfl
      simp only [ahead, hhandOver, hproducers]
    rw [State.dealt, hahead, ht]
    rfl
  rcases (h.queues d).consumer hs with ⟨hbegan, hpops⟩ | ⟨turn, served, hserved, hbegan, hpops⟩
  . refine ⟨r, .refl r, h.stutter hsubmitted hdealt hpushes ?_ ?_⟩
    . intro d'
      rw [hdispatchers]
      split
      . next hd =>
        subst hd
        exact hbegan
      . exact h.queues d'
    . intro d'
      rw [hdispatchers]
      split
      . next hd =>
        subst hd
        exact hpops
      . exact pops_self _
  . refine ⟨{ r with
        queues := Function.update r.queues d served.queue
        left := Function.update r.left d
          (r.left d ++ if served.popped then [served.worked] else []) },
      Pipeline.leadsTo (.iterate d turn) ?_, ?_⟩
    . simp [Pipeline.step, Pipeline.iterate, hserved]
    . constructor
      . simp [passage, hpushes, h.pushed]
      . simp [hsubmitted, h.submitted]
      . simp [hdealt, h.dealt]
      . intro d'
        by_cases hd : d' = d
        . subst hd
          simpa [hdispatchers] using hbegan
        . simpa [hdispatchers, hd] using h.queues d'
      . funext d'
        by_cases hd : d' = d
        . subst hd
          simp [passage, hdispatchers, hpops, h.left]
        . simp [passage, hdispatchers, hd, pops_self, h.left]

theorem Represents.step (h : Represents qt (s, past) r) (hs : (machine τ qt).Reachable s)
    (hcarrying : Carrying s) (ht : Locking.step qt s l = some t)
    : ∃ r', (Pipeline.machine τ qt).LeadsTo (fun _ _ => True) r r'
        ∧ Represents qt (t, (passage τ).extend past s l t) r' := by
  have hdispatchers := (components_reachable hs).2
  have hother : t.processor.memory = s.processor.memory → t.processor.queue = s.processor.queue →
      t.handOver = s.handOver → t.dispatchers = s.dispatchers →
      (t.processor.producers () = .pushed → s.processor.producers () = .pushed) →
      ∃ r', (Pipeline.machine τ qt).LeadsTo (fun _ _ => True) r r'
        ∧ Represents qt (t, (passage τ).extend past s l t) r' := by
    intro hmemory hqueue hhandOver hsame hpushed
    refine ⟨r, .refl r, h.stutter ?_ ?_ (pushes_eq_nil hpushed) ?_ ?_⟩
    . simp [State.submitted, hmemory, hqueue]
    . simp [State.dealt, ahead, hmemory, hhandOver, hsame]
    . rw [hsame]
      exact h.queues
    . rw [hsame]
      exact fun d => pops_self _
  by_cases hl : l = .onNewMessageArrived
  . subst hl
    exact ⟨r, .refl r, h.called ht⟩
  . cases step_cases ht with
    | onNewClientMessage _ hs =>
      obtain ⟨-, rfl⟩ := Monitor.step_call hs
      apply hother rfl rfl rfl rfl
      simp [Monitor.State.setProducer_producers]
    | poll p hs => exact h.poll hs rfl
    | processor c hmay hs => exact ⟨r, .refl r, h.processor hcarrying hmay hs rfl⟩
    | onNewMessageArrived d hpending => exact absurd (label_of_called ht hpending rfl) hl
    | handOver d p hcalling hs =>
      exact h.handOver hcarrying (Monitor.exclusive_of_reachBy (hdispatchers d)) hcalling hs rfl
    | dispatcher d c _ hs => exact h.dispatcher hs rfl
    | _ => exact hother rfl rfl rfl rfl (fun hpushed => hpushed)

theorem simulates_pipeline (τ : Type) (qt : Qt)
    : ((machine τ qt).withHistory (passage τ)).Refines (Pipeline.machine τ qt) (Represents qt) := by
  constructor
  . rintro ⟨s, past⟩ ⟨rfl, rfl⟩
    refine ⟨{}, rfl, ?_⟩
    constructor <;> first | rfl | exact fun _ => rfl
  . rintro ⟨s, past⟩ l ⟨t, past'⟩ r hs _ h _ ht
    obtain ⟨ht, hpast⟩ := Machine.withHistory_step_iff.mp ht
    dsimp only at ht hpast
    rw [hpast]
    have hreach : (machine τ qt).Reachable s := Machine.Reachable.forget hs
    exact h.step hreach (carrying_of_reachable hreach) ht

theorem locking_refines (τ : Type) (qt : Qt)
    : ((machine τ qt).withHistory (passage τ)).Refines (Pipeline.machine τ qt) (Represents qt)
        ∧ ∀ s, (machine τ qt).Reachable s → ∀ shared d,
          ∃ q, (Queue.machine qt { shared, sessions := [] }).Reachable q
            ∧ Began qt (s.dispatchers d) q.sessions := by
  have hrefines := simulates_pipeline τ qt
  refine ⟨hrefines, ?_⟩
  intro s hs shared d
  obtain ⟨past, hpast⟩ := hs.remember (passage τ)
  have hqueue := hrefines.trans (Pipeline.refines_queue τ qt shared d)
  obtain ⟨q, hq, r, -, hrepresents, hsessions⟩ := hqueue.reachBy hpast
  refine ⟨q, hq, ?_⟩
  rw [hsessions]
  exact hrepresents.queues d

def onFileA : Turn where
  shared := { cwd := ascii "/" }
  input := inputOfA (ascii "hi") Threads.oneByte

-- The dispatcher is about to serve the request that it has been given.
def aboutToServe (d : Fin 12) : List (Label Nat) :=
  [.processor .lock, .processor (.act ()), .onNewClientMessage ⟨0, requestForA⟩, .poll .lock,
    .poll .push, .poll .unlock, .poll .notifyOne, .processor .wake, .onNewMessageArrived,
    .handOver .lock, .handOver .push, .handOver .unlock, .handOver .notifyOne, .dispatcher d .lock,
    .dispatcher d (.act onFileA), .dispatcher d (.act onFileA)]

-- The session has been served, and is not popped yet.
theorem locking_refines_inService
    : ∃ s, (machine Nat Qt.unix).run {} (aboutToServe 0 ++ [.dispatcher 0 (.act onFileA)]) = some s
        ∧ (s.dispatchers 0).consumer = .inside .finish ∧ (s.dispatchers 0).queue.length = 1
        ∧ ∃ q, (Queue.machine Qt.unix { shared := { cwd := ascii "/" }, sessions := [] }).Reachable q
          ∧ Began Qt.unix (s.dispatchers 0) q.sessions := by
  obtain ⟨s, hs, hfinish, hlength⟩ : ∃ s, (machine Nat Qt.unix).run {}
      (aboutToServe 0 ++ [.dispatcher 0 (.act onFileA)]) = some s
        ∧ (s.dispatchers 0).consumer = .inside .finish ∧ (s.dispatchers 0).queue.length = 1 :=
    ⟨_, rfl, rfl, rfl⟩
  refine ⟨s, hs, hfinish, hlength, ?_⟩
  refine (locking_refines Nat Qt.unix).2 s ?_ { cwd := ascii "/" } 0
  exact Machine.Reachable.run (.init rfl) _ hs

theorem Began.tags_perm {q : DispatcherState Unit τ} (h : Began qt q queue)
    : (q.queue.map (·.tag)).Perm (queue.map (·.tag)) := by
  unfold Began at h
  split at h
  . rw [h]
    exact (rotate_perm queue).map _
  . obtain ⟨turn, front, rest, served, hrotate, -, hqueue⟩ := h
    have := (rotate_perm queue).map (·.tag)
    rw [hrotate] at this
    simpa [hqueue] using this
  . rw [h]

theorem queues_conserved (τ : Type) (qt : Qt)
    : ∀ s past, ((machine τ qt).withHistory (passage τ)).Reachable (s, past) →
        s.submitted = past.pushed ∧ s.dealt ≤ past.pushed.length
          ∧ ∀ d : Fin 12, ∃ arrived : List (Queued τ),
            (∀ j : Nat, arrived[j]? = (past.pushed.take s.dealt)[12 * j + d]?)
            ∧ ((s.dispatchers d).queue.map (·.tag) ++ past.left d).Perm (arrived.map (·.tag)) := by
  intro s past hs
  obtain ⟨r, hr, h⟩ := (simulates_pipeline τ qt).reachBy hs
  have hconserved := Pipeline.conserved_of_reachable hr
  have hle := hconserved.dealt_le
  rw [h.pushed, h.dealt] at hle
  refine ⟨h.submitted.symm.trans h.pushed, hle, ?_⟩
  intro d
  refine ⟨r.dealtTo d, ?_, ?_⟩
  . intro j
    rw [Pipeline.dealtTo, RoundRobin.getElem?_received_deal d.isLt, h.pushed, h.dealt]
  . have hperm := hconserved.perm d
    rw [h.left] at hperm
    exact ((h.queues d).tags_perm.append_right _).trans hperm

-- The session is on the queue of its dispatcher, and its copy still in front of `qclients_`.
def pushToFree : List (Label Nat) :=
  [.processor .lock, .processor (.act ()), .onNewClientMessage ⟨0, { socket := 5 }⟩, .poll .lock,
    .poll .push, .poll .unlock, .poll .notifyOne, .processor .wake, .onNewMessageArrived,
    .handOver .lock, .handOver .push]

theorem queues_conserved_pushToFree
    : ∃ s past, ((machine Nat Qt.unix).withHistory (passage Nat)).run ({}, {}) pushToFree
          = some (s, past)
        ∧ s.processor.queue ≠ [] ∧ s.dealt = 1
        ∧ ∃ arrived : List (Queued Nat), arrived[0]? = (past.pushed.take s.dealt)[0]?
          ∧ ((s.dispatchers 0).queue.map (·.tag) ++ past.left 0).Perm (arrived.map (·.tag)) := by
  obtain ⟨⟨s, past⟩, hrun, hqueue, hdealt⟩ :
      ∃ p, ((machine Nat Qt.unix).withHistory (passage Nat)).run ({}, {}) pushToFree = some p
        ∧ p.1.processor.queue ≠ [] ∧ p.1.dealt = 1 :=
    ⟨_, rfl, List.cons_ne_nil _ _, rfl⟩
  refine ⟨s, past, hrun, hqueue, hdealt, ?_⟩
  obtain ⟨-, -, hqueues⟩ := queues_conserved Nat Qt.unix s past
    (Machine.Reachable.run (s := (({} : State Nat), ({} : Passage Nat))) (.init ⟨rfl, rfl⟩) pushToFree
      hrun)
  obtain ⟨arrived, harrived, hperm⟩ := hqueues 0
  exact ⟨arrived, harrived 0, hperm⟩

end Locking
