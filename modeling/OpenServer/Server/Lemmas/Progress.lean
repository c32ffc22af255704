import OpenServer.Server.Lemmas.Refinement

/-!
This module shows that work never stands still: a dispatcher that has a session can take a step, or the
thread that it waits for can, whatever files, `cache_` and sockets answer.
-/

open HttpMessageDispatcher HtmlMessageProcessor

namespace Locking

def Label.thread : Label τ → ThreadId
  | .onNewClientMessage _ => .poll
  | .poll _ => .poll
  | .checkClosedSessions => .poll
  | .lockClose => .poll
  | .clear => .poll
  | .checked => .poll
  | .processor _ => .processor
  | .onNewMessageArrived => .processor
  | .handOver _ => .processor
  | .dispatcher d _ => .dispatcher d
  | .requestClose d => .dispatcher d
  | .lockRequest d => .dispatcher d
  | .pushBack d => .dispatcher d

-- No new message, no spurious wake-up, and nothing that takes an answer from outside.
def Label.Internal : Label τ → Prop
  | .onNewClientMessage _ => False
  | .processor .spurious => False
  | .dispatcher _ .spurious => False
  | .dispatcher _ (.act _) => False
  | _ => True

-- The files can be read, but what they hold, what is in `cache_` and what `send` answers is not in the
-- hands of the thread.
def State.CanStep (qt : Qt) (s : State τ) (u : ThreadId) : Prop :=
  (∃ l, l.Internal ∧ l.thread = u ∧ (step qt s l).isSome)
    ∨ ∃ d, u = .dispatcher d ∧ ∀ turn : Turn,
      (∀ e, (s.dispatchers d).queue.head? = some e → turn.Readable e.session) →
        (step qt s (.dispatcher d (.act turn))).isSome

-- The thread that dispatcher `d` depends on: its own, the one that holds what it waits for, or the one
-- that owes it a notification.
inductive State.DependsOn (s : State τ) (d : Fin 12) : ThreadId → Prop where
  | itself : DependsOn s d (.dispatcher d)
  | holder : s.locks.waits (.dispatcher d) m → s.locks.holds u m → DependsOn s d u
  | notifier : (s.dispatchers d).consumer = .blocked → (s.dispatchers d).Pending
      → DependsOn s d .processor

def SubmitsServable (qt : Qt) (_ : State τ) (l : Label τ) : Prop :=
  ∀ e, l = .onNewClientMessage e → Servable qt e.session

-- A close request in progress is about the session at the front.
def Asking (s : State τ) : Prop :=
  ∀ d, s.closing d ≠ .outside → (State.asksFor (s.dispatchers d)).isSome

variable {qt : Qt} {s t : State τ}

theorem asksFor_producer {q q' : DispatcherState Unit τ} {p : ProducerStep}
    (hexclusive : Monitor.Exclusive q)
    (hs : Monitor.step (dispatchMessageQueue qt) q p.label = some q')
    : State.asksFor q' = State.asksFor q := by
  have hidle : (∀ k, q.consumer ≠ .inside k) → (∀ k, q'.consumer ≠ .inside k) →
      State.asksFor q' = State.asksFor q := by
    intro hq hq'
    have hnone : ∀ q : DispatcherState Unit τ, (∀ k, q.consumer ≠ .inside k) →
        State.asksFor q = none := by
      intro q hq
      unfold State.asksFor
      split
      . next hfinish _ => exact absurd hfinish (hq _)
      . rfl
    rw [hnone q hq, hnone q' hq']
  have hpushing : Pushing (q.producers ()) → ∀ k, q.consumer ≠ .inside k := by
    intro hpushing k hk
    have howner := hexclusive.inside k hk
    rcases hpushing with ⟨a, ha⟩ | ha
    . simp [hexclusive.locked () a ha] at howner
    . simp [hexclusive.pushed () ha] at howner
  cases p with
  | lock =>
    obtain ⟨a, -, -, rfl⟩ := Monitor.step_lockProducer hs
    rfl
  | push =>
    obtain ⟨a, ha, rfl⟩ := Monitor.step_push hs
    have := hpushing (.inl ⟨a, ha⟩)
    exact hidle this this
  | unlock =>
    obtain ⟨ha, rfl⟩ := Monitor.step_unlockProducer hs
    rfl
  | notifyOne =>
    obtain ⟨-, rfl⟩ := Monitor.step_notifyOne hs
    unfold State.asksFor
    cases q.consumer <;> rfl

theorem Asking.step (h : Asking s) (hdispatchers : ∀ d, Monitor.Exclusive (s.dispatchers d))
    (ht : Stepped qt s t)
    : Asking t := by
  intro d hclosing
  cases ht with
  | onNewMessageArrived e _ _ hs =>
    obtain ⟨-, rfl⟩ := Monitor.step_call hs
    have := h d hclosing
    dsimp only
    rw [setDispatcher_dispatchers]
    split
    . next hd =>
      subst hd
      exact this
    . exact this
  | handOver e p _ hs =>
    have := h d hclosing
    dsimp only
    rw [setDispatcher_dispatchers]
    split
    . next hd =>
      subst hd
      rwa [asksFor_producer (hdispatchers d) hs]
    . exact this
  | @dispatcher q e c _ hs =>
    by_cases hd : d = e
    . subst hd
      simp [State.setClosing] at hclosing
    . have hq : ((s.setDispatcher e q).setClosing e .outside).dispatchers d = s.dispatchers d := by
        simp [State.setClosing, State.setDispatcher, hd]
      rw [hq]
      apply h
      simpa [State.setClosing, State.setDispatcher, hd] using hclosing
  | requestClose e _ hasks =>
    by_cases hd : d = e
    . subst hd
      exact Option.isSome_of_eq_some hasks
    . apply h
      simpa [State.setClosing, hd] using hclosing
  | lockRequest e hlocking _ =>
    by_cases hd : d = e
    . subst hd
      exact h d (by simp [hlocking])
    . apply h
      simpa [State.setClosing, hd] using hclosing
  | pushBack e hlocked =>
    by_cases hd : d = e
    . subst hd
      exact h d (by simp [hlocked])
    . apply h
      simpa [State.setClosing, hd] using hclosing
  | _ => exact h d hclosing

theorem asking_of_reachable (h : (machine τ qt).Reachable s) : Asking s := by
  induction h with
  | init hs =>
    rw [hs]
    intro d hclosing
    simp at hclosing
  | step hs _ ht ih =>
    apply ih.step _ (step_cases ht)
    intro d
    exact Monitor.exclusive_of_reachBy ((components_reachable hs).2 d)

def PushesServable (qt : Qt) (s : State τ) (past : Passage τ) : Prop :=
  (∀ e ∈ (s.processor.producers ()).pending, Servable qt e.session)
    ∧ ∀ e ∈ past.pushed, Servable qt e.session

theorem mem_pending_of_pushes (he : e ∈ s.pushes t) : e ∈ (s.processor.producers ()).pending := by
  unfold State.pushes at he
  split at he
  . next e' hlocked _ => simpa [hlocked, Monitor.ProducerPc.pending] using he
  . cases he

theorem step_pending_subset (ht : step qt s l = some t) (hl : ∀ e, l ≠ .onNewClientMessage e)
    : (t.processor.producers ()).pending ⊆ (s.processor.producers ()).pending := by
  have hsame : t.processor = s.processor →
      (t.processor.producers ()).pending ⊆ (s.processor.producers ()).pending := by
    intro h
    rw [h]
    exact fun _ he => he
  cases l with
  | onNewClientMessage e => exact absurd rfl (hl e)
  | poll p =>
    obtain ⟨m, hs, ht⟩ := Option.bind_eq_some_iff.mp ht
    injection ht with ht
    rw [← ht]
    cases p with
    | lock =>
      obtain ⟨e, he, -, rfl⟩ := Monitor.step_lockProducer hs
      simp [he, Monitor.State.setProducer_producers, Monitor.ProducerPc.pending]
    | push =>
      obtain ⟨e, he, rfl⟩ := Monitor.step_push hs
      simp [Monitor.State.setProducer_producers, Monitor.ProducerPc.pending]
    | unlock =>
      obtain ⟨-, rfl⟩ := Monitor.step_unlockProducer hs
      simp [Monitor.State.setProducer_producers, Monitor.ProducerPc.pending]
    | notifyOne =>
      obtain ⟨-, rfl⟩ := Monitor.step_notifyOne hs
      simp [Monitor.State.setProducer_producers, Monitor.ProducerPc.pending]
  | processor c =>
    obtain ⟨-, m, hs, rfl⟩ : _ ∧ ∃ m, _ ∧ _ = t := by
      simpa [step, Option.bind_eq_some_iff] using ht
    simp [ConsumerStep.producers_eq hs]
  | onNewMessageArrived =>
    obtain ⟨front, rest, dispatcher, worker, q, -, -, -, -, -, rfl⟩ := step_called ht
    exact hsame rfl
  | handOver p =>
    apply hsame
    simp only [step, Option.bind_eq_bind] at ht
    split at ht
    . obtain ⟨q, -, ht⟩ := Option.bind_eq_some_iff.mp ht
      injection ht with ht
      rw [← ht]
      rfl
    . cases ht
  | dispatcher d c =>
    obtain ⟨-, q, -, rfl⟩ : _ ∧ ∃ q, _ ∧ _ = t := by
      simpa [step, Option.bind_eq_some_iff] using ht
    exact hsame rfl
  | _ => exact hsame (by grind [step, State.setClosing])

theorem pushesServable_of_reachBy
    (h : ((machine τ qt).withHistory (passage τ)).ReachBy (fun p l => SubmitsServable qt p.1 l)
      (s, past))
    : PushesServable qt s past := by
  apply Machine.ReachBy.history_invariant (I := PushesServable qt) _ _ h
  . rintro s rfl
    constructor
    . intro e he
      cases he
    . intro e he
      cases he
  . intro s past l t hs hg ht
    constructor
    . intro e he
      by_cases hl : ∃ e, l = .onNewClientMessage e
      . obtain ⟨e', rfl⟩ := hl
        obtain ⟨-, m, hcall, rfl⟩ : _ ∧ ∃ m, _ ∧ _ = t := by
          simpa [machine, step, Option.bind_eq_some_iff] using ht
        obtain ⟨-, rfl⟩ := Monitor.step_call hcall
        simp only [Monitor.State.setProducer_producers, ↓reduceIte, Monitor.ProducerPc.pending,
          List.mem_singleton] at he
        rw [he]
        exact hg e' rfl
      . exact hs.1 e (step_pending_subset ht (fun e heq => hl ⟨e, heq⟩) he)
    . intro e he
      rcases List.mem_append.mp he with he | he
      . exact hs.2 e he
      . exact hs.1 e (mem_pending_of_pushes he)

theorem servable_of_serving (h : (machine τ qt).ReachBy (SubmitsServable qt) s)
    (hserve : (s.dispatchers d).consumer = .inside .serve)
    : ∀ e ∈ (s.dispatchers d).queue, Servable qt e.session := by
  obtain ⟨past, hpast⟩ := h.remember (passage τ)
  obtain ⟨r, hr, hrepresents⟩ := (simulates_pipeline τ qt).reachBy hpast.reachable
  have hpushed := (pushesServable_of_reachBy hpast).2
  have hbegan := hrepresents.queues d
  simp only [Began, hserve] at hbegan
  intro e he
  rw [hbegan] at he
  apply Pipeline.servableSoFar_of_reachable hr _ d e ((rotate_perm _).mem_iff.mp he)
  rw [hrepresents.pushed]
  exact hpushed

theorem canStep_of_isSome (l : Label τ) (hl : l.Internal) (h : (step qt s l).isSome)
    : s.CanStep qt l.thread :=
  .inl ⟨l, hl, rfl, h⟩

theorem canStep_processor (hcalling : s.handOver = .calling d)
    (hproducer : Pushing ((s.dispatchers d).producers ()) ∨ (s.dispatchers d).Pending)
    : s.CanStep qt .processor := by
  have hstep : ∀ p, (Monitor.step (dispatchMessageQueue qt) (s.dispatchers d)
      (ProducerStep.label p)).isSome → s.CanStep qt .processor := by
    intro p hs
    apply canStep_of_isSome (.handOver p) trivial
    obtain ⟨q, hq⟩ := Option.isSome_iff_exists.mp hs
    simp [step, hcalling, hq]
  have hpushed : (s.dispatchers d).producers () = .pushed → s.CanStep qt .processor := by
    intro h
    apply hstep .unlock
    simp [ProducerStep.label, Monitor.step, h]
  rcases hproducer with (⟨e, hlocked⟩ | h) | ⟨_, h | hunlocked⟩
  . apply hstep .push
    simp [ProducerStep.label, Monitor.step, hlocked]
  . exact hpushed h
  . exact hpushed h
  . apply hstep .notifyOne
    simp [ProducerStep.label, Monitor.step, hunlocked]

theorem canStep_dispatcher {c : ConsumerStep Turn} (hc : (Label.dispatcher (τ := τ) d c).Internal)
    (hmay : s.mayFinish d)
    (hs : (Monitor.step (dispatchMessageQueue qt) (s.dispatchers d) c.label).isSome)
    : s.CanStep qt (.dispatcher d) := by
  apply canStep_of_isSome (.dispatcher d c) hc
  obtain ⟨q, hq⟩ := Option.isSome_iff_exists.mp hs
  simp [step, hmay, hq]

theorem mayFinish_of_not_finish (hconsistent : Consistent s)
    (h : (s.dispatchers d).consumer ≠ .inside .finish)
    : s.mayFinish d := by
  have houtside : s.closing d = .outside := by
    by_contra hclosing
    exact h (hconsistent.closing d hclosing)
  unfold State.mayFinish
  split
  . next hasks => exact absurd (State.inside_of_asksFor hasks) h
  . simp [houtside]

theorem proceeds_outside (hconsistent : Consistent s) (hexclusive : Monitor.Exclusive (s.dispatchers d))
    (hwaits : s.locks.waits (.dispatcher d) (.sessionsReqResp d))
    (hfree : (s.dispatchers d).owner = none → s.CanStep qt (.dispatcher d))
    (hinside : ∀ k, (s.dispatchers d).consumer ≠ .inside k)
    : ∃ u, s.DependsOn d u ∧ s.CanStep qt u := by
  cases howner : (s.dispatchers d).owner with
  | none => exact ⟨_, .itself, hfree howner⟩
  | some holder =>
    cases holder with
    | consumer =>
      obtain ⟨k, hk⟩ := hexclusive.consumer howner
      exact absurd hk (hinside k)
    | producer i =>
      have hpushing : Pushing ((s.dispatchers d).producers ()) := hexclusive.producer i howner
      have hcalling := (hconsistent.calling_of_pushing hpushing).1
      refine ⟨.processor, .holder hwaits ?_, canStep_processor hcalling (.inl hpushing)⟩
      simp [State.locks, State.owner, howner]

theorem proceeds_closing (hconsistent : Consistent s)
    (hwaits : s.locks.waits (.dispatcher d) .qclientsClose) (hlocking : s.closing d = .locking)
    : ∃ u, s.DependsOn d u ∧ s.CanStep qt u := by
  cases howner : s.closeOwner with
  | none =>
    refine ⟨_, .itself, canStep_of_isSome (.lockRequest d) trivial ?_⟩
    simp [step, hlocking, howner]
  | some u =>
    refine ⟨u, .holder hwaits howner, ?_⟩
    cases u with
    | poll =>
      apply canStep_of_isSome .clear trivial
      simp [step, hconsistent.checkingLocked howner]
    | processor => exact absurd howner hconsistent.closeOwner
    | dispatcher e =>
      apply canStep_of_isSome (.pushBack e) trivial
      simp [step, hconsistent.closingLocked e howner]

theorem waitGuard (s : DispatcherState Unit τ) (l : Monitor.Label Unit (Queued τ) Turn)
    : Monitor.WaitGuard (dispatchMessageQueue qt) s l := by
  intro turn point m q _ _ hact
  exact .inl (HttpMessageDispatcher.Point.act_wait hact)

theorem proceeds_act {point : HttpMessageDispatcher.Point}
    (hconsumer : (s.dispatchers d).consumer = .inside point) (hmay : s.mayFinish d)
    (hact : ∀ turn : Turn,
      (∀ e, (s.dispatchers d).queue.head? = some e → turn.Readable e.session) →
        (point.act qt (s.dispatchers d).memory (s.dispatchers d).queue turn).isSome)
    : ∃ u, s.DependsOn d u ∧ s.CanStep qt u := by
  refine ⟨_, .itself, .inr ⟨d, rfl, ?_⟩⟩
  intro turn hreadable
  obtain ⟨⟨closed, queue, action⟩, hact⟩ := Option.isSome_iff_exists.mp (hact turn hreadable)
  have hs : (Monitor.step (dispatchMessageQueue qt) (s.dispatchers d)
      (ConsumerStep.act turn).label).isSome := by
    simp only [ConsumerStep.label, Monitor.step, hconsumer, Monitor.Program.after,
      dispatchMessageQueue, hact]
    cases action <;> rfl
  obtain ⟨q, hq⟩ := Option.isSome_iff_exists.mp hs
  simp [step, hmay, hq]

theorem proceeds_finish (hconsistent : Consistent s) (hasking : Asking s)
    (hfinish : (s.dispatchers d).consumer = .inside .finish) (hqueue : (s.dispatchers d).queue ≠ [])
    : ∃ u, s.DependsOn d u ∧ s.CanStep qt u := by
  have hact : ∀ turn, (HttpMessageDispatcher.Point.finish.act qt (s.dispatchers d).memory
      (s.dispatchers d).queue turn).isSome := by
    intro turn
    obtain ⟨front, rest, hfront⟩ := List.exists_cons_of_ne_nil hqueue
    simp only [hfront, HttpMessageDispatcher.Point.act]
    split <;> rfl
  cases hasks : State.asksFor (s.dispatchers d) with
  | none =>
    apply proceeds_act hfinish _ (fun turn _ => hact turn)
    have houtside : s.closing d = .outside := by
      by_contra hclosing
      simpa [hasks] using hasking d hclosing
    simp [State.mayFinish, hasks, houtside]
  | some c =>
    cases hclosing : s.closing d with
    | outside =>
      refine ⟨_, .itself, canStep_of_isSome (.requestClose d) trivial ?_⟩
      simp [step, hclosing, hasks]
    | locking => exact proceeds_closing hconsistent (.requestClose hclosing) hclosing
    | locked =>
      refine ⟨_, .itself, canStep_of_isSome (.pushBack d) trivial ?_⟩
      simp [step, hclosing]
    | unlocked =>
      apply proceeds_act hfinish _ (fun turn _ => hact turn)
      simp [State.mayFinish, hasks, hclosing]

theorem work_proceeds (τ : Type) (qt : Qt)
    : ∀ s, (machine τ qt).ReachBy (SubmitsServable qt) s →
        ∀ d, (s.dispatchers d).queue ≠ [] → ∃ u, s.DependsOn d u ∧ s.CanStep qt u := by
  intro s hs d hqueue
  have hcomponents := components_reachable hs.reachable
  have hconsistent := consistent_of_reachable hs.reachable
  have hexclusive : Monitor.Exclusive (s.dispatchers d) :=
    Monitor.exclusive_of_reachBy (hcomponents.2 d)
  obtain ⟨front, rest, hfront⟩ := List.exists_cons_of_ne_nil hqueue
  cases hconsumer : (s.dispatchers d).consumer with
  | outside =>
    apply proceeds_outside hconsistent hexclusive (.dispatchMessageQueue hconsumer)
    . intro hfree
      apply canStep_dispatcher (c := .lock) trivial
      . exact mayFinish_of_not_finish hconsistent (by simp [hconsumer])
      . simp [ConsumerStep.label, Monitor.step, hconsumer, hfree]
    . simp [hconsumer]
  | notified =>
    apply proceeds_outside hconsistent hexclusive (.awakeDispatcher hconsumer)
    . intro hfree
      apply canStep_dispatcher (c := .wake) trivial
      . exact mayFinish_of_not_finish hconsistent (by simp [hconsumer])
      . simp [ConsumerStep.label, Monitor.step, hconsumer, hfree]
    . simp [hconsumer]
  | blocked =>
    have hpending : (s.dispatchers d).Pending := by
      have hguard : ∀ s l, True → Monitor.WaitGuard (dispatchMessageQueue (τ := τ) qt)
          (s : DispatcherState Unit τ) l := fun s l _ => waitGuard s l
      exact (Monitor.noLostWakeup_of_reachBy hguard (hcomponents.2 d) hconsumer).resolve_left hqueue
    have hcalling : s.handOver = .calling d := by
      apply hconsistent.calling
      obtain ⟨_, h | h⟩ := hpending
      . simp [h]
      . simp [h]
    exact ⟨.processor, .notifier hconsumer hpending, canStep_processor hcalling (.inr hpending)⟩
  | inside point =>
    cases point with
    | test =>
      apply proceeds_act hconsumer (mayFinish_of_not_finish hconsistent (by simp [hconsumer]))
      simp [HttpMessageDispatcher.Point.act, hfront]
    | rotate =>
      apply proceeds_act hconsumer (mayFinish_of_not_finish hconsistent (by simp [hconsumer]))
      simp [HttpMessageDispatcher.Point.act, hfront]
    | serve =>
      have hservable := servable_of_serving hs hconsumer front (by simp [hfront])
      apply proceeds_act hconsumer (mayFinish_of_not_finish hconsistent (by simp [hconsumer]))
      intro turn hreadable
      have hturn := hservable.serves (hreadable front (by simp [hfront]))
      obtain ⟨served, hserved⟩ := Option.isSome_iff_exists.mp hturn
      simp [HttpMessageDispatcher.Point.act, hfront, hserved]
    | finish =>
      exact proceeds_finish hconsistent (asking_of_reachable hs.reachable) hconsumer hqueue

theorem work_proceeds_aboutToServe
    : ∃ s, (machine Nat Qt.unix).run {} (aboutToServe 0) = some s
        ∧ (s.dispatchers 0).queue ≠ [] ∧ (s.dispatchers 0).consumer = .inside .serve
        ∧ ∃ u, s.DependsOn 0 u ∧ s.CanStep Qt.unix u := by
  obtain ⟨s, hrun, hqueue, hserve⟩ : ∃ s, (machine Nat Qt.unix).run {} (aboutToServe 0) = some s
      ∧ (s.dispatchers 0).queue ≠ [] ∧ (s.dispatchers 0).consumer = .inside .serve :=
    ⟨_, rfl, List.cons_ne_nil _ _, rfl⟩
  refine ⟨s, hrun, hqueue, hserve, work_proceeds Nat Qt.unix s ?_ 0 hqueue⟩
  apply Machine.ReachBy.run (.init rfl) (aboutToServe 0) _ hrun
  have hservable : Servable Qt.unix requestForA := ⟨rfl, by decide⟩
  simp [aboutToServe, SubmitsServable, hservable]

end Locking
