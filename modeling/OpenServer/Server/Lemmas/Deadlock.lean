import Mathlib.Data.Fintype.Order
import OpenServer.Server.Lemmas.Locking

/-!
This module shows that the threads take the mutexes in a fixed order, and that they therefore never
deadlock.
-/

open HttpMessageDispatcher HtmlMessageProcessor

namespace Locking

variable {P : Monitor.Program κ μ α β} {s t : Monitor.State Unit κ μ α}

theorem ConsumerStep.producers_eq {c : ConsumerStep β} (h : Monitor.step P s c.label = some t)
    : t.producers = s.producers := by
  cases c with
  | lock =>
    obtain ⟨-, -, rfl⟩ := Monitor.step_lock h
    rfl
  | act x =>
    obtain ⟨k, -, hafter⟩ := Monitor.step_act h
    cases hafter <;> rfl
  | wake =>
    obtain ⟨-, -, rfl⟩ := Monitor.step_wake h
    rfl
  | spurious =>
    obtain ⟨-, rfl⟩ := Monitor.step_spurious h
    rfl

theorem ProducerStep.not_idle {p : ProducerStep} (h : Monitor.step P s p.label = some t)
    : s.producers () ≠ .idle := by
  cases p with
  | lock =>
    obtain ⟨a, hcalling, -⟩ := Monitor.step_lockProducer h
    simp [hcalling]
  | push =>
    obtain ⟨a, hlocked, -⟩ := Monitor.step_push h
    simp [hlocked]
  | unlock =>
    obtain ⟨hpushed, -⟩ := Monitor.step_unlockProducer h
    simp [hpushed]
  | notifyOne =>
    obtain ⟨hunlocked, -⟩ := Monitor.step_notifyOne h
    simp [hunlocked]

theorem ProducerStep.inside {p : ProducerStep} (h : Monitor.step P s p.label = some t)
    (hinside : s.consumer = .inside k)
    : t.consumer = .inside k := by
  cases p with
  | lock =>
    obtain ⟨a, -, -, rfl⟩ := Monitor.step_lockProducer h
    exact hinside
  | push =>
    obtain ⟨a, -, rfl⟩ := Monitor.step_push h
    exact hinside
  | unlock =>
    obtain ⟨-, rfl⟩ := Monitor.step_unlockProducer h
    exact hinside
  | notifyOne =>
    obtain ⟨-, rfl⟩ := Monitor.step_notifyOne h
    exact Monitor.ConsumerPc.notify_eq_inside.mpr hinside

theorem idle_of_notifyOne (h : Monitor.step P s (.notifyOne ()) = some t)
    : t.producers () = .idle := by
  obtain ⟨-, rfl⟩ := Monitor.step_notifyOne h
  simp [Monitor.State.setProducer_producers]

theorem inside_of_call (h : Monitor.step P s (.call () a) = some t) (hinside : s.consumer = .inside k)
    : t.consumer = .inside k := by
  obtain ⟨-, rfl⟩ := Monitor.step_call h
  exact hinside

-- What ties the threads' places in the different monitors together.
structure Consistent (s : State τ) : Prop where
  checking : s.checking ≠ .outside → s.processor.producers () = .idle
  draining : s.handOver ≠ .pending → s.processor.consumer = .inside .drain
  calling : ∀ d, (s.dispatchers d).producers () ≠ .idle → s.handOver = .calling d
  closing : ∀ d, s.closing d ≠ .outside → (s.dispatchers d).consumer = .inside .finish
  checkingLocked : s.closeOwner = some .poll → s.checking = .locked
  closingLocked : ∀ d, s.closeOwner = some (.dispatcher d) → s.closing d = .locked
  closeOwner : s.closeOwner ≠ some .processor

theorem State.inside_of_asksFor {q : DispatcherState Unit τ} (h : State.asksFor q = some c)
    : q.consumer = .inside .finish := by
  unfold State.asksFor at h
  split at h
  . assumption
  . cases h

theorem Consistent.init : Consistent ({} : State τ) := by
  constructor <;> simp [Monitor.initial]

section

variable {qt : Qt} {s t : State τ}

theorem Consistent.call (h : Consistent s) (hchecking : s.checking = .outside)
    (hs : Monitor.step processMessageQueue s.processor (.call () e) = some m)
    : Consistent { s with processor := m } where
  checking hbusy := absurd hchecking hbusy
  draining hhanding := inside_of_call hs (h.draining hhanding)
  calling := h.calling
  closing := h.closing
  checkingLocked := h.checkingLocked
  closingLocked := h.closingLocked
  closeOwner := h.closeOwner

theorem Consistent.poll (h : Consistent s) (p : ProducerStep)
    (hs : Monitor.step processMessageQueue s.processor p.label = some m)
    : Consistent { s with processor := m } where
  checking hchecking := absurd (h.checking hchecking) (ProducerStep.not_idle hs)
  draining hhanding := ProducerStep.inside hs (h.draining hhanding)
  calling := h.calling
  closing := h.closing
  checkingLocked := h.checkingLocked
  closingLocked := h.closingLocked
  closeOwner := h.closeOwner

theorem Consistent.processorStep (h : Consistent s) (c : ConsumerStep Unit) (hmay : s.mayPop)
    (hs : Monitor.step processMessageQueue s.processor c.label = some m)
    : Consistent { s with processor := m, handOver := .pending } where
  checking hchecking := by
    dsimp only
    rw [ConsumerStep.producers_eq hs]
    exact h.checking hchecking
  draining hhanding := absurd rfl hhanding
  calling d hd := by
    have hcalling := h.calling d hd
    unfold State.mayPop at hmay
    split at hmay
    . simp [hcalling] at hmay
    . simp [hcalling] at hmay
  closing := h.closing
  checkingLocked := h.checkingLocked
  closingLocked := h.closingLocked
  closeOwner := h.closeOwner

theorem Consistent.handOver {handOver : HandOver} (h : Consistent s) (d : Fin 12)
    (hdraining : s.processor.consumer = .inside .drain)
    (hcalling : q.producers () ≠ .idle → handOver = .calling d)
    (hothers : ∀ e, e ≠ d → (s.dispatchers e).producers () = .idle)
    (hinside : (s.dispatchers d).consumer = .inside .finish → q.consumer = .inside .finish)
    : Consistent { s.setDispatcher d q with handOver } where
  checking := h.checking
  draining _ := hdraining
  calling e := by
    by_cases he : e = d
    . subst he
      simpa [State.setDispatcher] using hcalling
    . intro hidle
      simp [State.setDispatcher, he, hothers e he] at hidle
  closing e hclosing := by
    have := h.closing e hclosing
    by_cases he : e = d
    . subst he
      simpa [State.setDispatcher] using hinside this
    . simpa [State.setDispatcher, he] using this
  checkingLocked := h.checkingLocked
  closingLocked := h.closingLocked
  closeOwner := h.closeOwner

theorem Consistent.dispatcher (h : Consistent s) (d : Fin 12) (c : ConsumerStep Turn)
    (hmay : s.mayFinish d)
    (hs : Monitor.step (dispatchMessageQueue qt) (s.dispatchers d) c.label = some q)
    : Consistent ((s.setDispatcher d q).setClosing d .outside) where
  checking := h.checking
  draining := h.draining
  calling e := by
    by_cases he : e = d
    . subst he
      simpa [State.setDispatcher, State.setClosing, ConsumerStep.producers_eq hs] using h.calling e
    . simpa [State.setDispatcher, State.setClosing, he] using h.calling e
  closing e hclosing := by
    by_cases he : e = d
    . subst he
      simp [State.setClosing] at hclosing
    . simp only [State.setClosing, ne_eq, he, not_false_eq_true, Function.update_of_ne] at hclosing
      simpa [State.setDispatcher, State.setClosing, he] using h.closing e hclosing
  checkingLocked := h.checkingLocked
  closingLocked e howner := by
    have hlocked := h.closingLocked e howner
    by_cases he : e = d
    . subst he
      unfold State.mayFinish at hmay
      split at hmay <;> simp [hlocked] at hmay
    . simpa [State.setDispatcher, State.setClosing, he] using hlocked
  closeOwner := h.closeOwner

theorem Consistent.setChecking (h : Consistent s)
    (hidle : pc ≠ .outside → s.processor.producers () = .idle)
    (hpoll : owner = some .poll → pc = .locked)
    (howner : ∀ d, owner = some (.dispatcher d) → s.closing d = .locked)
    (hprocessor : owner ≠ some .processor)
    : Consistent { s with checking := pc, closeOwner := owner, qclientsClose := list } where
  checking := hidle
  draining := h.draining
  calling := h.calling
  closing := h.closing
  checkingLocked := hpoll
  closingLocked := howner
  closeOwner := hprocessor

theorem Consistent.setClosing (h : Consistent s) (d : Fin 12)
    (hinside : (s.dispatchers d).consumer = .inside .finish)
    (hpoll : owner = some .poll → s.checking = .locked)
    (howner : ∀ e, owner = some (.dispatcher e) → Function.update s.closing d pc e = .locked)
    (hprocessor : owner ≠ some .processor)
    : Consistent { s.setClosing d pc with closeOwner := owner, qclientsClose := list } where
  checking := h.checking
  draining := h.draining
  calling := h.calling
  closing e hclosing := by
    by_cases he : e = d
    . subst he
      exact hinside
    . apply h.closing
      simpa [State.setClosing, he] using hclosing
  checkingLocked := hpoll
  closingLocked := howner
  closeOwner := hprocessor

theorem Consistent.step (h : Consistent s) (ht : Stepped qt s t) : Consistent t := by
  cases ht with
  | onNewClientMessage hchecking hs => exact h.call hchecking hs
  | poll p hs => exact h.poll p hs
  | checkClosedSessions houtside hidle =>
    refine h.setChecking (fun _ => hidle) ?_ h.closingLocked h.closeOwner
    intro howner
    have := h.checkingLocked howner
    simp [houtside] at this
  | lockClose hlocking _ =>
    apply h.setChecking
    . intro _
      apply h.checking
      simp [hlocking]
    . simp
    . simp
    . simp
  | clear hlocked =>
    apply h.setChecking
    . intro _
      apply h.checking
      simp [hlocked]
    . simp
    . simp
    . simp
  | checked hunlocked =>
    refine h.setChecking (fun houtside => absurd rfl houtside) ?_ h.closingLocked h.closeOwner
    intro howner
    have := h.checkingLocked howner
    simp [hunlocked] at this
  | processor c hmay hs => exact h.processorStep c hmay hs
  | onNewMessageArrived d hpending hdrain hs =>
    apply h.handOver d hdrain
    . intro _
      rfl
    . intro e _
      by_contra hbusy
      simp [h.calling e hbusy] at hpending
    . exact inside_of_call hs
  | handOver d p hcalling hs =>
    apply h.handOver d
    . apply h.draining
      simp [hcalling]
    . intro hbusy
      cases p with
      | notifyOne => exact absurd (idle_of_notifyOne hs) hbusy
      | lock => rfl
      | push => rfl
      | unlock => rfl
    . intro e he
      by_contra hbusy
      have := h.calling e hbusy
      rw [hcalling] at this
      injection this with this
      exact he this.symm
    . exact ProducerStep.inside hs
  | dispatcher d c hmay hs => exact h.dispatcher d c hmay hs
  | requestClose d houtside hasks =>
    apply h.setClosing d (State.inside_of_asksFor hasks) h.checkingLocked _ h.closeOwner
    intro e howner
    have hlocked := h.closingLocked e howner
    have he : e ≠ d := by
      rintro rfl
      simp [houtside] at hlocked
    simpa [he] using hlocked
  | lockRequest d hlocking _ =>
    apply h.setClosing d
    . apply h.closing
      simp [hlocking]
    . simp
    . intro e howner
      simp only [Option.some.injEq, ThreadId.dispatcher.injEq] at howner
      simp [howner]
    . simp
  | pushBack d hlocked =>
    apply h.setClosing d
    . apply h.closing
      simp [hlocked]
    . simp
    . simp
    . simp

end

theorem consistent_of_reachable {qt : Qt} {s : State τ} (h : (machine τ qt).Reachable s)
    : Consistent s := by
  apply Machine.Reachable.invariant _ _ h
  . rintro s rfl
    exact .init
  . intro s l t hs ht
    exact hs.step (step_cases ht)

def Mutex.rank : Mutex → Fin 3
  | .qclients => 0
  | .sessionsReqResp _ => 1
  | .qclientsClose => 2

def Pushing (pc : Monitor.ProducerPc α) : Prop :=
  (∃ a, pc = .locked a) ∨ pc = .pushed

section

variable {s : State τ}

theorem Consistent.holds_poll (h : Consistent s) (hprocessor : Monitor.Exclusive s.processor)
    (howner : s.owner m = some .poll)
    : (m = .qclients ∧ Pushing (s.processor.producers ()))
        ∨ (m = .qclientsClose ∧ s.checking = .locked) := by
  cases m with
  | qclients =>
    obtain ⟨holder, hholder, hthread⟩ := Option.map_eq_some_iff.mp howner
    cases holder with
    | consumer => cases hthread
    | producer i => exact .inl ⟨rfl, hprocessor.producer i hholder⟩
  | sessionsReqResp d =>
    obtain ⟨holder, -, hthread⟩ := Option.map_eq_some_iff.mp howner
    cases holder <;> cases hthread
  | qclientsClose => exact .inr ⟨rfl, h.checkingLocked howner⟩

theorem Consistent.holds_processor (h : Consistent s) (hprocessor : Monitor.Exclusive s.processor)
    (hdispatchers : ∀ d, Monitor.Exclusive (s.dispatchers d)) (howner : s.owner m = some .processor)
    : (m = .qclients ∧ ∃ k, s.processor.consumer = .inside k)
        ∨ ∃ d, m = .sessionsReqResp d ∧ Pushing ((s.dispatchers d).producers ()) := by
  cases m with
  | qclients =>
    obtain ⟨holder, hholder, hthread⟩ := Option.map_eq_some_iff.mp howner
    cases holder with
    | consumer => exact .inl ⟨rfl, hprocessor.consumer hholder⟩
    | producer i => cases hthread
  | sessionsReqResp d =>
    obtain ⟨holder, hholder, hthread⟩ := Option.map_eq_some_iff.mp howner
    cases holder with
    | consumer => cases hthread
    | producer i => exact .inr ⟨d, rfl, (hdispatchers d).producer i hholder⟩
  | qclientsClose => exact absurd howner h.closeOwner

theorem Consistent.holds_dispatcher (h : Consistent s)
    (hdispatchers : ∀ d, Monitor.Exclusive (s.dispatchers d))
    (howner : s.owner m = some (.dispatcher d))
    : (m = .sessionsReqResp d ∧ ∃ k, (s.dispatchers d).consumer = .inside k)
        ∨ (m = .qclientsClose ∧ s.closing d = .locked) := by
  cases m with
  | qclients =>
    obtain ⟨holder, -, hthread⟩ := Option.map_eq_some_iff.mp howner
    cases holder <;> cases hthread
  | sessionsReqResp e =>
    obtain ⟨holder, hholder, hthread⟩ := Option.map_eq_some_iff.mp howner
    cases holder with
    | consumer =>
      injection hthread with hthread
      subst hthread
      exact .inl ⟨rfl, (hdispatchers e).consumer hholder⟩
    | producer i => cases hthread
  | qclientsClose => exact .inr ⟨rfl, h.closingLocked d howner⟩

theorem Consistent.calling_of_pushing (h : Consistent s)
    (hpushing : Pushing ((s.dispatchers d).producers ()))
    : s.handOver = .calling d ∧ s.processor.consumer = .inside .drain := by
  have hcalling : s.handOver = .calling d := by
    apply h.calling
    rcases hpushing with ⟨a, hlocked⟩ | hpushed
    . simp [hlocked]
    . simp [hpushed]
  exact ⟨hcalling, h.draining (by simp [hcalling])⟩

theorem Consistent.ordered (h : Consistent s) (hprocessor : Monitor.Exclusive s.processor)
    (hdispatchers : ∀ d, Monitor.Exclusive (s.dispatchers d))
    : s.locks.Ordered Mutex.rank := by
  intro t m m' hholds hwaits
  cases hwaits with
  | onNewClientMessage hcalling =>
    rcases h.holds_poll hprocessor hholds with ⟨-, ⟨a, hlocked⟩ | hpushed⟩ | ⟨-, hlocked⟩
    . simp [hcalling] at hlocked
    . simp [hcalling] at hpushed
    . have := h.checking (by simp [hlocked])
      simp [hcalling] at this
  | checkClosedSessions hlocking =>
    rcases h.holds_poll hprocessor hholds with ⟨rfl, -⟩ | ⟨-, hlocked⟩
    . decide
    . simp [hlocking] at hlocked
  | processMessageQueue houtside =>
    rcases h.holds_processor hprocessor hdispatchers hholds with ⟨-, k, hinside⟩ | ⟨d, -, hpushing⟩
    . simp [houtside] at hinside
    . have := (h.calling_of_pushing hpushing).2
      simp [houtside] at this
  | awake hnotified =>
    rcases h.holds_processor hprocessor hdispatchers hholds with ⟨-, k, hinside⟩ | ⟨d, -, hpushing⟩
    . simp [hnotified] at hinside
    . have := (h.calling_of_pushing hpushing).2
      simp [hnotified] at this
  | @onNewMessageArrived d e hcalling =>
    rcases h.holds_processor hprocessor hdispatchers hholds with ⟨rfl, -⟩ | ⟨d', rfl, hpushing⟩
    . simp [Mutex.rank]
    . have hd : s.handOver = .calling d := h.calling d (by simp [hcalling])
      have hd' := (h.calling_of_pushing hpushing).1
      rw [hd] at hd'
      injection hd' with hd'
      subst hd'
      rcases hpushing with ⟨a, hlocked⟩ | hpushed
      . simp [hcalling] at hlocked
      . simp [hcalling] at hpushed
  | @dispatchMessageQueue d houtside =>
    rcases h.holds_dispatcher hdispatchers hholds with ⟨-, k, hinside⟩ | ⟨-, hlocked⟩
    . simp [houtside] at hinside
    . have := h.closing d (by simp [hlocked])
      simp [houtside] at this
  | @awakeDispatcher d hnotified =>
    rcases h.holds_dispatcher hdispatchers hholds with ⟨-, k, hinside⟩ | ⟨-, hlocked⟩
    . simp [hnotified] at hinside
    . have := h.closing d (by simp [hlocked])
      simp [hnotified] at this
  | requestClose hlocking =>
    rcases h.holds_dispatcher hdispatchers hholds with ⟨rfl, -⟩ | ⟨-, hlocked⟩
    . simp [Mutex.rank]
    . simp [hlocking] at hlocked

end

theorem locks_not_deadlocked (τ : Type) (qt : Qt)
    : ∀ s, (machine τ qt).Reachable s →
        (∀ threads, ¬ s.locks.Deadlocked threads)
          ∧ ∀ t m, s.locks.waits t m → ¬ s.locks.holds t m := by
  intro s hs
  have hcomponents := components_reachable hs
  have hordered : s.locks.Ordered Mutex.rank := by
    apply (consistent_of_reachable hs).ordered
    . exact Monitor.exclusive_of_reachBy hcomponents.1
    . intro d
      exact Monitor.exclusive_of_reachBy (hcomponents.2 d)
  constructor
  . exact hordered.not_deadlocked
  . intro t m hwaits
    exact hordered.not_relock hwaits

-- The processor waits for a dispatcher that holds its own mutex.
def announceToBusy : List (Label Nat) :=
  [.processor .lock, .processor (.act ()), .onNewClientMessage ⟨0, { socket := 5 }⟩, .poll .lock,
    .poll .push, .poll .unlock, .poll .notifyOne, .processor .wake, .dispatcher ⟨0, by decide⟩ .lock,
    .onNewMessageArrived]

theorem locks_not_deadlocked_announceToBusy
    : ∃ s, (machine Nat Qt.unix).run {} announceToBusy = some s
        ∧ s.locks.waits .processor (.sessionsReqResp 0)
        ∧ s.locks.holds (.dispatcher 0) (.sessionsReqResp 0)
        ∧ ¬ s.locks.Deadlocked Set.univ := by
  refine ⟨_, rfl, .onNewMessageArrived rfl, rfl, ?_⟩
  refine (locks_not_deadlocked Nat Qt.unix _ ?_).1 Set.univ
  exact Machine.Reachable.run (.init rfl) announceToBusy rfl

end Locking
