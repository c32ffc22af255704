import OpenServer.Dispatcher.Impl.DispatchMessageQueue
import OpenServer.Dispatcher.Lemmas.Queue
import OpenServer.Transition.MonitorLemmas

/-!
This module shows when `dispatchMessageQueue` never touches an empty queue, and that its steps on a
queue with work are the iteration that the other modules reason about.
-/

namespace HttpMessageDispatcher

variable {qt : Qt}

theorem rotate_eq_nil_iff {queue : List (Queued τ)} : rotate queue = [] ↔ queue = [] := by
  constructor
  . intro h
    have := (rotate_perm queue).length_eq
    rw [h] at this
    exact List.eq_nil_of_length_eq_zero this.symm
  . rintro rfl
    rfl

namespace Point

theorem act_test_cases (h : Point.act (τ := τ) qt .test closed queue turn = some (m, q, a))
    : q = queue ∧ (a = .wait ∧ queue = [] ∨ a = .goto .rotate ∧ queue ≠ []) := by
  cases queue with
  | nil =>
    simp only [act, Option.some.injEq, Prod.mk.injEq] at h
    simp [← h.2.1, ← h.2.2]
  | cons front rest =>
    simp only [act, Option.some.injEq, Prod.mk.injEq] at h
    simp [← h.2.1, ← h.2.2]

theorem act_rotate_cases (h : Point.act (τ := τ) qt .rotate closed queue turn = some (m, q, a))
    : q = HttpMessageDispatcher.rotate queue ∧ queue ≠ [] ∧ a = .goto .serve := by
  cases queue with
  | nil => cases h
  | cons front rest =>
    simp only [act, Option.some.injEq, Prod.mk.injEq] at h
    simp [← h.2.1, ← h.2.2]

theorem act_serve_cases (h : Point.act (τ := τ) qt .serve closed queue turn = some (m, q, a))
    : ∃ front rest sh c loop, queue = front :: rest
        ∧ serveFront qt turn.input turn.shared front.session = some (sh, c, loop)
        ∧ q = { front with session := c } :: rest ∧ a = .goto .finish := by
  cases queue with
  | nil => cases h
  | cons front rest =>
    simp only [act, Option.bind_eq_bind, Option.bind_eq_some_iff] at h
    obtain ⟨⟨sh, c, loop⟩, hserve, h⟩ := h
    simp only [Option.some.injEq, Prod.mk.injEq] at h
    exact ⟨front, rest, sh, c, loop, rfl, hserve, h.2.1.symm, h.2.2.symm⟩

theorem act_finish_cases (h : Point.act (τ := τ) qt .finish closed queue turn = some (m, q, a))
    : ∃ front rest, queue = front :: rest ∧ a = .unlock
        ∧ q = if isFinished front.session then rest else queue := by
  cases queue with
  | nil => cases h
  | cons front rest =>
    refine ⟨front, rest, rfl, ?_⟩
    simp only [act] at h
    split at h
    . next hfinished =>
      injection h with h
      simp only [Prod.mk.injEq] at h
      simp [hfinished, ← h.2.1, ← h.2.2]
    . next hfinished =>
      injection h with h
      simp only [Prod.mk.injEq] at h
      simp [hfinished, ← h.2.1, ← h.2.2]

theorem act_wait {point : Point}
    (h : Point.act (τ := τ) qt point closed queue turn = some (m, q, .wait))
    : q = [] := by
  cases point with
  | test =>
    obtain ⟨rfl, ⟨-, hqueue⟩ | ⟨hgoto, -⟩⟩ := act_test_cases h
    . exact hqueue
    . cases hgoto
  | rotate =>
    obtain ⟨-, -, hgoto⟩ := act_rotate_cases h
    cases hgoto
  | serve =>
    obtain ⟨front, rest, sh, c, loop, -, -, -, hgoto⟩ := act_serve_cases h
    cases hgoto
  | finish =>
    obtain ⟨front, rest, -, hunlock, -⟩ := act_finish_cases h
    cases hunlock

def UsesFront (point : Point) : Prop :=
  point ≠ .test

end Point

theorem act_eq_iterate (turn : Turn) (closed : List ClientSession) (queue : List (Queued τ))
    : (do
        let (closed, queue, _) ← Point.act qt .rotate closed queue turn
        let (closed, queue, _) ← Point.act qt .serve closed queue turn
        Point.act qt .finish closed queue turn)
        =
      (iterate qt turn.input turn.shared queue).map
        (fun r => (closed ++ r.close.toList, r.queue, .unlock)) := by
  cases queue with
  | nil => rfl
  | cons front rest =>
    cases hrotate : rotate (front :: rest) with
    | nil => simp [rotate_eq_nil_iff] at hrotate
    | cons first others =>
      simp only [Point.act, iterate, hrotate, Option.bind_eq_bind, Option.bind_some]
      cases serveFront qt turn.input turn.shared first.session with
      | none => rfl
      | some served =>
        simp only [Option.bind_some]
        split <;> simp

def FrontReady (s : DispatcherState ι τ) : Prop :=
  ∀ point, s.consumer = .inside point → point.UsesFront → s.queue ≠ []

theorem FrontReady.after {s t : DispatcherState ι τ} {point : Point}
    (h : (dispatchMessageQueue qt).After s point turn t)
    : FrontReady t := by
  intro point' hpoint' huses
  cases h with
  | wait hact => cases hpoint'
  | unlock hact => cases hpoint'
  | goto hact =>
    cases point with
    | test =>
      obtain ⟨rfl, ⟨hwait, -⟩ | ⟨-, hq⟩⟩ := Point.act_test_cases hact
      . cases hwait
      . exact hq
    | rotate =>
      obtain ⟨rfl, hq, -⟩ := Point.act_rotate_cases hact
      simpa [rotate_eq_nil_iff] using hq
    | serve =>
      obtain ⟨front, rest, sh, c, loop, -, -, rfl, -⟩ := Point.act_serve_cases hact
      simp
    | finish =>
      obtain ⟨front, rest, -, hunlock, -⟩ := Point.act_finish_cases hact
      cases hunlock

variable [DecidableEq ι]

theorem FrontReady.step {s t : DispatcherState ι τ} (h : FrontReady s)
    (hexclusive : Monitor.Exclusive s) (hwakes : Monitor.WakesToWork s)
    (ht : Monitor.step (dispatchMessageQueue qt) s l = some t)
    : FrontReady t := by
  cases l with
  | call i a =>
    obtain ⟨-, rfl⟩ := Monitor.step_call ht
    exact h
  | lockProducer i =>
    obtain ⟨a, -, -, rfl⟩ := Monitor.step_lockProducer ht
    exact h
  | push i =>
    obtain ⟨a, -, rfl⟩ := Monitor.step_push ht
    intro _ _ _
    simp
  | unlockProducer i =>
    obtain ⟨-, rfl⟩ := Monitor.step_unlockProducer ht
    exact h
  | notifyOne i =>
    obtain ⟨-, rfl⟩ := Monitor.step_notifyOne ht
    intro point hpoint
    exact h point (Monitor.ConsumerPc.notify_eq_inside.mp hpoint)
  | lock =>
    obtain ⟨-, -, rfl⟩ := Monitor.step_lock ht
    rintro point hpoint huses
    injection hpoint with hpoint
    exact absurd hpoint.symm huses
  | act turn =>
    obtain ⟨point, -, hafter⟩ := Monitor.step_act ht
    exact FrontReady.after hafter
  | wake =>
    intro _ _ _
    exact Monitor.queue_ne_nil_of_wake hexclusive hwakes ht
  | spurious =>
    obtain ⟨-, rfl⟩ := Monitor.step_spurious ht
    intro point hpoint
    cases hpoint

theorem frontReady_of_reachBy {s : DispatcherState ι τ}
    (h : (dispatcher ι τ qt).ReachBy Monitor.NotifyGuard s)
    : FrontReady s := by
  induction h with
  | init h =>
    rw [h]
    intro point hpoint
    cases hpoint
  | step hs _ ht ih =>
    apply ih.step _ _ ht
    . exact Monitor.exclusive_of_reachBy hs
    . exact Monitor.wakesToWork_of_reachBy (fun _ _ hg => hg) hs

-- A notification that comes after its message was consumed, while the dispatcher waits again, wakes
-- it without work. There is no other way to an access of an empty queue.
theorem front_nonempty (ι τ : Type) [DecidableEq ι] (qt : Qt)
    : (∀ s, (dispatcher ι τ qt).ReachBy Monitor.NotifyGuard s → FrontReady s)
        ∧ ∀ s t i, (dispatcher ι τ qt).Reachable s →
          ¬ Monitor.NotifyGuard s (.notifyOne i : Monitor.Label ι (Queued τ) Turn) →
          (dispatcher ι τ qt).step s (.notifyOne i) = some t →
          ∃ u, (dispatcher ι τ qt).step t .wake = some u ∧ ¬ FrontReady u := by
  refine ⟨fun s => frontReady_of_reachBy, ?_⟩
  intro s t i hs hg ht
  obtain ⟨u, hu, hconsumer, hqueue⟩ :=
    Monitor.wake_of_not_notifyGuard (Monitor.exclusive_of_reachBy hs) hg ht
  refine ⟨u, hu, ?_⟩
  intro hready
  exact hready .rotate hconsumer (by simp [Point.UsesFront]) hqueue

def turnForA : Turn where
  shared := sharedWithA (ascii "hi")
  input := inputOfA (ascii "hi") (.accepted 1)

def pushForA : List (Monitor.Label Unit (Queued Nat) Turn) :=
  [.call () ⟨0, requestForA⟩, .lockProducer (), .push (), .unlockProducer ()]

def waitThenPush : List (Monitor.Label Unit (Queued Nat) Turn) :=
  [.lock, .act turnForA] ++ pushForA

def notifyThenWake : List (Monitor.Label Unit (Queued Nat) Turn) :=
  [.notifyOne (), .wake]

theorem front_nonempty_notifyThenWake
    : ∃ s t, (dispatcher Unit Nat Qt.unix).run (Monitor.initial []) waitThenPush = some s
        ∧ s.consumer = .blocked
        ∧ (dispatcher Unit Nat Qt.unix).run s notifyThenWake = some t
        ∧ t.consumer = .inside .rotate ∧ t.queue ≠ [] := by
  refine ⟨_, _, rfl, rfl, rfl, rfl, ?_⟩
  refine (front_nonempty Unit Nat Qt.unix).1 _ ?_ .rotate rfl (by simp [Point.UsesFront])
  have hpushed : (dispatcher Unit Nat Qt.unix).ReachBy Monitor.NotifyGuard _ :=
    .run (.init rfl) waitThenPush (by simp [waitThenPush, pushForA, Monitor.NotifyGuard]) rfl
  -- the queue holds the message when it is announced
  have hannounced : (dispatcher Unit Nat Qt.unix).ReachBy Monitor.NotifyGuard _ :=
    .step (a := .notifyOne ()) hpushed ⟨by simp, fun _ _ _ => .inl (List.cons_ne_nil _ _)⟩ rfl
  exact .step (a := .wake) hannounced (by simp [Monitor.NotifyGuard]) rfl

theorem serveFront_requestForA
    : serveFront Qt.unix turnForA.input turnForA.shared requestForA
        =
      some (turnForA.shared, sendData cachedForA (ascii "hi") turnForA.input.results,
        sendLoop (ascii "hi") turnForA.input.results 0) := by
  have hrequest := onClientRequest_cachedForA (ascii "hi") (.accepted 1)
  have hdata := responseData_cachedForA (ascii "hi")
  simp [serveFront, turnForA, hrequest, hdata, sendData]

def pushThenTake : List (Monitor.Label Unit (Queued Nat) Turn) :=
  pushForA ++ [.lock, .act turnForA]

-- The notification of the consumed message finds the dispatcher waiting again.
def notifyLate : List (Monitor.Label Unit (Queued Nat) Turn) :=
  [.act turnForA, .act turnForA] ++ [.lock, .act turnForA, .notifyOne (), .wake]

theorem run_serveForA {s : DispatcherState Unit Nat} (hconsumer : s.consumer = .inside .serve)
    (hqueue : s.queue = [⟨0, requestForA⟩])
    : (dispatcher Unit Nat Qt.unix).run s [.act turnForA, .act turnForA]
        =
      some { s with
        consumer := .outside
        owner := none
        queue := []
        memory := s.memory ++ (closeRequest
          (sendData cachedForA (ascii "hi") turnForA.input.results)).toList } := by
  have hfinished := isFinished_of_cached (c := cachedForA) (ascii "hi") turnForA.input.results rfl
  simp [Machine.run_cons, dispatcher, Monitor.machine, Monitor.step, hconsumer, hqueue,
    Monitor.Program.after, dispatchMessageQueue, Point.act, serveFront_requestForA, hfinished]

theorem run_notifyLate {s : DispatcherState Unit Nat} (hproducer : s.producers () = .unlocked)
    (hconsumer : s.consumer = .inside .serve) (hqueue : s.queue = [⟨0, requestForA⟩])
    : ∃ t, (dispatcher Unit Nat Qt.unix).run s notifyLate = some t
        ∧ t.consumer = .inside .rotate ∧ t.queue = [] := by
  rw [notifyLate, Machine.run_append, run_serveForA hconsumer hqueue]
  simp [Machine.run_cons, dispatcher, Monitor.machine, Monitor.step, Monitor.Program.after,
    dispatchMessageQueue, Point.act, hproducer, Monitor.ConsumerPc.notify, Monitor.State.setProducer]

theorem not_front_nonempty
    : ¬ ∀ s, (dispatcher Unit Nat Qt.unix).ReachBy (fun _ l => l ≠ .spurious) s → FrontReady s := by
  intro h
  obtain ⟨s, hs, hproducer, hconsumer, hqueue⟩ : ∃ s, (dispatcher Unit Nat Qt.unix).run
      (Monitor.initial []) (pushThenTake ++ [.act turnForA]) = some s
      ∧ s.producers () = .unlocked ∧ s.consumer = .inside .serve ∧ s.queue = [⟨0, requestForA⟩] :=
    ⟨_, rfl, rfl, rfl, rfl⟩
  obtain ⟨t, ht, hconsumer, hqueue⟩ := run_notifyLate hproducer hconsumer hqueue
  refine h t ?_ .rotate hconsumer (by simp [Point.UsesFront]) hqueue
  refine Machine.ReachBy.run (.run (.init rfl) _ ?_ hs) notifyLate ?_ ht
  . simp [pushThenTake, pushForA]
  . simp [notifyLate]

-- The test of `size()` and the wait are one step under the mutex of the push, so that every wait
-- begins on an empty queue.
theorem queue_nil_of_blocked (ι τ : Type) [DecidableEq ι] (qt : Qt)
    : ∀ s, (dispatcher ι τ qt).Reachable s → s.consumer = .blocked → ¬ s.Pending →
        s.queue = [] := by
  intro s hs hblocked hpending
  have hwaits : ∀ s l, True → Monitor.WaitGuard (dispatchMessageQueue (τ := τ) qt)
      (s : DispatcherState ι τ) l := by
    intro s l _ turn point m q _ _ hact
    exact .inl (Point.act_wait hact)
  exact (Monitor.noLostWakeup_of_reachBy hwaits hs hblocked).resolve_right hpending

def announceForA : List (Monitor.Label Unit (Queued Nat) Turn) :=
  waitThenPush ++ notifyThenWake ++ [.act turnForA]

def serveThenWait : List (Monitor.Label Unit (Queued Nat) Turn) :=
  [.act turnForA, .act turnForA] ++ [.lock, .act turnForA]

theorem queue_nil_of_blocked_serveThenWait
    : ∃ s t, (dispatcher Unit Nat Qt.unix).run (Monitor.initial []) announceForA = some s
        ∧ s.queue = [⟨0, requestForA⟩]
        ∧ (dispatcher Unit Nat Qt.unix).run s serveThenWait = some t
        ∧ t.consumer = .blocked ∧ t.queue = [] := by
  obtain ⟨s, hs, hconsumer, hqueue, hproducer⟩ : ∃ s, (dispatcher Unit Nat Qt.unix).run
      (Monitor.initial []) announceForA = some s
      ∧ s.consumer = .inside .serve ∧ s.queue = [⟨0, requestForA⟩] ∧ s.producers () = .idle :=
    ⟨_, rfl, rfl, rfl, rfl⟩
  obtain ⟨t, ht, hblocked, hidle⟩ : ∃ t, (dispatcher Unit Nat Qt.unix).run s serveThenWait = some t
      ∧ t.consumer = .blocked ∧ t.producers () = .idle := by
    rw [serveThenWait, Machine.run_append, run_serveForA hconsumer hqueue]
    exact ⟨_, rfl, rfl, hproducer⟩
  refine ⟨s, t, hs, hqueue, ht, hblocked, ?_⟩
  refine queue_nil_of_blocked Unit Nat Qt.unix t ?_ hblocked ?_
  . exact .run (.run (.init rfl) announceForA hs) serveThenWait ht
  . rintro ⟨⟨⟩, hpushed | hunlocked⟩
    . simp [hidle] at hpushed
    . simp [hidle] at hunlocked

end HttpMessageDispatcher
