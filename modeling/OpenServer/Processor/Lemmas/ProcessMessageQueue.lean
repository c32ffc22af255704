import OpenServer.Processor.Impl.ProcessMessageQueue
import OpenServer.Transition.MonitorLemmas

/-!
This module shows when the processor never sleeps over a message. Unlike a dispatcher it does not
look at its queue before it waits.
-/

namespace HtmlMessageProcessor

theorem act_wait {point : Point} {memory : Memory α}
    (h : processMessageQueue.act point memory queue () = some (m, q, .wait))
    : point = .wait ∧ q = queue := by
  simp only [processMessageQueue, Point.act] at h
  split at h
  . simp only [Option.some.injEq, Prod.mk.injEq] at h
    simp [← h.2.1]
  . simp at h
  . split at h
    . simp at h
    . simp at h

def WaitsOnEmpty (s : State ι α) (l : Monitor.Label ι α Unit) : Prop :=
  l = .act () → s.consumer = .inside .wait → s.queue = [] ∨ s.Pending

theorem waitGuard_of_waitsOnEmpty {s : State ι α} (h : WaitsOnEmpty s l)
    : Monitor.WaitGuard processMessageQueue s l := by
  rintro x point m q rfl hpoint hact
  obtain ⟨rfl, rfl⟩ := act_wait hact
  exact h rfl hpoint

theorem not_stranded (ι α : Type) [DecidableEq ι]
    : (∀ s, (processor ι α).ReachBy WaitsOnEmpty s →
          s.consumer = .blocked → ¬ s.Pending → s.queue = [])
        ∧ ∀ s t l, ¬ WaitsOnEmpty s l → (processor ι α).step s l = some t →
          t.consumer = .blocked ∧ ¬ t.Pending ∧ t.queue ≠ [] := by
  constructor
  . intro s hs hblocked hpending
    have := Monitor.noLostWakeup_of_reachBy (fun _ _ => waitGuard_of_waitsOnEmpty) hs hblocked
    exact this.resolve_right hpending
  . intro s t l hguard ht
    obtain ⟨rfl, hpoint, hqueue, hpending⟩ : l = .act () ∧ s.consumer = .inside .wait
        ∧ s.queue ≠ [] ∧ ¬ s.Pending := by
      simpa [WaitsOnEmpty] using hguard
    obtain ⟨point, hpoint', hafter⟩ := Monitor.step_act ht
    rw [hpoint] at hpoint'
    injection hpoint' with hpoint'
    rw [← hpoint'] at hafter
    cases hafter with
    | wait hact =>
      obtain ⟨-, rfl⟩ := act_wait hact
      exact ⟨rfl, hpending, hqueue⟩
    | goto hact => cases hact
    | unlock hact => cases hact

def pushAndNotify (a : Nat) : List (Monitor.Label Unit Nat Unit) :=
  [.call () a, .lockProducer (), .push (), .unlockProducer (), .notifyOne (), .wake]

theorem waitsOnEmpty_pushAndNotify (a : Nat)
    : ∀ l ∈ pushAndNotify a, ∀ s : State Unit Nat, WaitsOnEmpty s l := by
  simp [pushAndNotify, WaitsOnEmpty]

def drainThenWait : List (Monitor.Label Unit Nat Unit) :=
  [.lock, .act ()] ++ pushAndNotify 7 ++ [.act (), .act (), .lock, .act ()]

theorem not_stranded_drainThenWait
    : ∃ s, (processor Unit Nat).run (Monitor.initial {}) drainThenWait = some s
        ∧ s.memory.handed = [(0, 7)] ∧ s.consumer = .blocked ∧ s.queue = [] := by
  refine ⟨_, rfl, rfl, rfl, ?_⟩
  refine (not_stranded Unit Nat).1 _ ?_ rfl ?_
  . have hlock : ∀ s : State Unit Nat, WaitsOnEmpty s .lock := by simp [WaitsOnEmpty]
    have hdrain : ∀ s : State Unit Nat, s.consumer = .inside .drain → WaitsOnEmpty s (.act ()) := by
      simp +contextual [WaitsOnEmpty]
    have hwait : ∀ s : State Unit Nat, s.queue = [] → WaitsOnEmpty s (.act ()) := by
      simp +contextual [WaitsOnEmpty]
    have hwaiting : (processor Unit Nat).ReachBy WaitsOnEmpty _ :=
      .step (a := .act ()) (.step (a := .lock) (.init rfl) (hlock _) rfl) (hwait _ rfl) rfl
    have hwoken := hwaiting.run _ (waitsOnEmpty_pushAndNotify 7) rfl
    have hdrained : (processor Unit Nat).ReachBy WaitsOnEmpty _ :=
      .step (a := .act ()) (.step (a := .act ()) hwoken (hdrain _ rfl) rfl) (hdrain _ rfl) rfl
    exact .step (a := .act ()) (.step (a := .lock) hdrained (hlock _) rfl) (hwait _ rfl) rfl
  . rintro ⟨_, hpushed | hunlocked⟩
    . cases hpushed
    . cases hunlocked

-- The first message is pushed and announced before the processor has reached its `wait`.
def announceFirst : List (Monitor.Label Unit Nat Unit) :=
  [.call () 7, .lockProducer (), .push (), .unlockProducer (), .notifyOne (), .lock, .act ()]

theorem stranded_of_announceFirst
    : ¬ ∀ s, (processor Unit Nat).Reachable s →
        s.consumer = .blocked → ¬ s.Pending → s.queue = [] := by
  intro h
  obtain ⟨s, hs, hblocked, hproducer, hqueue⟩ :
      ∃ s, (processor Unit Nat).run (Monitor.initial {}) announceFirst = some s
        ∧ s.consumer = .blocked ∧ s.producers () = .idle ∧ s.queue = [7] :=
    ⟨_, rfl, rfl, rfl, rfl⟩
  have hpending : ¬ s.Pending := by
    rintro ⟨_, hpushed | hunlocked⟩
    . simp [hproducer] at hpushed
    . simp [hproducer] at hunlocked
  have := h s (Machine.Reachable.run (.init rfl) _ hs) hblocked hpending
  simp [hqueue] at this

end HtmlMessageProcessor
