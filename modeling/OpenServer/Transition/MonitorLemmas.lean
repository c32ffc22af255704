import OpenServer.Transition.Monitor

/-!
This module contains what the monitor guarantees for every consumer program: the mutex excludes, a
wait that is entered on an empty queue loses no wake-up, and a notification that finds work leaves
work for the consumer that it wakes.
-/

namespace Monitor

variable {P : Program κ μ α β}

@[grind .]
theorem ConsumerPc.notify_ne_blocked (pc : ConsumerPc κ) : pc.notify ≠ .blocked := by
  cases pc <;> simp [notify]

@[grind =]
theorem ConsumerPc.notify_eq_inside {pc : ConsumerPc κ} : pc.notify = .inside k ↔ pc = .inside k := by
  cases pc <;> simp [notify]

@[grind =]
theorem ConsumerPc.notify_eq_notified {pc : ConsumerPc κ}
    : pc.notify = .notified ↔ pc = .blocked ∨ pc = .notified := by
  cases pc <;> simp [notify]

inductive Program.After (P : Program κ μ α β) (s : State ι κ μ α) (k : κ) (x : β)
    : State ι κ μ α → Prop where
  | goto : P.act k s.memory s.queue x = some (m, q, .goto k')
      → After P s k x { s with memory := m, queue := q, consumer := .inside k' }
  | wait : P.act k s.memory s.queue x = some (m, q, .wait)
      → After P s k x { s with memory := m, queue := q, consumer := .blocked, owner := none }
  | unlock : P.act k s.memory s.queue x = some (m, q, .unlock)
      → After P s k x { s with memory := m, queue := q, consumer := .outside, owner := none }

theorem Program.after_cases {s t : State ι κ μ α} (h : P.after s k x = some t)
    : P.After s k x t := by
  unfold Program.after at h
  split at h
  . cases h
  . next hact =>
    injection h with h
    rw [← h]
    exact .goto hact
  . next hact =>
    injection h with h
    rw [← h]
    exact .wait hact
  . next hact =>
    injection h with h
    rw [← h]
    exact .unlock hact

structure Exclusive (s : State ι κ μ α) : Prop where
  locked : ∀ i a, s.producers i = .locked a → s.owner = some (.producer i)
  pushed : ∀ i, s.producers i = .pushed → s.owner = some (.producer i)
  inside : ∀ k, s.consumer = .inside k → s.owner = some .consumer
  consumer : s.owner = some .consumer → ∃ k, s.consumer = .inside k
  producer : ∀ i, s.owner = some (.producer i) →
    (∃ a, s.producers i = .locked a) ∨ s.producers i = .pushed
  filled : ∀ i, s.producers i = .pushed → s.queue ≠ []

def State.Pending (s : State ι κ μ α) : Prop :=
  ∃ i, s.producers i = .pushed ∨ s.producers i = .unlocked

def State.Filling (s : State ι κ μ α) : Prop :=
  ∃ i a, s.producers i = .locked a

theorem Exclusive.not_filling {s : State ι κ μ α} (h : Exclusive s) (ho : s.owner = none)
    : ¬ s.Filling := by
  rintro ⟨i, a, hi⟩
  have := h.locked i a hi
  simp [ho] at this

theorem Exclusive.owner_of_blocked {s : State ι κ μ α} (h : Exclusive s)
    (hblocked : s.consumer = .blocked) (hq : s.queue = []) (hf : ¬ s.Filling)
    : s.owner = none := by
  cases ho : s.owner with
  | none => rfl
  | some holder =>
    cases holder with
    | consumer =>
      obtain ⟨k, hk⟩ := h.consumer ho
      simp [hblocked] at hk
    | producer i =>
      cases h.producer i ho with
      | inl hlocked => exact absurd ⟨i, hlocked⟩ hf
      | inr hpushed => exact absurd hq (h.filled i hpushed)

variable [DecidableEq ι]

@[simp, grind =]
theorem State.setProducer_owner (s : State ι κ μ α) : (s.setProducer i pc).owner = s.owner := by
  rfl

@[simp, grind =]
theorem State.setProducer_queue (s : State ι κ μ α) : (s.setProducer i pc).queue = s.queue := by
  rfl

@[simp, grind =]
theorem State.setProducer_consumer (s : State ι κ μ α)
    : (s.setProducer i pc).consumer = s.consumer := by
  rfl

@[simp]
theorem State.setProducer_memory (s : State ι κ μ α) : (s.setProducer i pc).memory = s.memory := by
  rfl

@[grind =]
theorem State.setProducer_producers (s : State ι κ μ α) (j : ι)
    : (s.setProducer i pc).producers j = if j = i then pc else s.producers j := by
  simp [setProducer, Function.update_apply]

theorem step_call {s t : State ι κ μ α} (h : step P s (.call i a) = some t)
    : s.producers i = .idle ∧ t = s.setProducer i (.calling a) := by
  simp only [step] at h
  split at h
  . next hi => simp_all
  . cases h

theorem step_lockProducer {s t : State ι κ μ α} (h : step P s (.lockProducer i) = some t)
    : ∃ a, s.producers i = .calling a ∧ s.owner = none
        ∧ t = { s.setProducer i (.locked a) with owner := some (.producer i) } := by
  simp only [step] at h
  split at h
  . next a hi ho => exact ⟨a, hi, ho, by simp_all⟩
  . cases h

theorem step_push {s t : State ι κ μ α} (h : step P s (.push i) = some t)
    : ∃ a, s.producers i = .locked a
        ∧ t = { s.setProducer i .pushed with queue := s.queue ++ [a] } := by
  simp only [step] at h
  split at h
  . next a hi => exact ⟨a, hi, by simp_all⟩
  . cases h

theorem step_unlockProducer {s t : State ι κ μ α} (h : step P s (.unlockProducer i) = some t)
    : s.producers i = .pushed ∧ t = { s.setProducer i .unlocked with owner := none } := by
  simp only [step] at h
  split at h
  . next hi => exact ⟨hi, by simp_all⟩
  . cases h

theorem step_notifyOne {s t : State ι κ μ α} (h : step P s (.notifyOne i) = some t)
    : s.producers i = .unlocked
        ∧ t = { s.setProducer i .idle with consumer := s.consumer.notify } := by
  simp only [step] at h
  split at h
  . next hi => exact ⟨hi, by simp_all⟩
  . cases h

theorem step_lock {s t : State ι κ μ α} (h : step P s .lock = some t)
    : s.consumer = .outside ∧ s.owner = none
        ∧ t = { s with consumer := .inside P.entry, owner := some .consumer } := by
  simp only [step] at h
  split at h
  . next hc ho => exact ⟨hc, ho, by simp_all⟩
  . cases h

theorem step_act {s t : State ι κ μ α} (h : step P s (.act x) = some t)
    : ∃ k, s.consumer = .inside k ∧ P.After s k x t := by
  simp only [step] at h
  split at h
  . next k hc => exact ⟨k, hc, Program.after_cases h⟩
  . cases h

theorem step_wake {s t : State ι κ μ α} (h : step P s .wake = some t)
    : s.consumer = .notified ∧ s.owner = none
        ∧ t = { s with consumer := .inside P.resume, owner := some .consumer } := by
  simp only [step] at h
  split at h
  . next hc ho => exact ⟨hc, ho, by simp_all⟩
  . cases h

theorem step_spurious {s t : State ι κ μ α} (h : step P s .spurious = some t)
    : s.consumer = .blocked ∧ t = { s with consumer := .notified } := by
  simp only [step] at h
  split at h
  . next hc => exact ⟨hc, by simp_all⟩
  . cases h

theorem Exclusive.step {s t : State ι κ μ α} (h : Exclusive s) (ht : step P s l = some t)
    : Exclusive t := by
  obtain ⟨hlocked, hpushed, hinside, hconsumer, hproducer, hfilled⟩ := h
  cases l with
  | call i a =>
    obtain ⟨hi, rfl⟩ := step_call ht
    constructor <;> grind
  | lockProducer i =>
    obtain ⟨a, hi, ho, rfl⟩ := step_lockProducer ht
    constructor <;> grind
  | push i =>
    obtain ⟨a, hi, rfl⟩ := step_push ht
    have : s.queue ++ [a] ≠ [] := by simp
    constructor <;> grind
  | unlockProducer i =>
    obtain ⟨hi, rfl⟩ := step_unlockProducer ht
    constructor <;> grind
  | notifyOne i =>
    obtain ⟨hi, rfl⟩ := step_notifyOne ht
    constructor <;> grind
  | lock =>
    obtain ⟨hc, ho, rfl⟩ := step_lock ht
    constructor <;> grind
  | act x =>
    obtain ⟨k, hk, hafter⟩ := step_act ht
    cases hafter <;> constructor <;> grind
  | wake =>
    obtain ⟨hc, ho, rfl⟩ := step_wake ht
    constructor <;> grind
  | spurious =>
    obtain ⟨hc, rfl⟩ := step_spurious ht
    constructor <;> grind

theorem exclusive_of_reachBy (h : (machine P m).ReachBy G s) : Exclusive (ι := ι) s := by
  apply Machine.ReachBy.invariant _ _ h
  . intro s hs
    rw [hs]
    constructor <;> simp [initial]
  . intro s l t hs _ ht
    exact hs.step ht

theorem State.Pending.setProducer {s : State ι κ μ α} (h : s.Pending)
    (hpushed : s.producers i ≠ .pushed) (hunlocked : s.producers i ≠ .unlocked)
    : (s.setProducer i pc).Pending := by
  obtain ⟨j, hj⟩ := h
  exists j
  grind

theorem State.Filling.setProducer {s : State ι κ μ α} (h : s.Filling)
    (hlocked : ∀ a, s.producers i ≠ .locked a)
    : (s.setProducer i pc).Filling := by
  obtain ⟨j, a, hj⟩ := h
  exists j, a
  grind

def NoLostWakeup (s : State ι κ μ α) : Prop :=
  s.consumer = .blocked → s.queue = [] ∨ s.Pending

-- The consumer enters `wait` only on an empty queue, or while a notification is still to come.
def WaitGuard (P : Program κ μ α β) (s : State ι κ μ α) (l : Label ι α β) : Prop :=
  ∀ x k m q, l = .act x → s.consumer = .inside k →
    P.act k s.memory s.queue x = some (m, q, .wait) → q = [] ∨ s.Pending

theorem NoLostWakeup.setProducer {s : State ι κ μ α} (h : NoLostWakeup s)
    (hpushed : s.producers i ≠ .pushed) (hunlocked : s.producers i ≠ .unlocked)
    : NoLostWakeup (s.setProducer i pc) := by
  intro hblocked
  cases h hblocked with
  | inl hq => exact .inl hq
  | inr hp => exact .inr (hp.setProducer hpushed hunlocked)

theorem NoLostWakeup.step {s t : State ι κ μ α} (h : NoLostWakeup s) (hg : WaitGuard P s l)
    (ht : step P s l = some t)
    : NoLostWakeup t := by
  cases l with
  | call i a =>
    obtain ⟨hi, rfl⟩ := step_call ht
    apply h.setProducer
    . simp [hi]
    . simp [hi]
  | lockProducer i =>
    obtain ⟨a, hi, ho, rfl⟩ := step_lockProducer ht
    apply h.setProducer
    . simp [hi]
    . simp [hi]
  | push i =>
    obtain ⟨a, hi, rfl⟩ := step_push ht
    intro _
    right
    exists i
    grind
  | unlockProducer i =>
    obtain ⟨hi, rfl⟩ := step_unlockProducer ht
    intro _
    right
    exists i
    grind
  | notifyOne i =>
    obtain ⟨hi, rfl⟩ := step_notifyOne ht
    intro hblocked
    exact absurd hblocked (ConsumerPc.notify_ne_blocked _)
  | lock =>
    obtain ⟨hc, ho, rfl⟩ := step_lock ht
    intro hblocked
    cases hblocked
  | act x =>
    obtain ⟨k, hk, hafter⟩ := step_act ht
    intro hblocked
    cases hafter with
    | goto hact => cases hblocked
    | wait hact => exact hg x k _ _ rfl hk hact
    | unlock hact => cases hblocked
  | wake =>
    obtain ⟨hc, ho, rfl⟩ := step_wake ht
    intro hblocked
    cases hblocked
  | spurious =>
    obtain ⟨hc, rfl⟩ := step_spurious ht
    intro hblocked
    cases hblocked

theorem noLostWakeup_of_reachBy (hG : ∀ s l, G s l → WaitGuard P s l)
    (h : (machine P m).ReachBy G s)
    : NoLostWakeup (ι := ι) s := by
  apply Machine.ReachBy.invariant _ _ h
  . intro s hs
    rw [hs]
    simp [NoLostWakeup, initial]
  . intro s l t hs hg ht
    exact hs.step (hG s l hg) ht

-- A notification that finds the consumer blocked finds work, or a producer about to add some.
def NotifyGuard (s : State ι κ μ α) (l : Label ι α β) : Prop :=
  l ≠ .spurious ∧ ∀ i, l = .notifyOne i → s.consumer = .blocked → s.queue ≠ [] ∨ s.Filling

def WakesToWork (s : State ι κ μ α) : Prop :=
  s.consumer = .notified → s.queue ≠ [] ∨ s.Filling

theorem WakesToWork.setProducer {s : State ι κ μ α} (h : WakesToWork s)
    (hlocked : ∀ a, s.producers i ≠ .locked a)
    : WakesToWork (s.setProducer i pc) := by
  intro hnotified
  cases h hnotified with
  | inl hq => exact .inl hq
  | inr hf => exact .inr (hf.setProducer hlocked)

theorem WakesToWork.step {s t : State ι κ μ α} (h : WakesToWork s) (hg : NotifyGuard s l)
    (ht : step P s l = some t)
    : WakesToWork t := by
  cases l with
  | call i a =>
    obtain ⟨hi, rfl⟩ := step_call ht
    apply h.setProducer
    simp [hi]
  | lockProducer i =>
    obtain ⟨a, hi, ho, rfl⟩ := step_lockProducer ht
    apply h.setProducer
    simp [hi]
  | push i =>
    obtain ⟨a, hi, rfl⟩ := step_push ht
    intro _
    left
    simp
  | unlockProducer i =>
    obtain ⟨hi, rfl⟩ := step_unlockProducer ht
    apply h.setProducer
    simp [hi]
  | notifyOne i =>
    obtain ⟨hi, rfl⟩ := step_notifyOne ht
    intro hnotified
    have hwork : s.queue ≠ [] ∨ s.Filling := by
      cases ConsumerPc.notify_eq_notified.mp hnotified with
      | inl hblocked => exact hg.2 i rfl hblocked
      | inr hnotified => exact h hnotified
    cases hwork with
    | inl hq => exact .inl hq
    | inr hf => exact .inr (hf.setProducer (by simp [hi]))
  | lock =>
    obtain ⟨hc, ho, rfl⟩ := step_lock ht
    intro hnotified
    cases hnotified
  | act x =>
    obtain ⟨k, hk, hafter⟩ := step_act ht
    intro hnotified
    cases hafter <;> cases hnotified
  | wake =>
    obtain ⟨hc, ho, rfl⟩ := step_wake ht
    intro hnotified
    cases hnotified
  | spurious => exact absurd rfl hg.1

theorem wakesToWork_of_reachBy (hG : ∀ s l, G s l → NotifyGuard s l)
    (h : (machine P m).ReachBy G s)
    : WakesToWork (ι := ι) s := by
  apply Machine.ReachBy.invariant _ _ h
  . intro s hs
    rw [hs]
    simp [WakesToWork, initial]
  . intro s l t hs hg ht
    exact hs.step (hG s l hg) ht

theorem wake_of_not_notifyGuard {s t : State ι κ μ α} (h : Exclusive s)
    (hg : ¬ NotifyGuard s (.notifyOne i : Label ι α β)) (ht : step P s (.notifyOne i) = some t)
    : ∃ u, step P t .wake = some u ∧ u.consumer = .inside P.resume ∧ u.queue = [] := by
  obtain ⟨hi, rfl⟩ := step_notifyOne ht
  obtain ⟨hblocked, hq, hf⟩ : s.consumer = .blocked ∧ s.queue = [] ∧ ¬ s.Filling := by
    simpa [NotifyGuard] using hg
  have ho := h.owner_of_blocked hblocked hq hf
  simp [step, hblocked, ho, hq, ConsumerPc.notify]

theorem queue_ne_nil_of_wake {s t : State ι κ μ α} (hs : Exclusive s) (hw : WakesToWork s)
    (ht : Monitor.step P s .wake = some t)
    : t.queue ≠ [] := by
  obtain ⟨hc, ho, rfl⟩ := step_wake ht
  cases hw hc with
  | inl hq => exact hq
  | inr hfill => exact absurd hfill (hs.not_filling ho)

end Monitor
