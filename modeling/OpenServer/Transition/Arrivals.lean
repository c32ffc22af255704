import OpenServer.Transition.History
import OpenServer.Transition.MonitorLemmas

/-!
This module contains what a monitor was asked to queue and what it has queued, as a history of its
runs, and the rules for consumers that take from the front of the queue.
-/

namespace Monitor

-- Both lists name the producer. A message is in the first from its call on, in the second from its
-- push on.
structure Arrivals (ι α : Type) where
  passed : List (ι × α) := []
  arrived : List (ι × α) := []

def Arrivals.messages (past : Arrivals ι α) : List α :=
  past.arrived.map (·.2)

def ProducerPc.pending : ProducerPc α → List α
  | .calling a => [a]
  | .locked a => [a]
  | _ => []

variable [DecidableEq ι]

def sentBy (i : ι) (messages : List (ι × α)) : List α :=
  (messages.filter (fun m => m.1 = i)).map (·.2)

def State.pushed (s : State ι κ μ α) : Label ι α β → List (ι × α)
  | .push i => (s.producers i).pending.map (fun a => (i, a))
  | _ => []

def State.called (_ : State ι κ μ α) : Label ι α β → List (ι × α)
  | .call i a => [(i, a)]
  | _ => []

def arrivals (ι κ μ α β : Type) : History (State ι κ μ α) (Label ι α β) (Arrivals ι α) where
  start := {}
  extend past s l _ :=
    { passed := past.passed ++ s.called l, arrived := past.arrived ++ s.pushed l }

def recorded (P : Program κ μ α β) (m : μ) : Machine (State ι κ μ α × Arrivals ι α) (Label ι α β) :=
  (machine P m).withHistory (arrivals ι κ μ α β)

def Program.Acts (P : Program κ μ α β) (s t : State ι κ μ α) : Prop :=
  ∃ k x action, P.act k s.memory s.queue x = some (t.memory, t.queue, action)

-- What the consumer has taken, kept in its memory, and the queue behind it.
def Conserves (P : Program κ μ α β) (taken : μ → List α) : Prop :=
  ∀ k m q x m' q' action, P.act k m q x = some (m', q', action) → taken m' ++ q' = taken m ++ q

theorem sentBy_append (i : ι) (as bs : List (ι × α))
    : sentBy i (as ++ bs) = sentBy i as ++ sentBy i bs := by
  simp [sentBy]

variable {P : Program κ μ α β} {m : μ}

theorem step_memory {s t : State ι κ μ α} (h : step P s l = some t)
    : (t.memory = s.memory ∧ t.queue = s.queue ++ (s.pushed l).map (·.2))
        ∨ (P.Acts s t ∧ s.pushed l = []) := by
  cases l with
  | call i a =>
    obtain ⟨-, rfl⟩ := step_call h
    exact .inl ⟨rfl, (List.append_nil _).symm⟩
  | lockProducer i =>
    obtain ⟨a, -, -, rfl⟩ := step_lockProducer h
    exact .inl ⟨rfl, (List.append_nil _).symm⟩
  | push i =>
    obtain ⟨a, hi, rfl⟩ := step_push h
    exact .inl ⟨rfl, by simp [State.pushed, hi, ProducerPc.pending]⟩
  | unlockProducer i =>
    obtain ⟨-, rfl⟩ := step_unlockProducer h
    exact .inl ⟨rfl, (List.append_nil _).symm⟩
  | notifyOne i =>
    obtain ⟨-, rfl⟩ := step_notifyOne h
    exact .inl ⟨rfl, (List.append_nil _).symm⟩
  | lock =>
    obtain ⟨-, -, rfl⟩ := step_lock h
    exact .inl ⟨rfl, (List.append_nil _).symm⟩
  | act x =>
    obtain ⟨k, -, hafter⟩ := step_act h
    cases hafter with
    | goto hact => exact .inr ⟨⟨k, x, _, hact⟩, rfl⟩
    | wait hact => exact .inr ⟨⟨k, x, _, hact⟩, rfl⟩
    | unlock hact => exact .inr ⟨⟨k, x, _, hact⟩, rfl⟩
  | wake =>
    obtain ⟨-, -, rfl⟩ := step_wake h
    exact .inl ⟨rfl, (List.append_nil _).symm⟩
  | spurious =>
    obtain ⟨-, rfl⟩ := step_spurious h
    exact .inl ⟨rfl, (List.append_nil _).symm⟩

theorem sentBy_map (i j : ι) (as : List α)
    : sentBy i (as.map (fun a => (j, a))) = if j = i then as else [] := by
  by_cases hij : j = i
  . simp [sentBy, hij, List.filter_map, Function.comp_def]
  . simp [sentBy, hij]

theorem pending_update {producers : ι → ProducerPc α} (j : ι) (called pushed : List α)
    (hpc : (producers j).pending ++ called = pushed ++ pc.pending) (i : ι)
    : (producers i).pending ++ sentBy i (called.map (fun a => (j, a)))
        =
      sentBy i (pushed.map (fun a => (j, a))) ++ (Function.update producers j pc i).pending := by
  rw [sentBy_map, sentBy_map]
  by_cases hij : j = i
  . subst hij
    simpa using hpc
  . simp [hij, Function.update_of_ne (Ne.symm hij)]

-- A producer has pushed all it was called with but the message of the call it is in.
theorem step_pending {s t : State ι κ μ α} (h : step P s l = some t) (i : ι)
    : (s.producers i).pending ++ sentBy i (s.called l)
        =
      sentBy i (s.pushed l) ++ (t.producers i).pending := by
  cases l with
  | call j a =>
    obtain ⟨hj, rfl⟩ := step_call h
    exact pending_update j [a] [] (by rw [hj]; rfl) i
  | lockProducer j =>
    obtain ⟨a, hj, -, rfl⟩ := step_lockProducer h
    exact pending_update j [] [] (by rw [hj]; rfl) i
  | push j =>
    obtain ⟨a, hj, rfl⟩ := step_push h
    exact pending_update j [] _ (by rw [hj]; rfl) i
  | unlockProducer j =>
    obtain ⟨hj, rfl⟩ := step_unlockProducer h
    exact pending_update j [] [] (by rw [hj]; rfl) i
  | notifyOne j =>
    obtain ⟨hj, rfl⟩ := step_notifyOne h
    exact pending_update j [] [] (by rw [hj]; rfl) i
  | lock =>
    obtain ⟨-, -, rfl⟩ := step_lock h
    simp [State.called, State.pushed, sentBy]
  | act x =>
    obtain ⟨k, -, hafter⟩ := step_act h
    cases hafter <;> simp [State.called, State.pushed, sentBy]
  | wake =>
    obtain ⟨-, -, rfl⟩ := step_wake h
    simp [State.called, State.pushed, sentBy]
  | spurious =>
    obtain ⟨-, rfl⟩ := step_spurious h
    simp [State.called, State.pushed, sentBy]

variable {p : State ι κ μ α × Arrivals ι α}

theorem taken_append_queue (hP : Conserves P taken) (hm : taken m = [])
    (h : (recorded P m).ReachBy G p)
    : taken p.1.memory ++ p.1.queue = p.2.messages := by
  apply Machine.ReachBy.history_invariant
    (I := fun s past => taken s.memory ++ s.queue = past.messages) _ _ h
  . rintro s rfl
    simp [initial, hm, arrivals, Arrivals.messages]
  . intro s past l t ih _ ht
    simp only [Arrivals.messages] at ih ⊢
    simp only [arrivals, List.map_append, ← ih]
    cases step_memory ht with
    | inl hpush => simp [hpush.1, hpush.2]
    | inr hact =>
      obtain ⟨⟨k, x, action, hact⟩, hnone⟩ := hact
      simp [hnone, hP _ _ _ _ _ _ _ hact]

theorem passed_eq (h : (recorded P m).ReachBy G p) (i : ι)
    : sentBy i p.2.passed = sentBy i p.2.arrived ++ (p.1.producers i).pending := by
  apply Machine.ReachBy.history_invariant
    (I := fun s past => sentBy i past.passed = sentBy i past.arrived ++ (s.producers i).pending) _ _ h
  . rintro s rfl
    simp [initial, arrivals, sentBy, ProducerPc.pending]
  . intro s past l t ih _ ht
    simp only [arrivals, sentBy_append, ih, List.append_assoc]
    rw [step_pending ht i]

theorem memory_invariant {I : μ → Prop} (hm : I m)
    (hP : ∀ k m q x m' q' action, I m → P.act k m q x = some (m', q', action) → I m')
    (h : (recorded P m).ReachBy G p)
    : I p.1.memory := by
  apply Machine.ReachBy.history_invariant (I := fun s _ => I s.memory) _ _ h
  . rintro s rfl
    exact hm
  . intro s past l t ih _ ht
    cases step_memory ht with
    | inl hpush => rwa [hpush.1]
    | inr hact =>
      obtain ⟨⟨k, x, action, hact⟩, -⟩ := hact
      exact hP _ _ _ _ _ _ _ ih hact

end Monitor
