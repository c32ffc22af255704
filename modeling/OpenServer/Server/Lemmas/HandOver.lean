import OpenServer.Processor.Lemmas.HandOver
import OpenServer.Server.Lemmas.Deadlock

/-!
This module shows which message the processor carries while it is inside `onNewMessageArrived`: the
front of `qclients_`, to the dispatcher whose turn it is.
-/

open HttpMessageDispatcher HtmlMessageProcessor

namespace Locking

def ProducerStep.adds (p : ProducerStep) (pc : Monitor.ProducerPc α) : List α :=
  match p with
  | .push => pc.pending
  | _ => []

-- The message of the call in progress is the front of `qclients_`, and its turn is the dispatcher's.
structure Carrying (s : State τ) : Prop where
  inTurn : s.processor.memory.InTurn
  carried : ∀ d, s.handOver = .calling d → (d : Nat) = s.processor.memory.worker
    ∧ ∃ e rest, s.processor.queue = e :: rest
      ∧ ∀ a, ((s.dispatchers d).producers () = .calling a ∨ (s.dispatchers d).producers () = .locked a)
        → a = e
  filled : s.handOver = .returned → s.processor.queue ≠ []

variable {qt : Qt} {s t : State τ}

theorem InTurn.step (h : s.processor.memory.InTurn)
    (ht : Monitor.step processMessageQueue s.processor l = some m)
    : m.memory.InTurn := by
  cases Monitor.step_memory ht with
  | inl hsame => rwa [hsame.1]
  | inr hact =>
    obtain ⟨⟨point, x, action, hact⟩, -⟩ := hact
    exact h.act hact

theorem drain_cases {memory : Memory α} (h : memory.InTurn)
    (hact : HtmlMessageProcessor.Point.act .drain memory (front :: rest) () = some (m, q, action))
    : q = rest ∧ m.handed = memory.handed ++ [(memory.worker, front)] ∧ action = .goto .drain := by
  have hworker : memory.worker < numDispatchers := by
    rw [h.worker]
    exact Nat.mod_lt _ (by decide)
  simp only [HtmlMessageProcessor.Point.act, branch_eq hworker, Option.some.injEq,
    Prod.mk.injEq] at hact
  obtain ⟨rfl, rfl, rfl⟩ := hact
  exact ⟨rfl, rfl, rfl⟩

theorem ProducerStep.queue_eq {P : Monitor.Program κ μ α β} {s t : Monitor.State Unit κ μ α}
    {p : ProducerStep} (h : Monitor.step P s p.label = some t)
    : t.memory = s.memory ∧ t.queue = s.queue ++ p.adds (s.producers ()) := by
  cases p with
  | lock =>
    obtain ⟨a, -, -, rfl⟩ := Monitor.step_lockProducer h
    simp [adds]
  | push =>
    obtain ⟨a, ha, rfl⟩ := Monitor.step_push h
    simp [adds, ha, Monitor.ProducerPc.pending]
  | unlock =>
    obtain ⟨-, rfl⟩ := Monitor.step_unlockProducer h
    simp [adds]
  | notifyOne =>
    obtain ⟨-, rfl⟩ := Monitor.step_notifyOne h
    simp [adds]

theorem step_called (ht : step qt s .onNewMessageArrived = some t)
    : ∃ front rest dispatcher worker q, s.handOver = .pending
        ∧ s.processor.consumer = .inside .drain ∧ s.processor.queue = front :: rest
        ∧ branch s.processor.memory.worker = some (dispatcher, worker)
        ∧ Monitor.step (dispatchMessageQueue qt) (s.dispatchers (Fin.ofNat 12 dispatcher))
          (.call () front) = some q
        ∧ t = { s.setDispatcher (Fin.ofNat 12 dispatcher) q with
            handOver := .calling (Fin.ofNat 12 dispatcher) } := by
  simp only [step, Option.bind_eq_bind] at ht
  split at ht
  . next front rest hpending hdrain hqueue =>
    obtain ⟨⟨dispatcher, worker⟩, hbranch, ht⟩ := Option.bind_eq_some_iff.mp ht
    obtain ⟨q, hs, ht⟩ := Option.bind_eq_some_iff.mp ht
    injection ht with ht
    exact ⟨front, rest, dispatcher, worker, q, hpending, hdrain, hqueue, hbranch, hs, ht.symm⟩
  . cases ht

theorem label_of_called (ht : step qt s l = some t) (hpending : s.handOver = .pending)
    (hcalling : t.handOver = .calling d)
    : l = .onNewMessageArrived := by
  cases l with
  | onNewMessageArrived => rfl
  | handOver p => simp [step, hpending] at ht
  | poll p =>
    obtain ⟨m, -, ht⟩ := Option.bind_eq_some_iff.mp ht
    injection ht with ht
    simp [← ht, hpending] at hcalling
  | processor c =>
    obtain ⟨-, m, -, rfl⟩ : _ ∧ ∃ m, _ ∧ _ = t := by
      simpa [step, Option.bind_eq_some_iff] using ht
    simp at hcalling
  | dispatcher e c =>
    obtain ⟨-, q, -, rfl⟩ : _ ∧ ∃ q, _ ∧ _ = t := by
      simpa [step, Option.bind_eq_some_iff] using ht
    simp [State.setDispatcher, State.setClosing, hpending] at hcalling
  | onNewClientMessage e =>
    obtain ⟨-, m, -, rfl⟩ : _ ∧ ∃ m, _ ∧ _ = t := by
      simpa [step, Option.bind_eq_some_iff] using ht
    simp [hpending] at hcalling
  | _ => grind [step, State.setClosing]

theorem Carrying.step (h : Carrying s) (ht : step qt s l = some t) : Carrying t := by
  by_cases hl : l = .onNewMessageArrived
  . subst hl
    obtain ⟨front, rest, dispatcher, worker, q, -, -, hqueue, hbranch, hs, rfl⟩ := step_called ht
    obtain ⟨-, rfl⟩ := Monitor.step_call hs
    have hturn := h.inTurn.worker
    have hworker : s.processor.memory.worker < numDispatchers := by
      rw [hturn]
      exact Nat.mod_lt _ (by decide)
    rw [branch_eq hworker] at hbranch
    simp only [Option.some.injEq, Prod.mk.injEq] at hbranch
    constructor
    . exact h.inTurn
    . rintro d hd
      injection hd with hd
      subst hd
      refine ⟨?_, front, rest, hqueue, ?_⟩
      . simp only [Fin.val_ofNat, ← hbranch.1]
        exact Nat.mod_eq_of_lt hworker
      . simp [State.setDispatcher, Monitor.State.setProducer_producers]
    . rintro hreturned
      cases hreturned
  . cases step_cases ht with
    | onNewClientMessage _ hs =>
      obtain ⟨-, rfl⟩ := Monitor.step_call hs
      exact ⟨h.inTurn, h.carried, h.filled⟩
    | poll p hs =>
      obtain ⟨hmemory, hqueue⟩ := ProducerStep.queue_eq hs
      constructor
      . simpa only [hmemory] using h.inTurn
      . intro d hd
        obtain ⟨hworker, e, rest, hfront, hcarried⟩ := h.carried d hd
        refine ⟨by simpa only [hmemory] using hworker, e,
          rest ++ p.adds (s.processor.producers ()), ?_, hcarried⟩
        simp [hqueue, hfront]
      . intro hreturned
        simp [hqueue, h.filled hreturned]
    | processor c _ hs =>
      constructor
      . exact InTurn.step h.inTurn hs
      . rintro d hd
        cases hd
      . rintro hreturned
        cases hreturned
    | onNewMessageArrived d hpending => exact absurd (label_of_called ht hpending rfl) hl
    | @handOver q d p hcalling hs =>
      obtain ⟨hworker, e, rest, hfront, hcarried⟩ := h.carried d hcalling
      have hcalled : ∀ a, (q.producers () = .calling a ∨ q.producers () = .locked a) → a = e := by
        intro a ha
        cases p with
        | lock =>
          obtain ⟨b, hb, -, rfl⟩ := Monitor.step_lockProducer hs
          have hsame : b = a := by
            simpa [Monitor.State.setProducer_producers] using ha
          rw [← hsame]
          exact hcarried b (.inl hb)
        | push =>
          obtain ⟨b, hb, rfl⟩ := Monitor.step_push hs
          simp [Monitor.State.setProducer_producers] at ha
        | unlock =>
          obtain ⟨-, rfl⟩ := Monitor.step_unlockProducer hs
          simp [Monitor.State.setProducer_producers] at ha
        | notifyOne =>
          obtain ⟨-, rfl⟩ := Monitor.step_notifyOne hs
          simp [Monitor.State.setProducer_producers] at ha
      constructor
      . exact h.inTurn
      . rintro d' hd'
        have : d' = d := by
          cases p <;> simp_all [ProducerStep.handOver]
        subst this
        refine ⟨hworker, e, rest, hfront, ?_⟩
        simpa [State.setDispatcher] using hcalled
      . intro _
        simp [State.setDispatcher, hfront]
    | @dispatcher q d c _ hs =>
      refine ⟨h.inTurn, ?_, h.filled⟩
      intro d' hd'
      obtain ⟨hworker, e, rest, hfront, hcarried⟩ := h.carried d' hd'
      refine ⟨hworker, e, rest, hfront, ?_⟩
      by_cases hne : d' = d
      . subst hne
        simpa [State.setDispatcher, State.setClosing, ConsumerStep.producers_eq hs] using hcarried
      . simpa [State.setDispatcher, State.setClosing, hne] using hcarried
    | _ => exact ⟨h.inTurn, h.carried, h.filled⟩

theorem carrying_of_reachable (h : (machine τ qt).Reachable s) : Carrying s := by
  apply Machine.Reachable.invariant _ _ h
  . rintro s rfl
    refine ⟨⟨rfl, rfl⟩, ?_, ?_⟩
    . rintro d hd
      cases hd
    . rintro hreturned
      cases hreturned
  . intro s l t hs ht
    exact hs.step ht

end Locking
