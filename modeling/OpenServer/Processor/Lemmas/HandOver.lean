import Mathlib.Tactic.IntervalCases
import OpenServer.Processor.Impl.ProcessMessageQueue
import OpenServer.Transition.Arrivals
import OpenServer.Transition.RoundRobin

/-!
This module shows that the processor hands every message over once, in the order of arrival, to the
dispatchers in turn.
-/

namespace HtmlMessageProcessor

def numDispatchers : Nat := 12

theorem branch_eq {worker : Nat} (h : worker < numDispatchers)
    : branch worker = some (worker, (worker + 1) % numDispatchers) := by
  unfold numDispatchers at h
  interval_cases worker <;> rfl

def Memory.messages (memory : Memory α) : List α :=
  memory.handed.map (·.2)

structure Memory.InTurn (memory : Memory α) : Prop where
  worker : memory.worker = memory.handed.length % numDispatchers
  handed : memory.handed = RoundRobin.deal numDispatchers memory.messages

namespace Point

theorem act_cases {memory memory' : Memory α}
    (h : Point.act point memory queue () = some (memory', queue', action))
    : memory' = memory ∧ queue' = queue
        ∨ ∃ front dispatcher worker, queue = front :: queue'
          ∧ branch memory.worker = some (dispatcher, worker)
          ∧ memory' = { worker, handed := memory.handed ++ [(dispatcher, front)] } := by
  unfold act at h
  split at h
  . simp only [Option.some.injEq, Prod.mk.injEq] at h
    exact .inl ⟨h.1.symm, h.2.1.symm⟩
  . simp only [Option.some.injEq, Prod.mk.injEq] at h
    exact .inl ⟨h.1.symm, h.2.1.symm⟩
  . split at h
    . next front rest _ dispatcher worker hbranch =>
      simp only [Option.some.injEq, Prod.mk.injEq] at h
      obtain ⟨rfl, rfl, -⟩ := h
      exact .inr ⟨front, dispatcher, worker, rfl, hbranch, rfl⟩
    . simp only [Option.some.injEq, Prod.mk.injEq] at h
      exact .inl ⟨h.1.symm, h.2.1.symm⟩

end Point

theorem conserves : Monitor.Conserves processMessageQueue (Memory.messages (α := α)) := by
  intro point memory queue x memory' queue' action hact
  cases Point.act_cases hact with
  | inl hsame => rw [hsame.1, hsame.2]
  | inr hhand =>
    obtain ⟨front, dispatcher, worker, rfl, -, rfl⟩ := hhand
    simp [Memory.messages]

theorem Memory.InTurn.act {memory : Memory α} (h : memory.InTurn)
    (hact : Point.act point memory queue () = some (memory', queue', action))
    : memory'.InTurn := by
  cases Point.act_cases hact with
  | inl hsame => rwa [hsame.1]
  | inr hhand =>
    obtain ⟨front, dispatcher, worker, -, hbranch, rfl⟩ := hhand
    rw [h.worker, branch_eq (Nat.mod_lt _ (by decide))] at hbranch
    simp only [Option.some.injEq, Prod.mk.injEq] at hbranch
    obtain ⟨rfl, rfl⟩ := hbranch
    have hlength : memory.messages.length = memory.handed.length := by
      simp [Memory.messages]
    constructor
    . simp
    . dsimp only [Memory.messages]
      rw [List.map_append, List.map_singleton, RoundRobin.deal_append]
      change _ = RoundRobin.deal numDispatchers memory.messages ++ [(memory.messages.length % _, _)]
      rw [← h.handed, hlength]

theorem handOver_inTurn (ι α : Type) [DecidableEq ι]
    : ∀ s past, ((processor ι α).withHistory (Monitor.arrivals ι Point (Memory α) α Unit)).Reachable
          (s, past) →
        s.memory.handed.map (·.2) ++ s.queue = past.messages
          ∧ (∀ i, Monitor.sentBy i past.passed
              = Monitor.sentBy i past.arrived ++ (s.producers i).pending)
          ∧ (∀ k dispatcher a, s.memory.handed[k]? = some (dispatcher, a) →
              dispatcher = k % numDispatchers ∧ past.messages[k]? = some a)
          ∧ ∀ dispatcher < numDispatchers, ∀ j,
              (RoundRobin.received dispatcher s.memory.handed)[j]?
                =
              (past.messages.take s.memory.handed.length)[numDispatchers * j + dispatcher]? := by
  intro s past h
  have hqueue : s.memory.messages ++ s.queue = past.messages :=
    Monitor.taken_append_queue conserves rfl h
  have hturn : s.memory.InTurn := by
    apply Monitor.memory_invariant (I := Memory.InTurn) _ _ h
    . constructor <;> rfl
    . intro point memory queue x memory' queue' action hmemory hact
      exact hmemory.act hact
  refine ⟨hqueue, Monitor.passed_eq h, ?_, ?_⟩
  . intro k dispatcher a hk
    rw [hturn.handed, RoundRobin.getElem?_deal] at hk
    obtain ⟨b, hb, heq⟩ := Option.map_eq_some_iff.mp hk
    injection heq with hdispatcher hba
    refine ⟨hdispatcher.symm, ?_⟩
    have hlt : k < s.memory.messages.length := (List.getElem?_eq_some_iff.mp hb).1
    rw [← hqueue, ← hba, List.getElem?_append_left hlt]
    exact hb
  . intro dispatcher hdispatcher j
    have htake : past.messages.take s.memory.handed.length = s.memory.messages := by
      rw [← hqueue, List.take_left']
      simp [Memory.messages]
    rw [htake, hturn.handed, RoundRobin.getElem?_received_deal hdispatcher]

-- One message is handed over, the next one is queued while the processor waits again.
def handOneQueueOne : List (Monitor.Label Unit Nat Unit) :=
  [.lock, .act (), .call () 7, .lockProducer (), .push (), .unlockProducer (), .notifyOne (), .wake,
    .act (), .act (), .call () 8, .lockProducer (), .push ()]

theorem handOver_inTurn_handOneQueueOne
    : ∃ s past, ((processor Unit Nat).withHistory (Monitor.arrivals _ _ _ _ _)).run
          (Monitor.initial {}, {}) handOneQueueOne = some (s, past)
        ∧ past.messages = [7, 8] ∧ s.memory.handed = [(0, 7)]
        ∧ s.memory.handed.map (·.2) ++ s.queue = past.messages := by
  refine ⟨_, _, rfl, rfl, rfl, ?_⟩
  refine (handOver_inTurn Unit Nat _ _ ?_).1
  apply Machine.Reachable.run (s := (Monitor.initial {}, {})) _ handOneQueueOne rfl
  exact .init ⟨rfl, rfl⟩

end HtmlMessageProcessor
