import OpenServer.Server.Impl.Locking
import OpenServer.Transition.MonitorLemmas

/-!
This module shows that the threads over their mutexes are the monitors of the processor and of the
dispatchers, each of which makes only steps of its own.
-/

open HttpMessageDispatcher HtmlMessageProcessor

namespace Locking

inductive Stepped (qt : Qt) (s : State τ) : State τ → Prop where
  | onNewClientMessage : s.checking = .outside
      → Monitor.step processMessageQueue s.processor (.call () e) = some m
      → Stepped qt s { s with processor := m }
  | poll (p : ProducerStep) : Monitor.step processMessageQueue s.processor p.label = some m
      → Stepped qt s { s with processor := m }
  | checkClosedSessions : s.checking = .outside → s.processor.producers () = .idle
      → Stepped qt s { s with checking := .locking }
  | lockClose : s.checking = .locking → s.closeOwner = none
      → Stepped qt s { s with checking := .locked, closeOwner := some .poll }
  | clear : s.checking = .locked
      → Stepped qt s { s with checking := .unlocked, closeOwner := none, qclientsClose := [] }
  | checked : s.checking = .unlocked → Stepped qt s { s with checking := .outside }
  | processor (c : ConsumerStep Unit) : s.mayPop
      → Monitor.step processMessageQueue s.processor c.label = some m
      → Stepped qt s { s with processor := m, handOver := .pending }
  | onNewMessageArrived (d : Fin 12) : s.handOver = .pending → s.processor.consumer = .inside .drain
      → Monitor.step (dispatchMessageQueue qt) (s.dispatchers d) (.call () e) = some q
      → Stepped qt s { s.setDispatcher d q with handOver := .calling d }
  | handOver (d : Fin 12) (p : ProducerStep) : s.handOver = .calling d
      → Monitor.step (dispatchMessageQueue qt) (s.dispatchers d) p.label = some q
      → Stepped qt s { s.setDispatcher d q with handOver := p.handOver d }
  | dispatcher (d : Fin 12) (c : ConsumerStep Turn) : s.mayFinish d
      → Monitor.step (dispatchMessageQueue qt) (s.dispatchers d) c.label = some q
      → Stepped qt s ((s.setDispatcher d q).setClosing d .outside)
  | requestClose (d : Fin 12) : s.closing d = .outside
      → State.asksFor (s.dispatchers d) = some c
      → Stepped qt s (s.setClosing d .locking)
  | lockRequest (d : Fin 12) : s.closing d = .locking → s.closeOwner = none
      → Stepped qt s { s.setClosing d .locked with closeOwner := some (.dispatcher d) }
  | pushBack (d : Fin 12) : s.closing d = .locked
      → Stepped qt s { s.setClosing d .unlocked with
          closeOwner := none,
          qclientsClose := s.qclientsClose ++ (State.asksFor (s.dispatchers d)).toList }

variable {qt : Qt} {s t : State τ}

theorem step_cases (ht : step qt s l = some t) : Stepped qt s t := by
  cases l with
  | onNewClientMessage e =>
    simp only [step, Option.bind_eq_bind] at ht
    split at ht
    . next hchecking =>
      obtain ⟨m, hs, ht⟩ := Option.bind_eq_some_iff.mp ht
      injection ht with ht
      rw [← ht]
      exact .onNewClientMessage hchecking hs
    . cases ht
  | poll p =>
    obtain ⟨m, hs, ht⟩ := Option.bind_eq_some_iff.mp ht
    injection ht with ht
    rw [← ht]
    exact .poll p hs
  | checkClosedSessions =>
    simp only [step] at ht
    split at ht
    . next houtside hidle =>
      injection ht with ht
      rw [← ht]
      exact .checkClosedSessions houtside hidle
    . cases ht
  | lockClose =>
    simp only [step] at ht
    split at ht
    . next hlocking hfree =>
      injection ht with ht
      rw [← ht]
      exact .lockClose hlocking hfree
    . cases ht
  | clear =>
    simp only [step] at ht
    split at ht
    . next hlocked =>
      injection ht with ht
      rw [← ht]
      exact .clear hlocked
    . cases ht
  | checked =>
    simp only [step] at ht
    split at ht
    . next hunlocked =>
      injection ht with ht
      rw [← ht]
      exact .checked hunlocked
    . cases ht
  | processor c =>
    simp only [step, Option.bind_eq_bind] at ht
    split at ht
    . next hmay =>
      obtain ⟨m, hs, ht⟩ := Option.bind_eq_some_iff.mp ht
      injection ht with ht
      rw [← ht]
      exact .processor c hmay hs
    . cases ht
  | onNewMessageArrived =>
    simp only [step, Option.bind_eq_bind] at ht
    split at ht
    . next front _ hpending hdrain _ =>
      obtain ⟨⟨dispatcher, worker⟩, -, ht⟩ := Option.bind_eq_some_iff.mp ht
      obtain ⟨q, hs, ht⟩ := Option.bind_eq_some_iff.mp ht
      injection ht with ht
      rw [← ht]
      exact .onNewMessageArrived _ hpending hdrain hs
    . cases ht
  | handOver p =>
    simp only [step, Option.bind_eq_bind] at ht
    split at ht
    . next d hcalling =>
      obtain ⟨q, hs, ht⟩ := Option.bind_eq_some_iff.mp ht
      injection ht with ht
      rw [← ht]
      exact .handOver d p hcalling hs
    . cases ht
  | dispatcher d c =>
    simp only [step, Option.bind_eq_bind] at ht
    split at ht
    . next hmay =>
      obtain ⟨q, hs, ht⟩ := Option.bind_eq_some_iff.mp ht
      injection ht with ht
      rw [← ht]
      exact .dispatcher d c hmay hs
    . cases ht
  | requestClose d =>
    simp only [step] at ht
    split at ht
    . next houtside hasks =>
      injection ht with ht
      rw [← ht]
      exact .requestClose d houtside hasks
    . cases ht
  | lockRequest d =>
    simp only [step] at ht
    split at ht
    . next hlocking hfree =>
      injection ht with ht
      rw [← ht]
      exact .lockRequest d hlocking hfree
    . cases ht
  | pushBack d =>
    simp only [step] at ht
    split at ht
    . next hlocked =>
      injection ht with ht
      rw [← ht]
      exact .pushBack d hlocked
    . cases ht

theorem moves_setDispatcher (d e : Fin 12)
    (hs : Monitor.step (dispatchMessageQueue qt) (s.dispatchers d) l = some q)
    : (dispatcher Unit τ qt).Moves (s.dispatchers e) ((s.setDispatcher d q).dispatchers e) := by
  by_cases he : e = d
  . subst he
    refine .inr ⟨l, ?_⟩
    simp only [State.setDispatcher, Function.update_self]
    exact hs
  . exact .inl (by simp [State.setDispatcher, he])

theorem Stepped.moves_processor (h : Stepped qt s t)
    : (HtmlMessageProcessor.processor Unit (Queued τ)).Moves s.processor t.processor := by
  cases h with
  | @onNewClientMessage e m _ hs => exact .inr ⟨.call () e, hs⟩
  | poll p hs => exact .inr ⟨p.label, hs⟩
  | processor c _ hs => exact .inr ⟨c.label, hs⟩
  | _ => exact .inl rfl

theorem Stepped.moves_dispatcher (h : Stepped qt s t) (d : Fin 12)
    : (HttpMessageDispatcher.dispatcher Unit τ qt).Moves (s.dispatchers d) (t.dispatchers d) := by
  cases h with
  | onNewMessageArrived e _ _ hs => exact moves_setDispatcher e d hs
  | handOver e p _ hs => exact moves_setDispatcher e d hs
  | dispatcher e c _ hs => exact moves_setDispatcher e d hs
  | _ => exact .inl rfl

theorem components_reachable (h : (machine τ qt).Reachable s)
    : (HtmlMessageProcessor.processor Unit (Queued τ)).Reachable s.processor
        ∧ ∀ d, (HttpMessageDispatcher.dispatcher Unit τ qt).Reachable (s.dispatchers d) := by
  induction h with
  | init h =>
    rw [h]
    exact ⟨.init rfl, fun _ => .init rfl⟩
  | step _ _ ht ih =>
    have hstepped := step_cases ht
    exact ⟨ih.1.moves hstepped.moves_processor, fun d => (ih.2 d).moves (hstepped.moves_dispatcher d)⟩

end Locking
