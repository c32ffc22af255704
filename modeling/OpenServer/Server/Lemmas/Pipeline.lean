import OpenServer.Dispatcher.Lemmas.Servable
import OpenServer.Server.Impl.Pipeline
import OpenServer.Transition.Refinement
import OpenServer.Transition.RoundRobin

/-!
This module shows that the pipeline neither loses nor duplicates a session, and that each of its
queues is one that the sessions arrive at in their turn.
-/

open HttpMessageDispatcher

theorem HttpMessageDispatcher.Queue.leadsTo {q₀ q t : Queue τ} (l : Queue.Label τ)
    (h : q.step qt l = some t)
    : (Queue.machine qt q₀).LeadsTo (fun _ _ => True) q t :=
  .step trivial h

namespace Pipeline

variable {qt : Qt} {p q : Pipeline τ}

def dealtTo (p : Pipeline τ) (d : Fin 12) : List (Queued τ) :=
  RoundRobin.received d (RoundRobin.deal 12 (p.submitted.take p.dealt))

structure Conserved (p : Pipeline τ) : Prop where
  dealt_le : p.dealt ≤ p.submitted.length
  perm : ∀ d, ((p.queues d).map (·.tag) ++ p.left d).Perm ((p.dealtTo d).map (·.tag))

theorem leadsTo (l : Label τ) (h : step qt p l = some q)
    : (machine τ qt).LeadsTo (fun _ _ => True) p q :=
  .step trivial h

theorem deal_cases (h : p.deal = some q)
    : ∃ e, ∃ d : Fin 12, p.submitted[p.dealt]? = some e ∧ (d : Nat) = p.dealt % 12
        ∧ q = { p with
            dealt := p.dealt + 1
            queues := Function.update p.queues d (p.queues d ++ [e]) } := by
  simp only [deal, Option.bind_eq_bind, Option.bind_eq_some_iff, Option.some.injEq] at h
  obtain ⟨e, he, h⟩ := h
  exact ⟨e, _, he, rfl, h.symm⟩

theorem iterate_cases (h : p.iterate qt d turn = some q)
    : ∃ r, HttpMessageDispatcher.iterate qt turn.input turn.shared (p.queues d) = some r
        ∧ q = { p with
            queues := Function.update p.queues d r.queue
            left := Function.update p.left d
              (p.left d ++ if r.popped then [r.worked] else []) } := by
  simp only [iterate, Option.bind_eq_bind, Option.bind_eq_some_iff, Option.some.injEq] at h
  obtain ⟨r, hr, h⟩ := h
  exact ⟨r, hr, h.symm⟩

theorem Conserved.submit (h : p.Conserved) (e : Queued τ)
    : Conserved { p with submitted := p.submitted ++ [e] } := by
  constructor
  . have := h.dealt_le
    simp only [List.length_append, List.length_singleton]
    omega
  . intro d
    have htake : (p.submitted ++ [e]).take p.dealt = p.submitted.take p.dealt :=
      List.take_append_of_le_length h.dealt_le
    simpa only [dealtTo, htake] using h.perm d

theorem dealtTo_deal (he : p.submitted[p.dealt]? = some e) (d : Fin 12)
    : RoundRobin.received d (RoundRobin.deal 12 (p.submitted.take (p.dealt + 1)))
        =
      p.dealtTo d ++ if p.dealt % 12 = d then [e] else [] := by
  have hlength : (p.submitted.take p.dealt).length = p.dealt := by
    have := (List.getElem?_eq_some_iff.mp he).1
    rw [List.length_take]
    omega
  rw [List.take_add_one, he, Option.toList_some, RoundRobin.deal_append, hlength]
  split
  . next hd => rw [hd, RoundRobin.received_append_self, dealtTo]
  . next hd => rw [RoundRobin.received_append_of_ne _ _ hd, List.append_nil, dealtTo]

theorem Conserved.deal (h : p.Conserved) (hq : p.deal = some q) : q.Conserved := by
  obtain ⟨e, d, he, hval, rfl⟩ := deal_cases hq
  constructor
  . exact (List.getElem?_eq_some_iff.mp he).1
  . intro i
    have hperm := h.perm i
    have hdeal := dealtTo_deal he i
    simp only [dealtTo] at hdeal ⊢
    rw [hdeal, ← hval]
    by_cases hi : d = i
    . subst hi
      simp only [Function.update_self, List.map_append, List.map_singleton, ↓reduceIte]
      rw [List.append_assoc]
      refine ((List.perm_append_comm).append_left _).trans ?_
      rw [← List.append_assoc]
      exact hperm.append_right _
    . have hne : ¬ (d : Nat) = i := fun heq => hi (Fin.ext heq)
      simpa [Function.update_of_ne (Ne.symm hi), hne, dealtTo] using hperm

theorem Conserved.iterate (h : p.Conserved) (hq : p.iterate qt d turn = some q) : q.Conserved := by
  obtain ⟨r, hr, rfl⟩ := iterate_cases hq
  constructor
  . exact h.dealt_le
  . intro i
    have hperm := h.perm i
    by_cases hi : i = d
    . subst hi
      have htags := (HttpMessageDispatcher.iterate_cases hr).tags_perm
      simp only [Function.update_self]
      refine List.Perm.trans ?_ hperm
      refine (List.perm_append_comm.append_left _).trans ?_
      rw [← List.append_assoc]
      exact htags.append_right _
    . simpa [Function.update_of_ne hi, dealtTo] using hperm

theorem Conserved.step (h : p.Conserved) (hq : Pipeline.step qt p l = some q) : q.Conserved := by
  cases l with
  | submit e =>
    injection hq with hq
    rw [← hq]
    exact h.submit e
  | deal => exact h.deal hq
  | iterate d turn => exact h.iterate hq

theorem conserved_of_reachable (h : (machine τ qt).Reachable p) : p.Conserved := by
  apply Machine.Reachable.invariant _ _ h
  . rintro p rfl
    constructor
    . simp
    . intro d
      simp [dealtTo, RoundRobin.deal, RoundRobin.received]
  . intro p l q hp hq
    exact hp.step hq

-- Read backwards: what has been submitted so far only grows.
def ServableSoFar (qt : Qt) (p : Pipeline τ) : Prop :=
  (∀ e ∈ p.submitted, Servable qt e.session) → ∀ d, ∀ e ∈ p.queues d, Servable qt e.session

theorem iterate_servable {queue : List (Queued τ)}
    (h : ∀ e ∈ queue, Servable qt e.session)
    (hr : HttpMessageDispatcher.iterate qt inp sh queue = some r)
    : ∀ e ∈ r.queue, Servable qt e.session := by
  have hrotated : ∀ e ∈ rotate queue, Servable qt e.session := by
    intro e he
    exact h e ((rotate_perm queue).mem_iff.mp he)
  unfold HttpMessageDispatcher.iterate at hr
  split at hr
  . cases hr
  . next front rest hrotate =>
    rw [hrotate] at hrotated
    obtain ⟨⟨sh', c, loop⟩, hserve, hr⟩ := Option.bind_eq_some_iff.mp hr
    dsimp only at hr
    split at hr
    . injection hr with hr
      rw [← hr]
      intro e he
      exact hrotated e (List.mem_cons_of_mem _ he)
    . next hkept =>
      injection hr with hr
      rw [← hr]
      intro e he
      cases he with
      | head => exact (hrotated front (by simp)).served hserve hkept
      | tail _ he => exact hrotated e (List.mem_cons_of_mem _ he)

theorem ServableSoFar.step (h : p.ServableSoFar qt) (hq : Pipeline.step qt p l = some q)
    : q.ServableSoFar qt := by
  intro hsubmitted
  cases l with
  | submit e =>
    injection hq with hq
    rw [← hq] at hsubmitted ⊢
    apply h
    intro e' he'
    exact hsubmitted e' (List.mem_append_left _ he')
  | deal =>
    obtain ⟨e, i, he, -, rfl⟩ := deal_cases hq
    intro d e' he'
    by_cases hd : d = i
    . subst hd
      simp only [Function.update_self, List.mem_append, List.mem_singleton] at he'
      rcases he' with he' | rfl
      . exact h hsubmitted d e' he'
      . exact hsubmitted e' (List.mem_of_getElem? he)
    . simp only [Function.update_of_ne hd] at he'
      exact h hsubmitted d e' he'
  | iterate i turn =>
    obtain ⟨r, hr, rfl⟩ := iterate_cases hq
    intro d e' he'
    by_cases hd : d = i
    . subst hd
      simp only [Function.update_self] at he'
      exact iterate_servable (h hsubmitted d) hr e' he'
    . simp only [Function.update_of_ne hd] at he'
      exact h hsubmitted d e' he'

theorem servableSoFar_of_reachable (h : (machine τ qt).Reachable p) : p.ServableSoFar qt := by
  apply Machine.Reachable.invariant _ _ h
  . rintro p rfl _ d e he
    cases he
  . intro p l q hp hq
    exact hp.step hq

theorem refines_queue (τ : Type) (qt : Qt) (shared : Shared) (d : Fin 12)
    : (machine τ qt).Refines (Queue.machine qt { shared, sessions := [] })
        (fun p q => q.sessions = p.queues d) := by
  constructor
  . rintro p rfl
    exact ⟨_, rfl, rfl⟩
  . intro p l p' q _ _ hrel _ hp'
    cases l with
    | submit e =>
      injection hp' with hp'
      rw [← hp']
      exact ⟨q, .refl q, hrel⟩
    | deal =>
      obtain ⟨e, i, -, -, rfl⟩ := deal_cases hp'
      by_cases hi : i = d
      . subst hi
        refine ⟨_, Queue.leadsTo (.arrive e) rfl, ?_⟩
        simp [hrel]
      . exact ⟨q, .refl q, by simp [hrel, Function.update_of_ne (Ne.symm hi)]⟩
    | iterate i turn =>
      obtain ⟨r, hr, rfl⟩ := iterate_cases hp'
      by_cases hi : i = d
      . subst hi
        rw [← hrel] at hr
        refine ⟨{ shared := r.shared, sessions := r.queue },
          (Queue.leadsTo (.share turn.shared) rfl).trans (Queue.leadsTo (.iterate turn.input) ?_), ?_⟩
        . simp [Queue.step, hr]
        . simp
      . exact ⟨q, .refl q, by simp [hrel, Function.update_of_ne (Ne.symm hi)]⟩

end Pipeline
