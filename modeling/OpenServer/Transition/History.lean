import OpenServer.Transition.Basic

/-!
This module contains history variables: values that are recorded along a run and that no step looks
at. What holds of a machine with its history holds of every run of the machine.
-/

structure History (σ : Type u) (α : Type v) (η : Type w) where
  start : η
  extend : η → σ → α → σ → η

namespace Machine

variable {M : Machine σ α} {H : History σ α η} {G : σ → α → Prop}

def withHistory (M : Machine σ α) (H : History σ α η) : Machine (σ × η) α where
  init p := M.init p.1 ∧ p.2 = H.start
  step p a := (M.step p.1 a).map (fun t => (t, H.extend p.2 p.1 a t))

theorem withHistory_step_iff {p q : σ × η}
    : (M.withHistory H).step p a = some q
        ↔ M.step p.1 a = some q.1 ∧ q.2 = H.extend p.2 p.1 a q.1 := by
  simp only [withHistory, Option.map_eq_some_iff]
  constructor
  . rintro ⟨t, ht, rfl⟩
    exact ⟨ht, rfl⟩
  . rintro ⟨ht, hq⟩
    exact ⟨q.1, ht, by rw [← hq]⟩

theorem ReachBy.history_invariant {I : σ → η → Prop} {G : σ × η → α → Prop}
    (hinit : ∀ s, M.init s → I s H.start)
    (hstep : ∀ s past a t, I s past → G (s, past) a → M.step s a = some t →
      I t (H.extend past s a t))
    (h : (M.withHistory H).ReachBy G p)
    : I p.1 p.2 := by
  apply ReachBy.invariant (I := fun p => I p.1 p.2) _ _ h
  . rintro ⟨s, past⟩ ⟨hs, hpast⟩
    rw [hpast]
    exact hinit s hs
  . rintro ⟨s, past⟩ a ⟨t, past'⟩ hi hg ht
    obtain ⟨ht, hpast⟩ := withHistory_step_iff.mp ht
    dsimp only at hpast
    rw [hpast]
    exact hstep s past a t hi hg ht

theorem ReachBy.forget {p : σ × η} {G : σ × η → α → Prop} (h : (M.withHistory H).ReachBy G p)
    (hG : ∀ p a, G p a → G' p.1 a)
    : M.ReachBy G' p.1 := by
  induction h with
  | init h => exact .init h.1
  | step _ hg hs ih => exact .step ih (hG _ _ hg) (withHistory_step_iff.mp hs).1

theorem Reachable.forget {p : σ × η} (h : (M.withHistory H).Reachable p) : M.Reachable p.1 :=
  ReachBy.forget h (fun _ _ _ => trivial)

theorem ReachBy.remember {G : σ → α → Prop} (H : History σ α η) (h : M.ReachBy G s)
    : ∃ past, (M.withHistory H).ReachBy (fun p a => G p.1 a) (s, past) := by
  induction h with
  | init hs => exact ⟨H.start, .init ⟨hs, rfl⟩⟩
  | @step s a t _ hg ht ih =>
    obtain ⟨past, hpast⟩ := ih
    have hstep : (M.withHistory H).step (s, past) a = some (t, H.extend past s a t) :=
      withHistory_step_iff.mpr ⟨ht, rfl⟩
    exact ⟨_, .step hpast hg hstep⟩

theorem Reachable.remember (H : History σ α η) (h : M.Reachable s)
    : ∃ past, (M.withHistory H).Reachable (s, past) :=
  ReachBy.remember H h

end Machine
