import Mathlib.Logic.Function.Basic

/-!
This module contains the machines that all concurrent parts of the development are phrased in: a
step function that takes a label (who moves, and what the environment answers) and is undefined
where the label is not enabled. `ReachBy G` are the states of the runs whose steps all meet `G`.
-/

structure Machine (σ : Type u) (α : Type v) where
  init : σ → Prop
  step : σ → α → Option σ

namespace Machine

inductive ReachBy (M : Machine σ α) (G : σ → α → Prop) : σ → Prop where
  | init : M.init s → ReachBy M G s
  | step : ReachBy M G s → G s a → M.step s a = some t → ReachBy M G t

def Reachable (M : Machine σ α) (s : σ) : Prop :=
  M.ReachBy (fun _ _ => True) s

def run (M : Machine σ α) (s : σ) (labels : List α) : Option σ :=
  labels.foldlM M.step s

variable {M : Machine σ α} {G : σ → α → Prop}

theorem ReachBy.invariant {I : σ → Prop} (hinit : ∀ s, M.init s → I s)
    (hstep : ∀ s a t, I s → G s a → M.step s a = some t → I t) (h : M.ReachBy G s)
    : I s := by
  induction h with
  | init h => exact hinit _ h
  | step _ hg hs ih => exact hstep _ _ _ ih hg hs

theorem ReachBy.reachable (h : M.ReachBy G s) : M.Reachable s := by
  induction h with
  | init h => exact .init h
  | step _ _ hs ih => exact .step ih trivial hs

theorem ReachBy.mono (h : M.ReachBy G s) (hG : ∀ s a, M.Reachable s → G s a → G' s a)
    : M.ReachBy G' s := by
  induction h with
  | init h => exact .init h
  | step hs hg ht ih => exact .step ih (hG _ _ hs.reachable hg) ht

theorem Reachable.invariant {I : σ → Prop} (hinit : ∀ s, M.init s → I s)
    (hstep : ∀ s a t, I s → M.step s a = some t → I t) (h : M.Reachable s)
    : I s := by
  apply ReachBy.invariant hinit _ h
  intro s a t hi _ hs
  exact hstep s a t hi hs

@[simp]
theorem run_nil (s : σ) : M.run s [] = some s := by
  rfl

theorem run_cons (s : σ) (a : α) (labels : List α)
    : M.run s (a :: labels) = (M.step s a).bind (fun t => M.run t labels) := by
  rfl

theorem run_append (s : σ) (as bs : List α)
    : M.run s (as ++ bs) = (M.run s as).bind (fun t => M.run t bs) := by
  unfold run
  rw [List.foldlM_append]
  rfl

theorem ReachBy.run_invariant {I : σ → Prop} (hs : M.ReachBy G s) (labels : List α) (hi : I s)
    (hG : ∀ a ∈ labels, ∀ s, I s → G s a ∧ ∀ t, M.step s a = some t → I t)
    (h : M.run s labels = some t)
    : M.ReachBy G t := by
  induction labels generalizing s with
  | nil =>
    rw [run_nil] at h
    injection h with h
    rwa [← h]
  | cons a labels ih =>
    rw [run_cons] at h
    obtain ⟨hg, hkeeps⟩ := hG a (by simp) s hi
    cases hstep : M.step s a with
    | none => simp [hstep] at h
    | some u =>
      apply ih (s := u)
      . exact .step hs hg hstep
      . exact hkeeps u hstep
      . intro b hb
        exact hG b (List.mem_cons_of_mem a hb)
      . simpa [hstep] using h

theorem ReachBy.run (hs : M.ReachBy G s) (labels : List α) (hG : ∀ a ∈ labels, ∀ s, G s a)
    (h : M.run s labels = some t)
    : M.ReachBy G t := by
  apply hs.run_invariant (I := fun _ => True) labels trivial _ h
  intro a ha s _
  exact ⟨hG a ha s, fun _ _ => trivial⟩

-- Every step is checked before it is taken.
def runGuarded (M : Machine σ α) (G : σ → α → Prop) [∀ s a, Decidable (G s a)] (s : σ)
    (labels : List α) : Option σ :=
  labels.foldlM (fun s a => if G s a then M.step s a else none) s

theorem reachBy_of_runGuarded [∀ s a, Decidable (G s a)] {labels : List α}
    (h : M.runGuarded G s labels = some t) (hs : M.ReachBy G' s)
    (hG : ∀ a ∈ labels, ∀ s, G s a → G' s a)
    : M.run s labels = some t ∧ M.ReachBy G' t := by
  induction labels generalizing s with
  | nil =>
    injection h with h
    rw [← h]
    exact ⟨rfl, hs⟩
  | cons a labels ih =>
    rw [runGuarded, List.foldlM_cons] at h
    obtain ⟨u, hu, h⟩ := Option.bind_eq_some_iff.mp h
    split at hu
    . next hg =>
      rw [run_cons, hu]
      apply ih h
      . exact .step hs (hG a (by simp) s hg) hu
      . intro b hb
        exact hG b (List.mem_cons_of_mem a hb)
    . cases hu

theorem Reachable.run (hs : M.Reachable s) (labels : List α) (h : M.run s labels = some t)
    : M.Reachable t :=
  ReachBy.run hs labels (fun _ _ _ => trivial) h

def Moves (M : Machine σ α) (s t : σ) : Prop :=
  t = s ∨ ∃ a, M.step s a = some t

theorem Reachable.moves (hs : M.Reachable s) (h : M.Moves s t) : M.Reachable t := by
  rcases h with rfl | ⟨a, ha⟩
  . exact hs
  . exact .step hs trivial ha

end Machine
