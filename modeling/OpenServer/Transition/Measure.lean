import OpenServer.Transition.Basic

/-!
This module contains the bound on the length of a run by a measure: every step uses up some of it, but
for the steps with which the environment feeds the machine.
-/

namespace Machine

variable {M : Machine σ α} {I : σ → Prop} {P : α → Prop} {measure : σ → Nat} {feeds : α → Bool}

theorem length_le_of_measure (hI : ∀ s a t, I s → P a → M.step s a = some t → I t)
    (hstep : ∀ s a t, I s → P a → M.step s a = some t →
      measure t + 1 ≤ measure s + if feeds a then 1 else 0)
    (labels : List α) (hi : I s) (hlabels : ∀ a ∈ labels, P a) (h : M.run s labels = some t)
    : measure t + labels.length ≤ measure s + labels.countP feeds := by
  induction labels generalizing s with
  | nil =>
    rw [run_nil] at h
    injection h with h
    simp [h]
  | cons a labels ih =>
    rw [run_cons] at h
    obtain ⟨u, hu, h⟩ := Option.bind_eq_some_iff.mp h
    have ha := hlabels a List.mem_cons_self
    have hrest := ih (hI s a u hi ha hu) (fun b hb => hlabels b (List.mem_cons_of_mem a hb)) h
    have hfirst := hstep s a u hi ha hu
    rw [List.length_cons, List.countP_cons]
    omega

end Machine
