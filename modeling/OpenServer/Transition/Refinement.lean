import Mathlib.Logic.Relation
import OpenServer.Transition.Basic

/-!
This module contains forward simulations: a machine simulates another one along a relation when every
step of it is answered by steps of the other one, or by none. What holds of the other machine's
reachable states then holds, through the relation, of its own.
-/

namespace Machine

def LeadsTo (M : Machine σ α) (G : σ → α → Prop) : σ → σ → Prop :=
  Relation.ReflTransGen (fun s t => ∃ a, G s a ∧ M.step s a = some t)

structure Simulates (M : Machine σ α) (G : σ → α → Prop) (N : Machine ρ β) (H : ρ → β → Prop)
    (R : σ → ρ → Prop) : Prop where
  init : ∀ s, M.init s → ∃ r, N.init r ∧ R s r
  step : ∀ s a t r, M.ReachBy G s → N.ReachBy H r → R s r → G s a → M.step s a = some t →
    ∃ r', N.LeadsTo H r r' ∧ R t r'

abbrev Refines (M : Machine σ α) (N : Machine ρ β) (R : σ → ρ → Prop) : Prop :=
  M.Simulates (fun _ _ => True) N (fun _ _ => True) R

variable {M : Machine σ α} {N : Machine ρ β} {K : Machine κ γ}
variable {G : σ → α → Prop} {H : ρ → β → Prop} {F : κ → γ → Prop}
variable {R : σ → ρ → Prop} {S : ρ → κ → Prop}

theorem LeadsTo.refl (s : σ) : M.LeadsTo G s s :=
  Relation.ReflTransGen.refl

theorem LeadsTo.step (hg : G s a) (h : M.step s a = some t) : M.LeadsTo G s t :=
  Relation.ReflTransGen.single ⟨a, hg, h⟩

theorem ReachBy.leadsTo (hs : M.ReachBy G s) (h : M.LeadsTo G s t) : M.ReachBy G t := by
  induction h with
  | refl => exact hs
  | tail _ hstep ih =>
    obtain ⟨a, hg, ha⟩ := hstep
    exact .step ih hg ha

namespace Simulates

theorem reachBy (h : M.Simulates G N H R) (hs : M.ReachBy G s) : ∃ r, N.ReachBy H r ∧ R s r := by
  induction hs with
  | init hs =>
    obtain ⟨r, hr, hrel⟩ := h.init _ hs
    exact ⟨r, .init hr, hrel⟩
  | step hs hg ht ih =>
    obtain ⟨r, hr, hrel⟩ := ih
    obtain ⟨r', hleads, hrel'⟩ := h.step _ _ _ r hs hr hrel hg ht
    exact ⟨r', hr.leadsTo hleads, hrel'⟩

theorem leadsTo (h : M.Simulates G N H R) (hs : M.ReachBy G s) (hr : N.ReachBy H r) (hrel : R s r)
    (hleads : M.LeadsTo G s t)
    : ∃ r', N.LeadsTo H r r' ∧ R t r' := by
  induction hleads with
  | refl => exact ⟨r, .refl r, hrel⟩
  | @tail u t hu hstep ih =>
    obtain ⟨a, hg, ha⟩ := hstep
    obtain ⟨v, hv, hrel'⟩ := ih
    obtain ⟨r', hr', hrel''⟩ :=
      h.step u a t v (hs.leadsTo hu) (hr.leadsTo hv) hrel' hg ha
    exact ⟨r', hv.trans hr', hrel''⟩

theorem trans (h : M.Simulates G N H R) (h' : N.Simulates H K F S)
    : M.Simulates G K F (fun s u => ∃ r, N.ReachBy H r ∧ R s r ∧ S r u) := by
  constructor
  . intro s hs
    obtain ⟨r, hr, hrel⟩ := h.init s hs
    obtain ⟨u, hu, hrel'⟩ := h'.init r hr
    exact ⟨u, hu, r, .init hr, hrel, hrel'⟩
  . rintro s a t u hs hu ⟨r, hr, hrel, hrel'⟩ hg ht
    obtain ⟨r', hleads, hnext⟩ := h.step s a t r hs hr hrel hg ht
    obtain ⟨u', hleads', hnext'⟩ := h'.leadsTo hr hu hrel' hleads
    exact ⟨u', hleads', r', hr.leadsTo hleads, hnext, hnext'⟩

end Simulates

end Machine
