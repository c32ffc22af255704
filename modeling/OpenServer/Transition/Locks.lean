import Mathlib.Data.Set.Basic
import Mathlib.Order.WellFounded

/-!
This module contains the rule that mutexes taken in the order of their ranks never deadlock.
-/

structure Locks (τ : Type u) (μ : Type v) where
  holds : τ → μ → Prop
  waits : τ → μ → Prop

namespace Locks

def Ordered [LT ρ] (locks : Locks τ μ) (rank : μ → ρ) : Prop :=
  ∀ t m m', locks.holds t m → locks.waits t m' → rank m < rank m'

def Deadlocked (locks : Locks τ μ) (threads : Set τ) : Prop :=
  threads.Nonempty ∧ ∀ t ∈ threads, ∃ m, locks.waits t m ∧ ∃ u ∈ threads, locks.holds u m

variable [Preorder ρ] {locks : Locks τ μ} {rank : μ → ρ}

theorem Ordered.not_relock (h : locks.Ordered rank) (hwaits : locks.waits t m)
    : ¬ locks.holds t m := by
  intro hholds
  exact lt_irrefl _ (h t m m hholds hwaits)

-- Whoever holds a mutex of the set waits for one of higher rank: there is no highest.
theorem Ordered.not_deadlocked [WellFoundedGT ρ] (h : locks.Ordered rank) (threads : Set τ)
    : ¬ locks.Deadlocked threads := by
  rintro ⟨⟨t, ht⟩, hwaits⟩
  have hfree : ∀ r m, rank m = r → ∀ u ∈ threads, ¬ locks.holds u m := by
    intro r
    induction r using WellFoundedGT.induction with
    | ind r ih =>
      rintro m rfl u hu hholds
      obtain ⟨m', hm', v, hv, hv'⟩ := hwaits u hu
      exact ih (rank m') (h u m m' hholds hm') m' rfl v hv hv'
  obtain ⟨m, -, u, hu, hholds⟩ := hwaits t ht
  exact hfree (rank m) m rfl u hu hholds

end Locks
