import Mathlib.Logic.Function.Basic

/-!
This module contains tables that remember what a function has answered: when a remembered answer is
the one the function would give now.
-/

namespace Memo

-- `origin` is the argument that the entry under a key was computed from.
def Filled (f : α → β) (table : κ → Option β) (origin : κ → Option α) : Prop :=
  ∀ key, table key = (origin key).map f

variable {f : α → β} {table : κ → Option β} {origin : κ → Option α}

theorem Filled.empty (f : α → β) : Filled f (fun _ : κ => none) (fun _ => none) := by
  intro _
  rfl

theorem Filled.store [DecidableEq κ] (h : Filled f table origin) (key : κ) (a : α)
    : Filled f (fun k => if k = key then some (f a) else table k)
        (fun k => if k = key then some a else origin k) := by
  intro k
  dsimp only
  split
  . rfl
  . exact h k

-- Asking the table first makes no difference exactly when the key was filled from the same answer.
theorem Filled.getD_eq_iff (h : Filled f table origin) (key : κ) (now : α)
    : (table key).getD (f now) = f now ↔ ∀ a, origin key = some a → f a = f now := by
  rw [h key]
  cases origin key <;> simp

-- Where an answer is wanted, the table gives no other.
def Sound (wanted table : κ → Option β) : Prop :=
  ∀ key b, wanted key = some b → (table key).getD b = b

theorem Sound.empty (wanted : κ → Option β) : Sound wanted (fun _ => none) := by
  intro _ _ _
  rfl

theorem Sound.store [DecidableEq κ] {wanted : κ → Option β} (h : Sound wanted table)
    (hb : ∀ b', wanted key = some b' → b = b')
    : Sound wanted (fun k => if k = key then some b else table k) := by
  intro k b' hk
  dsimp only
  split
  . next heq =>
    rw [heq] at hk
    exact hb b' hk
  . exact h k b' hk

end Memo
