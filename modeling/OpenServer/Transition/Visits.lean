import Mathlib.Data.List.Induction

/-!
This module contains the log of a server that visits its clients in turn, and what it means that the
server passes over no client twice without having tried it in between.
-/

inductive Visit (τ : Type u) where
  | tried (client : τ)
  | passed (client : τ)
  | left (client : τ)
  deriving DecidableEq, Repr

namespace Visit

def client : Visit τ → τ
  | .tried client => client
  | .passed client => client
  | .left client => client

def PassedOnce (log : List (Visit τ)) : Prop :=
  ∀ client before between after,
    log = before ++ .passed client :: (between ++ .passed client :: after) → .tried client ∈ between

-- `client` has been passed over and not been tried since.
def Waits (log : List (Visit τ)) (client : τ) : Prop :=
  ∃ before between, log = before ++ .passed client :: between ∧ .tried client ∉ between

def justLeft (log : List (Visit τ)) : Bool :=
  match log.getLast? with
  | some (.left _) => true
  | _ => false

variable {log : List (Visit τ)} {v : Visit τ} {c : τ}

theorem waits_append_iff
    : Waits (log ++ [v]) c ↔ v = .passed c ∨ Waits log c ∧ v ≠ .tried c := by
  constructor
  . rintro ⟨before, between, hlog, hbetween⟩
    cases between using List.reverseRecOn with
    | nil =>
      obtain ⟨-, hv⟩ := List.append_singleton_inj.mp hlog
      exact .inl hv
    | append_singleton between w =>
      rw [← List.cons_append, ← List.append_assoc] at hlog
      obtain ⟨hshort, rfl⟩ := List.append_singleton_inj.mp hlog
      simp only [List.mem_append, List.mem_singleton, not_or] at hbetween
      exact .inr ⟨⟨before, between, hshort, hbetween.1⟩, Ne.symm hbetween.2⟩
  . rintro (rfl | ⟨⟨before, between, rfl, hbetween⟩, hv⟩)
    . exact ⟨log, [], rfl, by simp⟩
    . refine ⟨before, between ++ [v], by simp, ?_⟩
      simp [hbetween, Ne.symm hv]

theorem passedOnce_nil : PassedOnce ([] : List (Visit τ)) := by
  intro client before between after hlog
  simp at hlog

theorem passedOnce_append_iff
    : PassedOnce (log ++ [v]) ↔ PassedOnce log ∧ ∀ c, v = .passed c → ¬ Waits log c := by
  constructor
  . intro h
    constructor
    . intro c before between after hlog
      apply h c before between (after ++ [v])
      simp [hlog]
    . rintro c rfl ⟨before, between, rfl, hbetween⟩
      apply hbetween
      apply h c before between []
      simp
  . rintro ⟨honce, hwaits⟩ c before between after hlog
    by_contra hbetween
    cases after using List.reverseRecOn with
    | nil =>
      rw [← List.cons_append, ← List.append_assoc] at hlog
      obtain ⟨hlog, hv⟩ := List.append_singleton_inj.mp hlog
      exact hwaits c hv ⟨before, between, hlog, hbetween⟩
    | append_singleton after w =>
      apply hbetween
      apply honce c before between after
      have hshort : log ++ [v]
          = (before ++ .passed c :: (between ++ .passed c :: after)) ++ [w] := by
        simp [hlog]
      exact (List.append_singleton_inj.mp hshort).1

theorem PassedOnce.append (h : PassedOnce log) (hnew : ∀ c, .passed c ∉ new)
    : PassedOnce (log ++ new) := by
  induction new using List.reverseRecOn with
  | nil => simpa using h
  | append_singleton new v ih =>
    rw [← List.append_assoc, passedOnce_append_iff]
    constructor
    . apply ih
      intro c hc
      exact hnew c (List.mem_append_left _ hc)
    . rintro c rfl
      exact absurd (by simp) (hnew c)

theorem justLeft_append_iff : justLeft (log ++ [v]) ↔ ∃ c, v = .left c := by
  cases v <;> simp [justLeft]

end Visit
