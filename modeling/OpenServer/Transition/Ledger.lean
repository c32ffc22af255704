import Mathlib.Logic.Function.Basic

/-!
This module contains the books of a server that answers each of its clients once and may need several
writes for it: which answers were settled on, and what has been written of them.
-/

structure Ledger (τ : Type u) (β : Type v) where
  arrived : List τ := []
  left : List τ := []
  answers : τ → List (List β) := fun _ => []
  sent : τ → List β := fun _ => []

namespace Ledger

variable {l l' : Ledger τ β} {client other : τ}

def Untouched (l : Ledger τ β) (client : τ) : Prop :=
  l.answers client = [] ∧ l.sent client = []

-- There is one answer, and `rest` is what has not been written of it.
def Owes (l : Ledger τ β) (client : τ) (rest : List β) : Prop :=
  ∃ answer, l.answers client = [answer] ∧ l.sent client ++ rest = answer

def Settled (l : Ledger τ β) (client : τ) : Prop :=
  l.answers client = [l.sent client]

def Agrees (l l' : Ledger τ β) (client : τ) : Prop :=
  l'.answers client = l.answers client ∧ l'.sent client = l.sent client

theorem owes_nil_iff : l.Owes client [] ↔ l.Settled client := by
  unfold Owes Settled
  constructor
  . rintro ⟨answer, hanswer, hsent⟩
    rw [hanswer, ← hsent, List.append_nil]
  . intro hsettled
    exact ⟨l.sent client, hsettled, List.append_nil _⟩

theorem Untouched.not_settled (h : l.Untouched client) : ¬ l.Settled client := by
  simp [Settled, h.1]

theorem Owes.settled_iff (h : l.Owes client rest) : l.Settled client ↔ rest = [] := by
  obtain ⟨answer, hanswer, rfl⟩ := h
  simp [Settled, hanswer]

theorem Owes.sent_prefix (h : l.Owes client rest)
    : ∃ answer, l.answers client = [answer] ∧ l.sent client <+: answer := by
  obtain ⟨answer, hanswer, hsent⟩ := h
  exact ⟨answer, hanswer, rest, hsent⟩

namespace Agrees

theorem refl (l : Ledger τ β) (client : τ) : l.Agrees l client := by
  constructor <;> rfl

theorem untouched (h : l.Agrees l' client) (hl : l.Untouched client) : l'.Untouched client := by
  rw [Untouched, h.1, h.2]
  exact hl

theorem owes (h : l.Agrees l' client) (hl : l.Owes client rest) : l'.Owes client rest := by
  rw [Owes, h.1, h.2]
  exact hl

theorem settled (h : l.Agrees l' client) (hl : l.Settled client) : l'.Settled client := by
  rw [Settled, h.1, h.2]
  exact hl

end Agrees

def arrive (l : Ledger τ β) (client : τ) : Ledger τ β :=
  { l with arrived := l.arrived ++ [client] }

def leave (l : Ledger τ β) (client : τ) : Ledger τ β :=
  { l with left := l.left ++ [client] }

theorem agrees_arrive (l : Ledger τ β) (new client : τ) : l.Agrees (l.arrive new) client := by
  constructor <;> rfl

theorem agrees_leave (l : Ledger τ β) (gone client : τ) : l.Agrees (l.leave gone) client := by
  constructor <;> rfl

variable [DecidableEq τ]

def answer (l : Ledger τ β) (client : τ) (bytes : List β) : Ledger τ β :=
  { l with answers := Function.update l.answers client (l.answers client ++ [bytes]) }

def send (l : Ledger τ β) (client : τ) (bytes : List β) : Ledger τ β :=
  { l with sent := Function.update l.sent client (l.sent client ++ bytes) }

theorem agrees_answer (h : other ≠ client) : l.Agrees (l.answer client bytes) other := by
  simp [Agrees, answer, Function.update_of_ne h]

theorem agrees_send (h : other ≠ client) : l.Agrees (l.send client bytes) other := by
  simp [Agrees, send, Function.update_of_ne h]

theorem Untouched.answer (h : l.Untouched client) (bytes : List β)
    : (l.answer client bytes).Owes client bytes := by
  simp [Owes, Ledger.answer, h.1, h.2]

theorem Owes.send (h : l.Owes client (bytes ++ rest)) : (l.send client bytes).Owes client rest := by
  obtain ⟨answer, hanswer, hsent⟩ := h
  refine ⟨answer, hanswer, ?_⟩
  simpa [Ledger.send] using hsent

theorem send_nil (l : Ledger τ β) (client : τ) : l.send client [] = l := by
  simp [send]

end Ledger
