import Mathlib.Algebra.BigOperators.Intervals
import OpenServer.Dispatcher.Impl.Iteration

/-!
This module contains what the send loop puts on the socket, whatever `send` answers.
-/

def SendResult.IsAccepted (r : SendResult) : Prop :=
  ∃ n, r = .accepted n

def SendResult.Transient (r : SendResult) : Prop :=
  r.IsAccepted ∨ r = .wouldBlock

def SendResult.count : SendResult → Nat
  | .accepted n => n
  | _ => 0

@[simp]
theorem SendResult.count_accepted (n : ℕ+) : (SendResult.accepted n).count = n := by
  rfl

-- The counts that `send` returns before it first refuses add up to `size`.
def Fits (results : Nat → SendResult) (size : Nat) : Prop :=
  ∃ k, (∀ j < k, (results j).IsAccepted) ∧ size ≤ ∑ j ∈ Finset.range k, (results j).count

namespace Fits

theorem zero (results : Nat → SendResult) : Fits results 0 := by
  exists 0
  simp

theorem succ_iff {results : Nat → SendResult} (hres : results 0 = .accepted n) (hsize : 0 < size)
    : Fits results size ↔ Fits (fun k => results (k + 1)) (size - min n.val size) := by
  constructor
  . rintro ⟨k, hacc, hsum⟩
    cases k with
    | zero => simp at hsum; omega
    | succ k =>
      refine ⟨k, fun j hj => hacc (j + 1) (by omega), ?_⟩
      rw [Finset.sum_range_succ', hres] at hsum
      simp only [SendResult.count_accepted] at hsum ⊢
      omega
  . rintro ⟨k, hacc, hsum⟩
    refine ⟨k + 1, ?_, ?_⟩
    . intro j hj
      cases j with
      | zero => exact ⟨n, hres⟩
      | succ j => exact hacc j (by omega)
    . rw [Finset.sum_range_succ', hres]
      simp only [SendResult.count_accepted] at hsum ⊢
      omega

theorem not_of_refused {results : Nat → SendResult} (hres : ¬ (results 0).IsAccepted)
    (hsize : 0 < size)
    : ¬ Fits results size := by
  rintro ⟨k, hacc, hsum⟩
  cases k with
  | zero => simp at hsum; omega
  | succ k => exact hres (hacc 0 (by omega))

theorem of_all_accepted {results : Nat → SendResult} (h : ∀ k, (results k).IsAccepted) (size : Nat)
    : Fits results size := by
  induction size generalizing results with
  | zero => exact zero results
  | succ size ih =>
    obtain ⟨n, hn⟩ := h 0
    obtain ⟨k, hacc, hsum⟩ := ih (fun k => h (k + 1))
    refine ⟨k + 1, fun j _ => h j, ?_⟩
    rw [Finset.sum_range_succ', hn]
    have := n.pos
    simp only [SendResult.count_accepted] at *
    omega

end Fits

namespace HttpMessageDispatcher

namespace sendLoop

theorem le_totalBytes (data : Bytes) (results : Nat → SendResult) (totalBytes : Nat)
    : totalBytes ≤ (sendLoop data results totalBytes).totalBytes := by
  fun_induction sendLoop data results totalBytes with
  | case1 results totalBytes hlt n hres snd rest ih => simp only [rest]; omega
  | case2 => simp
  | case3 => simp
  | case4 => simp
  | case5 => simp

theorem totalBytes_le (data : Bytes) (results : Nat → SendResult) (totalBytes : Nat)
    (h : totalBytes ≤ data.length)
    : (sendLoop data results totalBytes).totalBytes ≤ data.length := by
  fun_induction sendLoop data results totalBytes with
  | case1 results totalBytes hlt n hres snd rest ih =>
    apply ih
    omega
  | case2 => simpa using h
  | case3 => simpa using h
  | case4 => simpa using h
  | case5 => simpa using h

theorem sent_eq (data : Bytes) (results : Nat → SendResult) (totalBytes : Nat)
    : (sendLoop data results totalBytes).sent
        =
      (data.drop totalBytes).take ((sendLoop data results totalBytes).totalBytes - totalBytes) := by
  fun_induction sendLoop data results totalBytes with
  | case1 results totalBytes hlt n hres snd rest ih =>
    have := le_totalBytes data (fun k => results (k + 1)) (totalBytes + snd)
    simp only [rest, ih]
    rw [← List.drop_drop, ← List.take_add]
    congr 1
    omega
  | case2 => simp
  | case3 => simp
  | case4 => simp
  | case5 => simp

theorem complete_iff_totalBytes (data : Bytes) (results : Nat → SendResult) (totalBytes : Nat)
    (h : totalBytes ≤ data.length)
    : (sendLoop data results totalBytes).ending = .complete
        ↔
      (sendLoop data results totalBytes).totalBytes = data.length := by
  fun_induction sendLoop data results totalBytes with
  | case1 results totalBytes hlt n hres snd rest ih =>
    apply ih
    omega
  | case2 => simp; omega
  | case3 => simp; omega
  | case4 => simp; omega
  | case5 => simp; omega

theorem complete_iff_fits (data : Bytes) (results : Nat → SendResult) (totalBytes : Nat)
    : (sendLoop data results totalBytes).ending = .complete
        ↔
      Fits results (data.length - totalBytes) := by
  fun_induction sendLoop data results totalBytes with
  | case1 results totalBytes hlt n hres snd rest ih =>
    rw [Fits.succ_iff hres (by omega), ih, Nat.sub_add_eq]
  | case2 results totalBytes hlt hres =>
    have : ¬ Fits results (data.length - totalBytes) := by
      apply Fits.not_of_refused
      . simp [hres, SendResult.IsAccepted]
      . omega
    simp [this]
  | case3 results totalBytes hlt hres =>
    have : ¬ Fits results (data.length - totalBytes) := by
      apply Fits.not_of_refused
      . simp [hres, SendResult.IsAccepted]
      . omega
    simp [this]
  | case4 results totalBytes hlt hres =>
    have : ¬ Fits results (data.length - totalBytes) := by
      apply Fits.not_of_refused
      . simp [hres, SendResult.IsAccepted]
      . omega
    simp [this]
  | case5 results totalBytes hge =>
    rw [Nat.sub_eq_zero_of_le (by omega)]
    simp [Fits.zero]

theorem sent_eq_data_iff (data : Bytes) (results : Nat → SendResult)
    : (sendLoop data results 0).sent = data ↔ Fits results data.length := by
  have hle := totalBytes_le data results 0 (by omega)
  rw [← Nat.sub_zero data.length, ← complete_iff_fits, complete_iff_totalBytes _ _ _ (by omega),
    sent_eq, List.drop_zero, Nat.sub_zero, List.take_eq_self_iff]
  omega

end sendLoop

end HttpMessageDispatcher
