import OpenServer.PollServer.Lemmas.Table
import OpenServer.Table.Deletion

/-!
This module shows from which tables the `compress_array` block takes out all dead slots. Its outer loop
goes on behind the slot that it has just filled, which may be dead itself.
-/

namespace PollServer

def table (fds : Nat → PollFd) (nfds : Nat) : List PollFd :=
  (List.range nfds).map fds

def isDead (slot : PollFd) : Bool :=
  decide (slot.fd = -1)

variable {fds : Nat → PollFd} {nfds i : Nat}

@[simp]
theorem table_length (fds : Nat → PollFd) (nfds : Nat) : (table fds nfds).length = nfds := by
  simp [table]

theorem table_getElem (h : i < (table fds nfds).length) : (table fds nfds)[i] = fds i := by
  simp [table]

theorem table_shift (h : i < nfds)
    : table (shift fds nfds i) (nfds - 1) = (table fds nfds).eraseIdx i := by
  apply List.ext_getElem
  . rw [List.length_eraseIdx_of_lt (by simpa using h)]
    simp
  . intro j hj _
    rw [table_length] at hj
    rw [List.getElem_eraseIdx, table_getElem, shift_apply fds i (by omega), skip]
    split
    . rw [dif_neg (by omega), table_getElem]
    . rw [dif_pos (by omega), table_getElem]

theorem table_drop (h : i < nfds)
    : (table fds nfds).drop i = fds i :: (table fds nfds).drop (i + 1) := by
  rw [List.drop_eq_getElem_cons (by simpa using h), table_getElem]

theorem table_compressFrom (fds : Nat → PollFd) (nfds i : Nat)
    : table (compressFrom fds nfds i).1 (compressFrom fds nfds i).2
        =
      (table fds nfds).take i ++ Table.deleteSkipping isDead ((table fds nfds).drop i) := by
  induction fds, nfds, i using compressFrom.induct with
  | case1 fds nfds i hi hdead ih =>
    have hlength : ((table fds nfds).take i).length = i := by
      rw [List.length_take, table_length]
      omega
    have htake : ((table fds nfds).take i).take (i + 1) = (table fds nfds).take i := by
      apply List.take_of_length_le
      omega
    have hdrop : ((table fds nfds).take i).drop (i + 1) = [] := by
      apply List.drop_of_length_le
      omega
    have hmark : isDead (fds i) := decide_eq_true hdead
    rw [compressFrom, if_pos hi, if_pos hdead, ih, table_shift hi, List.eraseIdx_eq_take_drop_succ,
      List.take_append, List.drop_append, hlength, htake, hdrop, table_drop hi,
      Table.deleteSkipping_of_dead hmark, List.nil_append, List.append_assoc,
      Nat.add_sub_cancel_left]
  | case2 fds nfds i hi hdead ih =>
    have hmark : ¬ isDead (fds i) := by simpa [isDead] using hdead
    rw [compressFrom, if_pos hi, if_neg hdead, ih, table_drop hi,
      Table.deleteSkipping_of_alive hmark, List.take_succ_eq_append_getElem (by simpa using hi),
      table_getElem, List.append_assoc, List.singleton_append]
  | case3 fds nfds i hi =>
    rw [compressFrom, if_neg hi, List.take_of_length_le (by rw [table_length]; omega),
      List.drop_of_length_le (by rw [table_length]; omega)]
    simp [Table.deleteSkipping]

structure Compacted (fds : Nat → PollFd) (nfds : Nat) (result : (Nat → PollFd) × Nat) : Prop where
  slots : table result.1 result.2 = (table fds nfds).filter (fun slot => slot.fd ≠ -1)
  count : result.2 + (table fds nfds).countP isDead = nfds

theorem scattered_table_iff
    : Table.Scattered isDead (table fds nfds)
        ↔
      ∀ i, i + 1 < nfds → ¬ ((fds i).fd = -1 ∧ (fds (i + 1)).fd = -1) := by
  unfold Table.Scattered
  rw [List.isChain_iff_getElem]
  simp only [table_getElem, table_length, isDead, decide_eq_true_eq]

theorem compressFrom_compacted_iff (fds : Nat → PollFd) (nfds : Nat)
    : Compacted fds nfds (compressFrom fds nfds 0)
        ↔
      ∀ i, i + 1 < nfds → ¬ ((fds i).fd = -1 ∧ (fds (i + 1)).fd = -1) := by
  have hfilter : (table fds nfds).filter (fun slot => slot.fd ≠ -1)
      = (table fds nfds).filter (fun slot => !isDead slot) := by
    apply List.filter_congr
    simp [isDead]
  rw [← scattered_table_iff, ← Table.deleteSkipping_eq_filter_iff]
  have htable := table_compressFrom fds nfds 0
  rw [List.take_zero, List.drop_zero, List.nil_append] at htable
  constructor
  . intro h
    rw [← htable, h.slots, hfilter]
  . intro h
    have hslots : table (compressFrom fds nfds 0).1 (compressFrom fds nfds 0).2
        = (table fds nfds).filter (fun slot => slot.fd ≠ -1) := by
      rw [htable, h, hfilter]
    refine ⟨hslots, ?_⟩
    have hlength := congrArg List.length hslots
    have hall := List.length_eq_countP_add_countP isDead (l := table fds nfds)
    rw [hfilter] at hlength
    simp only [table_length, ← List.countP_eq_length_filter] at hlength hall
    simp only [Bool.not_eq_true, Bool.decide_eq_false] at hall
    omega

-- Two connections that were closed in the same scan, in neighbouring slots.
def neighboursClosed (i : Nat) : PollFd :=
  if i = 0 then { fd := 3 } else if i = 3 then { fd := 7 } else { fd := -1 }

theorem not_compressFrom_compacted
    : ¬ ∀ (fds : Nat → PollFd) (nfds : Nat), nfds < 100000 →
        Compacted fds nfds (compressFrom fds nfds 0) := by
  intro h
  have hslots := (h neighboursClosed 4 (by decide)).slots
  rw [table_compressFrom] at hslots
  revert hslots
  decide

end PollServer
