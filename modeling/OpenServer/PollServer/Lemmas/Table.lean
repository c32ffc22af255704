import OpenServer.PollServer.Impl.Start

/-!
This module contains the invariant of the table that `poll` is given, and that every operation on the
table keeps it: a report of `poll`, a new connection, a close, the compaction.
-/

namespace PollServer

variable {listenSd : Int} {sockets : Int → Option Endpoint} {fds : Nat → PollFd} {nfds : Nat}

structure Tracks (listenSd : Int) (sockets : Int → Option Endpoint) (fds : Nat → PollFd) (nfds : Nat)
    : Prop where
  unused : ∀ i, nfds ≤ i → fds i = {}
  numbers : ∀ i < nfds, (fds i).fd = -1 ∨ (fds i).fd = listenSd ∨ 0 < (fds i).fd
  quiet : ∀ i < nfds, (fds i).fd = -1 → (fds i).revents = 0
  distinct : ∀ i < nfds, ∀ j < nfds, (fds i).fd = (fds j).fd → (fds i).fd ≠ -1 → i = j
  opened : ∀ i < nfds, (fds i).fd ≠ -1 → sockets (fds i).fd ≠ none

def Covers (sockets : Int → Option Endpoint) (fds : Nat → PollFd) (nfds : Nat) : Prop :=
  ∀ n, sockets n ≠ none → n ≠ -1 ∧ ∃ i < nfds, (fds i).fd = n

-- The slot that stands at `j` after the one at `i` was taken out.
def skip (i j : Nat) : Nat :=
  if i ≤ j then j + 1 else j

theorem shift_apply (fds : Nat → PollFd) (i : Nat) (h : j < nfds)
    : shift fds nfds i j = fds (skip i j) := by
  unfold shift skip
  by_cases hij : i ≤ j
  . simp [hij, h]
  . simp [hij]

theorem shift_apply_of_le (fds : Nat → PollFd) (i : Nat) (h : nfds ≤ j)
    : shift fds nfds i j = fds j := by
  unfold shift
  rw [if_neg]
  omega

theorem skip_lt (i : Nat) (h : j < nfds - 1) : skip i j < nfds := by
  unfold skip
  split <;> omega

theorem skip_inj (h : skip i j = skip i k) : j = k := by
  unfold skip at h
  split at h
  . split at h <;> omega
  . split at h <;> omega

theorem exists_skip (hi : i < nfds) (hk : k < nfds) (h : k ≠ i) : ∃ j < nfds - 1, skip i j = k := by
  unfold skip
  by_cases hik : i < k
  . refine ⟨k - 1, by omega, ?_⟩
    rw [if_pos] <;> omega
  . refine ⟨k, by omega, ?_⟩
    rw [if_neg]
    omega

theorem compressFrom_invariant {I : (Nat → PollFd) → Nat → Prop}
    (hshift : ∀ fds nfds i, I fds nfds → i < nfds → (fds i).fd = -1 →
      I (shift fds nfds i) (nfds - 1))
    (h : I fds nfds) (i : Nat)
    : I (compressFrom fds nfds i).1 (compressFrom fds nfds i).2 := by
  induction fds, nfds, i using compressFrom.induct with
  | case1 fds nfds i hi hdead ih =>
    rw [compressFrom, if_pos hi, if_pos hdead]
    exact ih (hshift fds nfds i h hi hdead)
  | case2 fds nfds i hi hdead ih =>
    rw [compressFrom, if_pos hi, if_neg hdead]
    exact ih h
  | case3 fds nfds i hi =>
    rw [compressFrom, if_neg hi]
    exact h

theorem mem_closeIfPositive {fd n : Int} : n ∈ closeIfPositive fd ↔ 0 < fd ∧ n = fd := by
  unfold closeIfPositive
  split <;> simp [*]

theorem closeAll_cons (sockets : Int → Option Endpoint) (n : Int) (closed : List Int)
    : closeAll sockets (n :: closed) = closeAll (closeAll sockets [n]) closed := by
  funext m
  by_cases hn : m = n
  . simp [closeAll, hn]
  . by_cases hm : m ∈ closed <;> simp [closeAll, hn, hm]

theorem setRevents_fd (fds : Nat → PollFd) (nfds : Nat) (revents : Nat → BitVec 16) (i : Nat)
    : (setRevents fds nfds revents i).fd = (fds i).fd := by
  unfold setRevents
  split <;> rfl

namespace Tracks

theorem setRevents (h : Tracks listenSd sockets fds nfds) (hreported : Reported fds nfds revents)
    : Tracks listenSd sockets (setRevents fds nfds revents) nfds where
  unused i hi := by
    rw [PollServer.setRevents, if_neg (by omega)]
    exact h.unused i hi
  numbers i hi := by
    rw [setRevents_fd]
    exact h.numbers i hi
  quiet i hi hdead := by
    rw [setRevents_fd] at hdead
    have := hreported i hi
    simpa [PollServer.setRevents, hi, hdead] using this
  distinct i hi j hj := by
    rw [setRevents_fd, setRevents_fd]
    exact h.distinct i hi j hj
  opened i hi := by
    rw [setRevents_fd]
    exact h.opened i hi

theorem accept (h : Tracks listenSd sockets fds nfds) (hsd : 0 < newSd)
    (hfree : sockets newSd = none)
    : Tracks listenSd (Function.update sockets newSd (some endpoint))
        (Function.update fds nfds { fds nfds with fd := newSd, events := pollIn }) (nfds + 1) := by
  have hold : ∀ i < nfds, Function.update fds nfds { fds nfds with fd := newSd, events := pollIn } i
      = fds i := by
    intro i hi
    exact Function.update_of_ne (by omega) _ _
  have hother : ∀ i < nfds, (fds i).fd ≠ -1 → (fds i).fd ≠ newSd := by
    rintro i hi hfd rfl
    exact h.opened i hi hfd hfree
  constructor
  . intro i hi
    rw [Function.update_of_ne (by omega)]
    exact h.unused i (by omega)
  . intro i hi
    rcases Nat.lt_succ_iff_lt_or_eq.mp hi with hi | rfl
    . rw [hold i hi]
      exact h.numbers i hi
    . simp [hsd]
  . intro i hi hdead
    rcases Nat.lt_succ_iff_lt_or_eq.mp hi with hi | rfl
    . rw [hold i hi] at hdead ⊢
      exact h.quiet i hi hdead
    . simp [h.unused i (Nat.le_refl i)]
  . intro i hi j hj hfd hlive
    rcases Nat.lt_succ_iff_lt_or_eq.mp hi with hi | rfl
    . rcases Nat.lt_succ_iff_lt_or_eq.mp hj with hj | rfl
      . rw [hold i hi] at hfd hlive
        rw [hold j hj] at hfd
        exact h.distinct i hi j hj hfd hlive
      . rw [hold i hi] at hfd hlive
        simp [hother i hi hlive] at hfd
    . rcases Nat.lt_succ_iff_lt_or_eq.mp hj with hj | rfl
      . rw [hfd, hold j hj] at hlive
        rw [hold j hj] at hfd
        simp [Ne.symm (hother j hj hlive)] at hfd
      . rfl
  . intro i hi hlive
    rcases Nat.lt_succ_iff_lt_or_eq.mp hi with hi | rfl
    . rw [hold i hi] at hlive ⊢
      rw [Function.update_of_ne (hother i hi hlive)]
      exact h.opened i hi hlive
    . simp

theorem close (h : Tracks listenSd sockets fds nfds) (hi : i < nfds) (hfd : (fds i).fd = n)
    (hslot : slot.fd = -1) (hquiet : slot.revents = 0)
    : Tracks listenSd (closeAll sockets [n]) (Function.update fds i slot) nfds := by
  have hold : ∀ j, (Function.update fds i slot j).fd ≠ -1 →
      j ≠ i ∧ Function.update fds i slot j = fds j := by
    intro j hlive
    have hj : j ≠ i := by
      rintro rfl
      simp [hslot] at hlive
    exact ⟨hj, Function.update_of_ne hj _ _⟩
  constructor
  . intro j hj
    rw [Function.update_of_ne (by omega)]
    exact h.unused j hj
  . intro j hj
    by_cases hji : j = i
    . subst hji
      simp [hslot]
    . rw [Function.update_of_ne hji]
      exact h.numbers j hj
  . intro j hj hdead
    by_cases hji : j = i
    . subst hji
      simpa using hquiet
    . rw [Function.update_of_ne hji] at hdead ⊢
      exact h.quiet j hj hdead
  . intro j hj k hk hjk hlive
    have hk' := (hold k (hjk ▸ hlive)).2
    have hj' := (hold j hlive).2
    rw [hj', hk'] at hjk
    rw [hj'] at hlive
    exact h.distinct j hj k hk hjk hlive
  . intro j hj hlive
    obtain ⟨hji, hj'⟩ := hold j hlive
    rw [hj'] at hlive ⊢
    have hne : (fds j).fd ≠ n := by
      intro hjn
      exact hji (h.distinct j hj i hi (hjn.trans hfd.symm) hlive)
    simpa [closeAll, hne] using h.opened j hj hlive

theorem shift (h : Tracks listenSd sockets fds nfds) (hi : i < nfds)
    : Tracks listenSd sockets (shift fds nfds i) (nfds - 1) := by
  constructor
  . intro j hj
    by_cases hlast : j < nfds
    . rw [shift_apply fds i hlast]
      apply h.unused
      unfold skip
      split <;> omega
    . rw [shift_apply_of_le fds i (by omega)]
      exact h.unused j (by omega)
  . intro j hj
    rw [shift_apply fds i (by omega)]
    exact h.numbers _ (skip_lt i hj)
  . intro j hj
    rw [shift_apply fds i (by omega)]
    exact h.quiet _ (skip_lt i hj)
  . intro j hj k hk
    rw [shift_apply fds i (by omega), shift_apply fds i (by omega)]
    intro hjk hlive
    exact skip_inj (h.distinct _ (skip_lt i hj) _ (skip_lt i hk) hjk hlive)
  . intro j hj
    rw [shift_apply fds i (by omega)]
    exact h.opened _ (skip_lt i hj)

theorem compress (h : Tracks listenSd sockets fds nfds)
    : Tracks listenSd sockets (compressFrom fds nfds 0).1 (compressFrom fds nfds 0).2 :=
  compressFrom_invariant (I := Tracks listenSd sockets)
    (fun _ _ _ h hi _ => h.shift hi) h 0

theorem mono {sockets' : Int → Option Endpoint} (h : Tracks listenSd sockets fds nfds)
    (hmono : ∀ n, sockets n ≠ none → sockets' n ≠ none)
    : Tracks listenSd sockets' fds nfds where
  unused := h.unused
  numbers := h.numbers
  quiet := h.quiet
  distinct := h.distinct
  opened i hi hlive := hmono _ (h.opened i hi hlive)

theorem clear (h : Tracks listenSd sockets fds nfds) (hi : i < nfds)
    : Tracks listenSd sockets (Function.update fds i { fds i with revents := 0 }) nfds := by
  have hold : ∀ j, (Function.update fds i { fds i with revents := 0 } j).fd = (fds j).fd := by
    intro j
    by_cases hj : j = i
    . subst hj
      simp
    . rw [Function.update_of_ne hj]
  constructor
  . intro j hj
    rw [Function.update_of_ne (by omega)]
    exact h.unused j hj
  . intro j hj
    rw [hold]
    exact h.numbers j hj
  . intro j hj hdead
    by_cases hji : j = i
    . subst hji
      simp
    . rw [Function.update_of_ne hji] at hdead ⊢
      exact h.quiet j hj hdead
  . intro j hj k hk
    rw [hold, hold]
    exact h.distinct j hj k hk
  . intro j hj
    rw [hold]
    exact h.opened j hj

theorem lt_of_fd (h : Tracks listenSd sockets fds nfds) (hfd : 0 < (fds i).fd) : i < nfds := by
  by_contra hi
  simp [h.unused i (by omega)] at hfd

theorem closeSessions {fds : Nat → PollFd} {cs : List ClientSession}
    (h : Tracks listenSd sockets fds nfds) (hcs : ∀ c ∈ cs, 0 < c.socket)
    : Tracks listenSd (closeAll sockets (closeSessions fds cs).2) (closeSessions fds cs).1 nfds := by
  induction cs generalizing sockets fds with
  | nil =>
    apply h.mono
    intro n hn
    simpa [PollServer.closeSessions, closeAll] using hn
  | cons c cs ih =>
    obtain ⟨hpos, hrest⟩ := List.forall_mem_cons.mp hcs
    simp only [PollServer.closeSessions]
    split
    . next hfd =>
      rw [closeAll_cons]
      apply ih _ hrest
      exact h.close (h.lt_of_fd (by omega)) hfd rfl rfl
    . exact ih h hrest

end Tracks

namespace Covers

theorem setRevents (h : Covers sockets fds nfds) (revents : Nat → BitVec 16)
    : Covers sockets (setRevents fds nfds revents) nfds := by
  intro n hn
  obtain ⟨hne, i, hi, hfd⟩ := h n hn
  exact ⟨hne, i, hi, by rw [setRevents_fd, hfd]⟩

theorem accept (h : Covers sockets fds nfds) (hsd : 0 < newSd)
    : Covers (Function.update sockets newSd (some endpoint))
        (Function.update fds nfds { fds nfds with fd := newSd, events := pollIn }) (nfds + 1) := by
  intro n hn
  by_cases hnew : n = newSd
  . subst hnew
    exact ⟨by omega, nfds, by omega, by simp⟩
  . rw [Function.update_of_ne hnew] at hn
    obtain ⟨hne, i, hi, hfd⟩ := h n hn
    exact ⟨hne, i, by omega, by rw [Function.update_of_ne (by omega), hfd]⟩

theorem close (h : Covers sockets fds nfds) (hfd : (fds i).fd = n) (slot : PollFd)
    : Covers (closeAll sockets [n]) (Function.update fds i slot) nfds := by
  intro m hm
  by_cases hmn : m = n
  . simp [closeAll, hmn] at hm
  . simp only [closeAll, List.mem_singleton, hmn, if_false] at hm
    obtain ⟨hne, j, hj, hfd'⟩ := h m hm
    refine ⟨hne, j, hj, ?_⟩
    rw [Function.update_of_ne, hfd']
    rintro rfl
    exact hmn (hfd'.symm.trans hfd)

theorem clear (h : Covers sockets fds nfds) (i : Nat)
    : Covers sockets (Function.update fds i { fds i with revents := 0 }) nfds := by
  intro n hn
  obtain ⟨hne, j, hj, hfd⟩ := h n hn
  refine ⟨hne, j, hj, ?_⟩
  by_cases hji : j = i
  . subst hji
    simpa using hfd
  . rw [Function.update_of_ne hji, hfd]

theorem shift (h : Covers sockets fds nfds) (hi : i < nfds) (hdead : (fds i).fd = -1)
    : Covers sockets (shift fds nfds i) (nfds - 1) := by
  intro n hn
  obtain ⟨hne, k, hk, hfd⟩ := h n hn
  have hki : k ≠ i := by
    rintro rfl
    exact hne (hfd.symm.trans hdead)
  obtain ⟨j, hj, hskip⟩ := exists_skip hi hk hki
  exact ⟨hne, j, hj, by rw [shift_apply fds i (by omega), hskip, hfd]⟩

theorem compress (h : Covers sockets fds nfds)
    : Covers sockets (compressFrom fds nfds 0).1 (compressFrom fds nfds 0).2 :=
  compressFrom_invariant (I := Covers sockets) (fun _ _ _ h hi hdead => h.shift hi hdead) h 0

theorem closeSessions {fds : Nat → PollFd} {cs : List ClientSession}
    (h : Covers sockets fds nfds)
    : Covers (closeAll sockets (closeSessions fds cs).2) (closeSessions fds cs).1 nfds := by
  induction cs generalizing sockets fds with
  | nil => simpa [PollServer.closeSessions, closeAll, Covers] using h
  | cons c cs ih =>
    simp only [PollServer.closeSessions]
    split
    . next hfd =>
      rw [closeAll_cons]
      exact ih (h.close hfd _)
    . exact ih h

end Covers

theorem closeSessions_closed {fds : Nat → PollFd} {cs : List ClientSession}
    (h : Tracks listenSd sockets fds nfds) (hcs : ∀ c ∈ cs, 0 < c.socket)
    : (closeSessions fds cs).2.Nodup
        ∧ ∀ n ∈ (closeSessions fds cs).2, 0 < n ∧ ∃ i < nfds, (fds i).fd = n := by
  induction cs generalizing sockets fds with
  | nil => simp [closeSessions]
  | cons c cs ih =>
    obtain ⟨hpos, hrest⟩ := List.forall_mem_cons.mp hcs
    simp only [closeSessions]
    split
    . next hfd =>
      have hi : c.fdsIndex < nfds := h.lt_of_fd (by omega)
      have hclose : Tracks listenSd (closeAll sockets [c.socket])
          (Function.update fds c.fdsIndex { fd := -1 }) nfds := h.close hi hfd rfl rfl
      obtain ⟨hnodup, hmem⟩ := ih hclose hrest
      have hleft : ∀ n ∈ (closeSessions (Function.update fds c.fdsIndex { fd := -1 }) cs).2,
          n ≠ c.socket ∧ 0 < n ∧ ∃ i < nfds, (fds i).fd = n := by
        intro n hn
        obtain ⟨hn0, j, hj, hjn⟩ := hmem n hn
        have hji : j ≠ c.fdsIndex := by
          rintro rfl
          simp only [Function.update_self] at hjn
          omega
        rw [Function.update_of_ne hji] at hjn
        refine ⟨?_, hn0, j, hj, by rw [← hjn]⟩
        rintro rfl
        exact hji (h.distinct j hj _ hi (hjn.trans hfd.symm) (by omega))
      constructor
      . exact List.nodup_cons.mpr ⟨fun hmem => (hleft _ hmem).1 rfl, hnodup⟩
      . intro n hn
        cases List.mem_cons.mp hn with
        | inl hn =>
          rw [hn]
          exact ⟨hpos, c.fdsIndex, hi, hfd⟩
        | inr hn => exact (hleft n hn).2
    . exact ih h hrest

end PollServer
