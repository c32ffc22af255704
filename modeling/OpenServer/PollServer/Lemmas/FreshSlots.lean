import OpenServer.PollServer.Lemmas.OpenSockets
import OpenServer.Transition.History

/-!
This module shows that a new connection gets a clean slot: nothing is reported in it before `poll` has
looked at it.
-/

namespace PollServer

variable {listenSd : Int} {sockets : Int → Option Endpoint} {fds : Nat → PollFd} {nfds : Nat}

-- The number of the first connection that `poll` has not seen yet.
def firstUnseen : History PollServer Label Nat where
  start := 0
  extend unseen s l _ :=
    match l with
    | .poll rc _ _ => if rc < 0 then unseen else s.nextConnection
    | _ => unseen

def Unseen (unseen : Nat) (sockets : Int → Option Endpoint) (n : Int) : Prop :=
  ∃ k, unseen ≤ k ∧ sockets n = some (.connection k)

def Unreported (unseen : Nat) (sockets : Int → Option Endpoint) (fds : Nat → PollFd) (nfds : Nat)
    : Prop :=
  ∀ i < nfds, Unseen unseen sockets (fds i).fd → (fds i).revents = 0

theorem Unseen.of_closeAll (h : Unseen unseen (closeAll sockets closed) n)
    : Unseen unseen sockets n := by
  obtain ⟨k, hk, hn⟩ := h
  refine ⟨k, hk, ?_⟩
  unfold closeAll at hn
  split at hn
  . cases hn
  . exact hn

theorem closeSessions_slot (fds : Nat → PollFd) (cs : List ClientSession) (i : Nat)
    : (closeSessions fds cs).1 i = fds i ∨ (closeSessions fds cs).1 i = { fd := -1 } := by
  induction cs generalizing fds with
  | nil => exact .inl rfl
  | cons c cs ih =>
    simp only [closeSessions]
    split
    . by_cases hi : i = c.fdsIndex
      . subst hi
        cases ih (Function.update fds c.fdsIndex { fd := -1 }) with
        | inl hsame =>
          rw [Function.update_self] at hsame
          exact .inr hsame
        | inr hdead => exact .inr hdead
      . have := ih (Function.update fds c.fdsIndex { fd := -1 })
        rwa [Function.update_of_ne hi] at this
    . exact ih fds

theorem compressFrom_slot (fds : Nat → PollFd) (nfds : Nat)
    : ∀ i < (compressFrom fds nfds 0).2, ∃ j < nfds, (compressFrom fds nfds 0).1 i = fds j := by
  apply compressFrom_invariant (I := fun fds' nfds' => ∀ i < nfds', ∃ j < nfds, fds' i = fds j)
  . intro fds' nfds' i h hi _ j hj
    rw [shift_apply fds' i (by omega)]
    exact h _ (skip_lt i hj)
  . intro i hi
    exact ⟨i, hi, rfl⟩

namespace Unreported

variable {unseen : Nat}

theorem closeSessions (h : Unreported unseen sockets fds nfds) (cs : List ClientSession)
    : Unreported unseen (closeAll sockets (closeSessions fds cs).2) (closeSessions fds cs).1 nfds := by
  intro i hi hunseen
  have hbefore := hunseen.of_closeAll
  cases closeSessions_slot fds cs i with
  | inl hsame =>
    rw [hsame] at hbefore ⊢
    exact h i hi hbefore
  | inr hdead => rw [hdead]

theorem close (h : Unreported unseen sockets fds nfds) (closed : List Int) (hslot : slot.revents = 0)
    : Unreported unseen (closeAll sockets closed) (Function.update fds i slot) nfds := by
  intro j hj hunseen
  have hbefore := hunseen.of_closeAll
  by_cases hji : j = i
  . subst hji
    simpa using hslot
  . rw [Function.update_of_ne hji] at hbefore ⊢
    exact h j hj hbefore

theorem accept (h : Unreported unseen sockets fds nfds) (htracks : Tracks listenSd sockets fds nfds)
    (hsd : 0 < newSd) (hfree : sockets newSd = none)
    : Unreported unseen (Function.update sockets newSd (some endpoint))
        (Function.update fds nfds { fds nfds with fd := newSd, events := pollIn }) (nfds + 1) := by
  intro i hi hunseen
  rcases Nat.lt_succ_iff_lt_or_eq.mp hi with hi | rfl
  . rw [Function.update_of_ne (by omega)] at hunseen ⊢
    have hne : (fds i).fd ≠ newSd := by
      rintro rfl
      exact htracks.opened i hi (by omega) hfree
    apply h i hi
    simpa [Unseen, Function.update_of_ne hne] using hunseen
  . simp [htracks.unused i (Nat.le_refl i)]

theorem compress (h : Unreported unseen sockets fds nfds)
    : Unreported unseen sockets (compressFrom fds nfds 0).1 (compressFrom fds nfds 0).2 := by
  intro i hi hunseen
  obtain ⟨j, hj, hslot⟩ := compressFrom_slot fds nfds i hi
  rw [hslot] at hunseen ⊢
  exact h j hj hunseen

end Unreported

structure Clean (listenSd : Int) (s : PollServer) (unseen : Nat) : Prop where
  sound : s.Sound listenSd
  numbered : s.Numbered
  unreported : Unreported unseen s.sockets s.fds s.nfds
  reading : ∀ i currentSize, s.pc = .recv i currentSize → (s.fds i).revents ≠ 0

variable {s t : PollServer}

theorem Clean.step_unreported (h : s.Clean listenSd unseen) (hg : l ≠ .accept 0)
    (ht : PollServer.step listenSd s l = some t)
    : Unreported (firstUnseen.extend unseen s l t) t.sockets t.fds t.nfds := by
  cases step_cases ht with
  | pollFailed hpc hrc =>
    simp only [firstUnseen, if_pos hrc]
    exact h.unreported
  | polled hpc hrc hreported =>
    -- every connection has been accepted before this `poll`
    simp only [firstUnseen, if_neg hrc]
    rintro i hi ⟨k, hk, hsocket⟩
    exact absurd (h.numbered.lt _ k hsocket) (by omega)
  | checked hpc => exact h.unreported.closeSessions s.qclientsClose
  | unexpected hpc hi hrevents hin => exact h.unreported.close _ rfl
  | acceptZero hpc hfree => exact absurd rfl hg
  | accepted hpc hsd hfree => exact h.unreported.accept h.sound.tracks hsd hfree
  | recvEnded hpc hresult => exact h.unreported.close _ rfl
  | compressed hpc hcompress => exact h.unreported.compress
  | _ => exact h.unreported

theorem Clean.step_reading (h : s.Clean listenSd unseen) (ht : PollServer.step listenSd s l = some t)
    (i currentSize : Nat) (hpc : t.pc = .recv i currentSize)
    : (t.fds i).revents ≠ 0 := by
  cases step_cases ht with
  | @readable i' currentSize' hpc' hi hin hfd =>
    injection hpc with hi'
    rw [← hi']
    intro hnone
    rw [hnone] at hin
    simp at hin
  | received hpc' hsocket => exact h.reading i currentSize hpc
  | requested => exact h.reading i currentSize hpc
  | @checked rc einval hpc' =>
    dsimp only at hpc
    split at hpc <;> cases hpc
  | accepted hpc' hsd hfree => simp [hpc'] at hpc
  | _ => cases hpc

theorem Clean.step (hlisten : 0 ≤ listenSd) (h : s.Clean listenSd unseen) (hg : Accepted s l)
    (ht : PollServer.step listenSd s l = some t)
    : t.Clean listenSd (firstUnseen.extend unseen s l t) where
  sound := h.sound.step hlisten hg.2 ht
  numbered := h.numbered.step ht
  unreported := h.step_unreported hg.1 ht
  reading := h.step_reading ht

theorem clean_of_reachBy (hlisten : 0 ≤ listenSd)
    (h : ((machine listenSd).withHistory firstUnseen).ReachBy (fun p l => Accepted p.1 l) (s, unseen))
    : s.Clean listenSd unseen := by
  apply Machine.ReachBy.history_invariant (I := Clean listenSd) _ _ h
  . rintro _ rfl
    constructor
    . exact .init hlisten
    . constructor <;> simp [initial]
    . rintro i hi ⟨k, -, hk⟩
      simp [initial] at hk
    . intro i currentSize hpc
      cases hpc
  . intro s past l t hclean hg ht
    exact hclean.step hlisten hg ht

def Reads (s : PollServer) (l : Label) (n : Int) : Prop :=
  ∃ i currentSize result, s.pc = .recv i currentSize ∧ l = .recv result ∧ (s.fds i).fd = n

theorem Clean.not_reads (h : s.Clean listenSd unseen) (hn : Unseen unseen s.sockets n)
    : ¬ Reads s l n := by
  rintro ⟨i, currentSize, result, hpc, -, rfl⟩
  obtain ⟨hi, hsize, -⟩ := h.sound.at_recv hpc
  exact h.reading i currentSize hpc (h.unreported i (by omega) hn)

theorem Clean.checks_of_closes (h : s.Clean listenSd unseen) (hn : Unseen unseen s.sockets n)
    (hclose : Closes s l n)
    : l = .checkClosedSessions := by
  have hrecv : ∀ {i currentSize}, s.pc = .recv i currentSize → n ∉ closeIfPositive (s.fds i).fd := by
    intro i currentSize hpc hmem
    obtain ⟨-, rfl⟩ := mem_closeIfPositive.mp hmem
    obtain ⟨hi, hsize, -⟩ := h.sound.at_recv hpc
    exact h.reading i currentSize hpc (h.unreported i (by omega) hn)
  unfold Closes at hclose
  split at hclose
  . rfl
  . next i currentSize hpc =>
    obtain ⟨hi, hrevents, -, hmem⟩ := hclose
    obtain ⟨-, rfl⟩ := mem_closeIfPositive.mp hmem
    exact absurd (h.unreported i (Nat.lt_of_lt_of_le hi (h.sound.at_scan hpc)) hn) hrevents
  . next i currentSize hpc => exact absurd hclose (hrecv hpc)
  . next i currentSize hpc => exact absurd hclose (hrecv hpc)
  . cases hclose

theorem freshSlots_clean (listenSd : Int) (hlisten : 0 ≤ listenSd) (s : PollServer) (unseen : Nat)
    (h : ((machine listenSd).withHistory firstUnseen).ReachBy (fun p l => Accepted p.1 l) (s, unseen))
    : (∀ i, s.nfds ≤ i → (s.fds i).fd = 0 ∧ (s.fds i).events = 0 ∧ (s.fds i).revents = 0)
        ∧ (∀ i < s.nfds, Unseen unseen s.sockets (s.fds i).fd → (s.fds i).revents = 0)
        ∧ ∀ l n, Unseen unseen s.sockets n →
            ¬ Reads s l n ∧ (Closes s l n → l = .checkClosedSessions) := by
  have hclean := clean_of_reachBy hlisten h
  refine ⟨?_, hclean.unreported, ?_⟩
  . intro i hi
    rw [hclean.sound.tracks.unused i hi]
    exact ⟨rfl, rfl, rfl⟩
  . intro l n hn
    exact ⟨hclean.not_reads hn, hclean.checks_of_closes hn⟩

-- The second connection gets the slot of the first, and the next `poll` fails.
def acceptAfterClose : List Label :=
  acceptThenRead ++ [.recv .closed, .scan, .compress,
    .poll 1 false (fun i => if i = 0 then pollIn else 0), .checkClosedSessions, .scan, .accept 5,
    .accept (-1), .scan, .compress,
    .poll (-1) false (fun _ => 0), .checkClosedSessions, .scan, .accept (-1)]

theorem freshSlots_clean_acceptAfterClose
    : ∃ s unseen, ((machine 3).withHistory firstUnseen).run (initial 3, 0) acceptAfterClose
          = some (s, unseen)
        ∧ s.pc = .scan 1 2 ∧ Unseen unseen s.sockets (s.fds 1).fd ∧ (s.fds 1).revents = 0 := by
  have hrun : (((machine 3).withHistory firstUnseen).run (initial 3, 0) acceptAfterClose).any
      (fun p => p.2 = 1 ∧ p.1.pc = .scan 1 2 ∧ p.1.nfds = 2
        ∧ p.1.sockets (p.1.fds 1).fd = some (.connection 1)) := by
    decide +kernel
  obtain ⟨⟨s, unseen⟩, hs, hstate⟩ := (Option.any_eq_true _ _).mp hrun
  obtain ⟨hseen, hpc, hnfds, hn⟩ := of_decide_eq_true hstate
  dsimp only at hseen hpc hnfds hn
  subst hseen
  have hreach : ((machine 3).withHistory firstUnseen).ReachBy (fun p l => Accepted p.1 l) (s, 1) := by
    refine Machine.ReachBy.run (s := (initial 3, 0)) (.init ⟨rfl, rfl⟩) acceptAfterClose ?_ hs
    intro l hl p
    exact accepted_of_mem (by simp [acceptAfterClose, acceptThenRead])
      (by simp [acceptAfterClose, acceptThenRead]) hl
  have hunseen : Unseen 1 s.sockets (s.fds 1).fd := ⟨1, Nat.le_refl 1, hn⟩
  refine ⟨s, 1, hs, hpc, hunseen, ?_⟩
  exact (freshSlots_clean 3 (by decide) s 1 hreach).2.1 1 (by omega) hunseen

end PollServer
