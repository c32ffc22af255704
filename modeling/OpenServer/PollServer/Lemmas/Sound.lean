import OpenServer.PollServer.Lemmas.Sessions
import OpenServer.PollServer.Lemmas.Table

/-!
This module shows that every step of the serving loop keeps the invariant of the table.
-/

namespace PollServer

variable {listenSd : Int}

def Located (listenSd : Int) (s : PollServer) : Prop :=
  match s.pc with
  | .scan _ currentSize => currentSize ≤ s.nfds
  | .accept i currentSize => i < currentSize ∧ currentSize ≤ s.nfds ∧ (s.fds i).fd = listenSd
  | .recv i currentSize =>
    i < currentSize ∧ currentSize ≤ s.nfds ∧ (s.fds i).fd ≠ listenSd ∧ (s.fds i).fd ≠ -1
  | _ => True

structure Sound (listenSd : Int) (s : PollServer) : Prop where
  tracks : Tracks listenSd s.sockets s.fds s.nfds
  records : s.Records (fun socket _ => 0 < socket ∧ socket ≠ listenSd)
  listener : ∀ k, s.sockets listenSd ≠ some (.connection k)
  located : s.Located listenSd

variable {s t : PollServer}

theorem Sound.init (hlisten : 0 ≤ listenSd) : (initial listenSd).Sound listenSd where
  tracks := by
    have hfirst : ∀ i < 1, i = 0 := by omega
    constructor
    . intro i hi
      have : i ≠ 0 := by
        rintro rfl
        exact absurd hi (Nat.not_succ_le_zero 0)
      simp [initial, this]
    . intro i hi
      simp [initial, hfirst i hi]
    . intro i hi hdead
      simp only [initial, hfirst i hi, if_true] at hdead
      omega
    . intro i hi j hj _ _
      rw [hfirst i hi, hfirst j hj]
    . intro i hi _
      simp [initial, hfirst i hi]
  records := .init _ _
  listener k := by simp [initial]
  located := trivial

theorem Sound.at_scan (h : s.Sound listenSd) (hpc : s.pc = .scan i currentSize)
    : currentSize ≤ s.nfds := by
  have hlocated := h.located
  rwa [Located, hpc] at hlocated

theorem Sound.at_accept (h : s.Sound listenSd) (hpc : s.pc = .accept i currentSize)
    : i < currentSize ∧ currentSize ≤ s.nfds ∧ (s.fds i).fd = listenSd := by
  have hlocated := h.located
  rwa [Located, hpc] at hlocated

theorem Sound.at_recv (h : s.Sound listenSd) (hpc : s.pc = .recv i currentSize)
    : i < currentSize ∧ currentSize ≤ s.nfds ∧ (s.fds i).fd ≠ listenSd ∧ (s.fds i).fd ≠ -1 := by
  have hlocated := h.located
  rwa [Located, hpc] at hlocated

theorem Sound.qclientsClose_pos (h : s.Sound listenSd) : ∀ c ∈ s.qclientsClose, 0 < c.socket := by
  intro c hc
  exact (h.records.qclientsClose c hc).1

theorem Sound.recv_pos (h : s.Sound listenSd) (hpc : s.pc = .recv i currentSize)
    : 0 < (s.fds i).fd := by
  obtain ⟨hi, hsize, hlisten, hlive⟩ := h.at_recv hpc
  have := h.tracks.numbers i (by omega)
  omega

-- Only the listener accepts: while it is open its number is not given again.
theorem Sound.accept_ne (hlisten : 0 ≤ listenSd) (h : s.Sound listenSd)
    (hpc : s.pc = .accept i currentSize) (hfree : s.sockets newSd = none)
    : newSd ≠ listenSd := by
  obtain ⟨hi, hsize, hfd⟩ := h.at_accept hpc
  rintro rfl
  refine h.tracks.opened i (by omega) (by omega) ?_
  rw [hfd, hfree]

theorem sockets_update_ne_none {sockets : Int → Option Endpoint} (newSd : Int) (e : Endpoint) (n : Int)
    (h : sockets n ≠ none)
    : Function.update sockets newSd (some e) n ≠ none := by
  by_cases hn : n = newSd
  . simp [hn]
  . rwa [Function.update_of_ne hn]

theorem Sound.step_tracks (h : s.Sound listenSd)
    (ht : step listenSd s l = some t)
    : Tracks listenSd t.sockets t.fds t.nfds := by
  cases step_cases ht with
  | polled hpc hrc hreported => exact h.tracks.setRevents hreported
  | checked hpc => exact h.tracks.closeSessions h.qclientsClose_pos
  | @unexpected i currentSize hpc hi hrevents hin =>
    have hi' : i < s.nfds := Nat.lt_of_lt_of_le hi (h.at_scan hpc)
    by_cases hpos : (s.fds i).fd > 0
    . simp only [closeIfPositive, if_pos hpos]
      exact h.tracks.close hi' rfl rfl rfl
    . simp only [closeIfPositive, if_neg hpos]
      refine Tracks.mono (h.tracks.clear hi') ?_
      intro n hn
      simpa [closeAll] using hn
  | acceptZero hpc hfree => exact h.tracks.mono (sockets_update_ne_none _ _)
  | accepted hpc hsd hfree => exact h.tracks.accept hsd hfree
  | received hpc hsocket => exact h.tracks
  | recvEnded hpc hresult =>
    obtain ⟨hi, hsize, -⟩ := h.at_recv hpc
    simp only [closeConn, closeIfPositive, if_pos (h.recv_pos hpc)]
    exact h.tracks.close (Nat.lt_of_lt_of_le hi hsize) rfl rfl rfl
  | compressed hpc hcompress => exact h.tracks.compress
  | _ => exact h.tracks

theorem Sound.step_listener (hlisten : 0 ≤ listenSd) (h : s.Sound listenSd)
    (ht : step listenSd s l = some t) (k : Nat)
    : t.sockets listenSd ≠ some (.connection k) := by
  obtain ⟨-, hclosed⟩ | ⟨-, hsame | ⟨rfl, hfree, -⟩⟩ := step_sockets ht listenSd
  . simp [hclosed]
  . rw [hsame]
    exact h.listener k
  . cases step_cases ht with
    | acceptFailed hpc hsd => omega
    | acceptZero hpc => exact absurd rfl (h.accept_ne hlisten hpc hfree)
    | accepted hpc => exact absurd rfl (h.accept_ne hlisten hpc hfree)

theorem Sound.step_located (h : s.Sound listenSd)
    (ht : step listenSd s l = some t)
    : t.Located listenSd := by
  cases step_cases ht with
  | pollFailed hpc => trivial
  | polled hpc => trivial
  | @checked rc einval hpc =>
    by_cases hrc : rc = 0
    . simp only [Located, if_pos hrc]
    . simp only [Located, if_neg hrc]
      exact Nat.le_refl _
  | quiet hpc hi hquiet => exact h.at_scan hpc
  | unexpected hpc hi hrevents hin => exact h.at_scan hpc
  | listening hpc hi hin hfd => exact ⟨hi, h.at_scan hpc, hfd⟩
  | @readable i currentSize hpc hi hin hfd =>
    have hsize := h.at_scan hpc
    refine ⟨hi, hsize, hfd, ?_⟩
    intro hdead
    rw [h.tracks.quiet i (by omega) hdead] at hin
    simp at hin
  | scanned hpc hi => trivial
  | acceptFailed hpc => exact (h.at_accept hpc).2.1
  | acceptZero hpc => exact (h.at_accept hpc).2.1
  | accepted hpc =>
    obtain ⟨hi, hsize, hfd⟩ := h.at_accept hpc
    simp only [Located, hpc]
    refine ⟨hi, by omega, ?_⟩
    rw [Function.update_of_ne (by omega), hfd]
  | received hpc =>
    simp only [Located, recvData, hpc]
    exact h.at_recv hpc
  | recvBlocked hpc => exact (h.at_recv hpc).2.1
  | recvEnded hpc => exact (h.at_recv hpc).2.1
  | compressed hpc => trivial
  | uncompressed hpc => trivial
  | requested => exact h.located

theorem Sound.step (hlisten : 0 ≤ listenSd) (h : s.Sound listenSd) (hg : FromSessions s l)
    (ht : PollServer.step listenSd s l = some t)
    : t.Sound listenSd where
  tracks := h.step_tracks ht
  records := by
    apply h.records.step hg _ ht
    intro i currentSize k hpc hsocket
    refine ⟨h.recv_pos hpc, ?_⟩
    intro hfd
    rw [hfd] at hsocket
    exact h.listener k hsocket
  listener := h.step_listener hlisten ht
  located := h.step_located ht

end PollServer
