import OpenServer.PollServer.Impl.Start

/-!
This module contains the case analysis of one step of the serving loop, and which descriptors it
closes.
-/

namespace PollServer

variable {listenSd : Int}

inductive Stepped (listenSd : Int) (s : PollServer) : Label → PollServer → Prop where
  | pollFailed (hpc : s.pc = .poll) (hrc : rc < 0)
      : Stepped listenSd s (.poll rc einval revents) { s with pc := .checkClosedSessions rc einval }
  | polled (hpc : s.pc = .poll) (hrc : ¬ rc < 0) (hreported : Reported s.fds s.nfds revents)
      : Stepped listenSd s (.poll rc einval revents)
          { s with fds := setRevents s.fds s.nfds revents, pc := .checkClosedSessions rc einval }
  | checked (hpc : s.pc = .checkClosedSessions rc einval)
      : Stepped listenSd s .checkClosedSessions
          { s with
            fds := (closeSessions s.fds s.qclientsClose).1
            sockets := closeAll s.sockets (closeSessions s.fds s.qclientsClose).2
            qclientsClose := []
            compressArray := s.compressArray || (decide (rc < 0) && einval)
            pc := if rc = 0 then .poll else .scan 0 s.nfds }
  | quiet (hpc : s.pc = .scan i currentSize) (hi : i < currentSize) (hquiet : (s.fds i).revents = 0)
      : Stepped listenSd s .scan { s with pc := .scan (i + 1) currentSize }
  | unexpected (hpc : s.pc = .scan i currentSize) (hi : i < currentSize)
      (hrevents : (s.fds i).revents ≠ 0) (hin : (s.fds i).revents &&& pollIn = 0)
      : Stepped listenSd s .scan
          { s with
            sockets := closeAll s.sockets (closeIfPositive (s.fds i).fd)
            fds := Function.update s.fds i
              { s.fds i with fd := if (s.fds i).fd > 0 then -1 else (s.fds i).fd, revents := 0 }
            compressArray := true
            pc := .scan (i + 1) currentSize }
  | listening (hpc : s.pc = .scan i currentSize) (hi : i < currentSize)
      (hin : (s.fds i).revents &&& pollIn ≠ 0) (hfd : (s.fds i).fd = listenSd)
      : Stepped listenSd s .scan { s with pc := .accept i currentSize }
  | readable (hpc : s.pc = .scan i currentSize) (hi : i < currentSize)
      (hin : (s.fds i).revents &&& pollIn ≠ 0) (hfd : (s.fds i).fd ≠ listenSd)
      : Stepped listenSd s .scan { s with pc := .recv i currentSize }
  | scanned (hpc : s.pc = .scan i currentSize) (hi : currentSize ≤ i)
      : Stepped listenSd s .scan { s with pc := .compress }
  | acceptFailed (hpc : s.pc = .accept i currentSize) (hsd : newSd < 0)
      : Stepped listenSd s (.accept newSd) { s with pc := .scan (i + 1) currentSize }
  | acceptZero (hpc : s.pc = .accept i currentSize) (hfree : s.sockets 0 = none)
      : Stepped listenSd s (.accept 0)
          { s with
            sockets := Function.update s.sockets 0 (some (.connection s.nextConnection))
            nextConnection := s.nextConnection + 1
            pc := .scan (i + 1) currentSize }
  | accepted (hpc : s.pc = .accept i currentSize) (hsd : 0 < newSd) (hfree : s.sockets newSd = none)
      : Stepped listenSd s (.accept newSd)
          { s with
            sockets := Function.update s.sockets newSd (some (.connection s.nextConnection))
            nextConnection := s.nextConnection + 1
            fds := Function.update s.fds s.nfds
              { s.fds s.nfds with fd := newSd, events := pollIn }
            nfds := s.nfds + 1 }
  | received (hpc : s.pc = .recv i currentSize)
      (hsocket : s.sockets (s.fds i).fd = some (.connection k))
      : Stepped listenSd s (.recv (.data buffer)) (recvData s i k buffer)
  | recvBlocked (hpc : s.pc = .recv i currentSize)
      : Stepped listenSd s (.recv .wouldBlock) { s with pc := .scan (i + 1) currentSize }
  | recvEnded (hpc : s.pc = .recv i currentSize) (hresult : result = .closed ∨ result = .failed)
      : Stepped listenSd s (.recv result) (closeConn s i currentSize)
  | compressed (hpc : s.pc = .compress) (hcompress : s.compressArray)
      : Stepped listenSd s .compress
          { s with
            fds := (compressFrom s.fds s.nfds 0).1
            nfds := (compressFrom s.fds s.nfds 0).2
            compressArray := false
            pc := .poll }
  | uncompressed (hpc : s.pc = .compress) (hcompress : ¬ s.compressArray)
      : Stepped listenSd s .compress { s with pc := .poll }
  | requested : Stepped listenSd s (.requestClose c)
      { s with qclientsClose := s.qclientsClose ++ [c] }

theorem scan_cases (hpc : s.pc = .scan i currentSize)
    : Stepped listenSd s .scan (scan listenSd s i currentSize) := by
  unfold scan
  split
  . next hi =>
    dsimp only
    split
    . next hquiet => exact .quiet hpc hi hquiet
    . next hrevents =>
      split
      . next hin => exact .unexpected hpc hi hrevents hin
      . next hin =>
        split
        . next hfd => exact .listening hpc hi hin hfd
        . next hfd => exact .readable hpc hi hin hfd
  . next hi => exact .scanned hpc (by omega)

theorem accept_cases (hpc : s.pc = .accept i currentSize)
    (h : accept s i currentSize newSd = some t)
    : Stepped listenSd s (.accept newSd) t := by
  unfold accept at h
  split at h
  . next hsd =>
    injection h with h
    rw [← h]
    exact .acceptFailed hpc hsd
  . next hsd =>
    split at h
    . next hfree =>
      dsimp only at h
      split at h
      . next hzero =>
        injection h with h
        subst hzero
        rw [← h]
        exact .acceptZero hpc hfree
      . next hzero =>
        injection h with h
        rw [← h]
        exact .accepted hpc (by omega) hfree
    . cases h

theorem recv_cases (hpc : s.pc = .recv i currentSize) (h : recv s i currentSize result = some t)
    : Stepped listenSd s (.recv result) t := by
  cases result with
  | data buffer =>
    simp only [recv] at h
    split at h
    . next k hsocket =>
      injection h with h
      rw [← h]
      exact .received hpc hsocket
    . cases h
  | closed =>
    injection h with h
    rw [← h]
    exact .recvEnded hpc (.inl rfl)
  | failed =>
    injection h with h
    rw [← h]
    exact .recvEnded hpc (.inr rfl)
  | wouldBlock =>
    injection h with h
    rw [← h]
    exact .recvBlocked hpc

theorem step_cases (h : step listenSd s l = some t) : Stepped listenSd s l t := by
  cases l with
  | poll rc einval revents =>
    simp only [step] at h
    split at h
    . next hpc =>
      split at h
      . next hrc =>
        injection h with h
        rw [← h]
        exact .pollFailed hpc hrc
      . next hrc =>
        split at h
        . next hreported =>
          injection h with h
          rw [← h]
          exact .polled hpc hrc hreported
        . cases h
    . cases h
  | checkClosedSessions =>
    simp only [step] at h
    split at h
    . next rc einval hpc =>
      injection h with h
      rw [← h]
      exact .checked hpc
    . cases h
  | scan =>
    simp only [step] at h
    split at h
    . next i currentSize hpc =>
      injection h with h
      rw [← h]
      exact scan_cases hpc
    . cases h
  | accept newSd =>
    simp only [step] at h
    split at h
    . next i currentSize hpc => exact accept_cases hpc h
    . cases h
  | recv result =>
    simp only [step] at h
    split at h
    . next i currentSize hpc => exact recv_cases hpc h
    . cases h
  | compress =>
    simp only [step] at h
    split at h
    . next hpc =>
      split at h
      . next hcompress =>
        injection h with h
        rw [← h]
        exact .compressed hpc hcompress
      . next hcompress =>
        injection h with h
        rw [← h]
        exact .uncompressed hpc hcompress
    . cases h
  | requestClose c =>
    injection h with h
    rw [← h]
    exact .requested

def Closes (s : PollServer) (l : Label) (n : Int) : Prop :=
  match s.pc, l with
  | .checkClosedSessions _ _, .checkClosedSessions => n ∈ (closeSessions s.fds s.qclientsClose).2
  | .scan i currentSize, .scan =>
    i < currentSize ∧ (s.fds i).revents ≠ 0 ∧ (s.fds i).revents &&& pollIn = 0
      ∧ n ∈ closeIfPositive (s.fds i).fd
  | .recv i _, .recv .closed => n ∈ closeIfPositive (s.fds i).fd
  | .recv i _, .recv .failed => n ∈ closeIfPositive (s.fds i).fd
  | _, _ => False

theorem closeAll_apply (sockets : Int → Option Endpoint) (closed : List Int) (n : Int)
    : closeAll sockets closed n = if n ∈ closed then none else sockets n := by
  rfl

theorem step_sockets (h : step listenSd s l = some t) (n : Int)
    : Closes s l n ∧ t.sockets n = none
        ∨ ¬ Closes s l n ∧ (t.sockets n = s.sockets n
          ∨ l = .accept n ∧ s.sockets n = none
            ∧ t.sockets n = some (.connection s.nextConnection)) := by
  cases step_cases h with
  | checked hpc =>
    simp only [Closes, hpc, closeAll_apply]
    split <;> simp [*]
  | @unexpected i currentSize hpc hi hrevents hin =>
    simp only [Closes, hpc, closeAll_apply]
    by_cases hn : n ∈ closeIfPositive (s.fds i).fd
    . exact .inl ⟨⟨hi, hrevents, hin, hn⟩, if_pos hn⟩
    . exact .inr ⟨fun hclose => hn hclose.2.2.2, .inl (if_neg hn)⟩
  | recvEnded hpc hresult =>
    rcases hresult with rfl | rfl
    . simp only [Closes, hpc, closeConn, closeAll_apply]
      split <;> simp [*]
    . simp only [Closes, hpc, closeConn, closeAll_apply]
      split <;> simp [*]
  | acceptZero hpc hfree =>
    right
    refine ⟨by simp [Closes, hpc], ?_⟩
    by_cases hn : n = 0
    . subst hn
      simp [hfree]
    . simp [Function.update_of_ne hn]
  | @accepted i currentSize newSd hpc hsd hfree =>
    right
    refine ⟨by simp [Closes, hpc], ?_⟩
    by_cases hn : n = newSd
    . subst hn
      simp [hfree]
    . simp [Function.update_of_ne hn]
  | quiet hpc hi hquiet =>
    simp only [Closes, hpc]
    exact .inr ⟨fun hclose => hclose.2.1 hquiet, .inl trivial⟩
  | listening hpc hi hin hfd =>
    simp only [Closes, hpc]
    exact .inr ⟨fun hclose => hin hclose.2.2.1, .inl trivial⟩
  | readable hpc hi hin hfd =>
    simp only [Closes, hpc]
    exact .inr ⟨fun hclose => hin hclose.2.2.1, .inl trivial⟩
  | scanned hpc hi =>
    simp only [Closes, hpc]
    exact .inr ⟨fun hclose => absurd hclose.1 (by omega), .inl trivial⟩
  | pollFailed hpc => simp [Closes, hpc]
  | polled hpc => simp [Closes, hpc]
  | acceptFailed hpc => simp [Closes, hpc]
  | received hpc => simp [Closes, hpc, recvData]
  | recvBlocked hpc => simp [Closes, hpc]
  | compressed hpc => simp [Closes, hpc]
  | uncompressed hpc => simp [Closes, hpc]
  | requested => cases hpc : s.pc <;> simp [Closes, hpc]

end PollServer
