import OpenServer.PollServer.Lemmas.Sound

/-!
This module shows when the server keeps listening. The scan closes the listener like any other entry
when `poll` reports something without `POLLIN` for it.
-/

namespace PollServer

variable {listenSd : Int} {s t : PollServer}

def Listening (listenSd : Int) (s : PollServer) : Prop :=
  (s.fds 0).fd = listenSd ∧ s.sockets listenSd = some .listener ∧ 0 < s.nfds

def Expected (revents : BitVec 16) : Prop :=
  revents = 0 ∨ revents &&& pollIn ≠ 0

-- Descriptor 0 is never closed by the scan.
def ExpectedReport (listenSd : Int) (s : PollServer) (l : Label) : Prop :=
  FromSessions s l
    ∧ ∀ rc einval revents, l = .poll rc einval revents → ¬ rc < 0 → 0 < listenSd →
      Expected (revents 0)

theorem closeSessions_apply_of_ne {fds : Nat → PollFd} {cs : List ClientSession}
    (h : ∀ c ∈ cs, c.socket ≠ (fds i).fd)
    : (closeSessions fds cs).1 i = fds i ∧ (fds i).fd ∉ (closeSessions fds cs).2 := by
  induction cs generalizing fds with
  | nil => simp [closeSessions]
  | cons c cs ih =>
    obtain ⟨hc, hrest⟩ := List.forall_mem_cons.mp h
    simp only [closeSessions]
    split
    . next hfd =>
      have hi : i ≠ c.fdsIndex := by
        rintro rfl
        exact hc hfd.symm
      have hold : Function.update fds c.fdsIndex { fd := -1 } i = fds i :=
        Function.update_of_ne hi _ _
      have hkept := @ih (Function.update fds c.fdsIndex { fd := -1 })
      rw [hold] at hkept
      obtain ⟨hslot, hclosed⟩ := hkept hrest
      refine ⟨hslot, ?_⟩
      intro hmem
      cases List.mem_cons.mp hmem with
      | inl hfirst => exact hc hfirst.symm
      | inr hmem => exact hclosed hmem
    . exact ih hrest

theorem compressFrom_first {fds : Nat → PollFd} {nfds : Nat} (hlive : (fds 0).fd ≠ -1)
    (hpos : 0 < nfds)
    : (compressFrom fds nfds 0).1 0 = fds 0 ∧ 0 < (compressFrom fds nfds 0).2 := by
  refine compressFrom_invariant (I := fun fds' nfds' => fds' 0 = fds 0 ∧ 0 < nfds') ?_ ⟨rfl, hpos⟩ 0
  intro fds' nfds' i h hi hdead
  have hi0 : i ≠ 0 := by
    rintro rfl
    rw [h.1] at hdead
    exact hlive hdead
  refine ⟨?_, by omega⟩
  rw [shift_apply fds' i h.2, skip, if_neg (by omega), h.1]

structure Heard (listenSd : Int) (s : PollServer) : Prop where
  sound : s.Sound listenSd
  listening : s.Listening listenSd
  expected : 0 < listenSd → Expected (s.fds 0).revents

theorem Heard.init (hlisten : 0 ≤ listenSd) : (initial listenSd).Heard listenSd where
  sound := .init hlisten
  listening := ⟨rfl, by simp [initial], Nat.one_pos⟩
  expected _ := .inl rfl

theorem Heard.of_same (h : s.Heard listenSd) (hsound : t.Sound listenSd)
    (hslot : t.fds 0 = s.fds 0) (hsocket : t.sockets listenSd = s.sockets listenSd)
    (hnfds : 0 < t.nfds)
    : t.Heard listenSd := by
  obtain ⟨-, ⟨hfd, hlisten, -⟩, hexpected⟩ := h
  refine ⟨hsound, ⟨?_, ?_, hnfds⟩, ?_⟩
  . rw [hslot, hfd]
  . rw [hsocket, hlisten]
  . rw [hslot]
    exact hexpected

theorem Heard.ne_listenSd (h : s.Heard listenSd) (hlisten : 0 ≤ listenSd) (hi : i < s.nfds)
    (hi0 : i ≠ 0)
    : (s.fds i).fd ≠ listenSd := by
  intro hfd
  have hfirst := h.listening.1
  exact hi0 (h.sound.tracks.distinct i hi 0 h.listening.2.2 (by rw [hfd, hfirst]) (by omega))

theorem Heard.checked (h : s.Heard listenSd)
    : (closeSessions s.fds s.qclientsClose).1 0 = s.fds 0
        ∧ listenSd ∉ (closeSessions s.fds s.qclientsClose).2 := by
  have hfirst := h.listening.1
  have hne : ∀ c ∈ s.qclientsClose, c.socket ≠ (s.fds 0).fd := by
    intro c hc
    rw [hfirst]
    exact (h.sound.records.qclientsClose c hc).2
  have hkept := closeSessions_apply_of_ne hne
  rwa [hfirst] at hkept

theorem Heard.step (hlisten : 0 ≤ listenSd) (h : s.Heard listenSd) (hg : ExpectedReport listenSd s l)
    (ht : PollServer.step listenSd s l = some t)
    : t.Heard listenSd := by
  have hsound := h.sound.step hlisten hg.1 ht
  obtain ⟨hfirst, hlistener, hnfds⟩ := h.listening
  cases step_cases ht with
  | polled hpc hrc hreported =>
    refine ⟨hsound, ⟨?_, hlistener, hnfds⟩, ?_⟩
    . rw [setRevents_fd, hfirst]
    . intro hpos
      simp only [setRevents, if_pos hnfds]
      exact hg.2 _ _ _ rfl hrc hpos
  | checked hpc =>
    obtain ⟨hslot, hclosed⟩ := h.checked
    exact h.of_same hsound hslot (by simp [closeAll, hclosed]) hnfds
  | @unexpected i currentSize hpc hi hrevents hin =>
    have hsize := h.sound.at_scan hpc
    by_cases hi0 : i = 0
    . subst hi0
      have hzero : listenSd = 0 := by
        by_contra hne
        cases h.expected (by omega) with
        | inl hnone => exact hrevents hnone
        | inr hsome => exact hsome hin
      subst hzero
      refine ⟨hsound, ⟨?_, ?_, hnfds⟩, fun hpos => absurd hpos (by decide)⟩
      . simp [hfirst]
      . simp [closeAll, closeIfPositive, hfirst, hlistener]
    . have hne := h.ne_listenSd hlisten (i := i) (by omega) hi0
      apply h.of_same hsound
      . exact Function.update_of_ne (Ne.symm hi0) _ _
      . simp [closeAll, mem_closeIfPositive, Ne.symm hne]
      . exact hnfds
  | acceptZero hpc hfree =>
    apply h.of_same hsound rfl _ hnfds
    exact Function.update_of_ne (Ne.symm (h.sound.accept_ne hlisten hpc hfree)) _ _
  | accepted hpc hsd hfree =>
    apply h.of_same hsound
    . exact Function.update_of_ne (by omega) _ _
    . exact Function.update_of_ne (Ne.symm (h.sound.accept_ne hlisten hpc hfree)) _ _
    . exact Nat.succ_pos _
  | received hpc hsocket => exact h.of_same hsound rfl rfl hnfds
  | @recvEnded i currentSize result hpc hresult =>
    obtain ⟨hi, hsize, hne, -⟩ := h.sound.at_recv hpc
    have hi0 : i ≠ 0 := by
      rintro rfl
      exact hne hfirst
    apply h.of_same hsound
    . exact Function.update_of_ne (Ne.symm hi0) _ _
    . simp [closeConn, closeAll, mem_closeIfPositive, Ne.symm hne]
    . exact hnfds
  | compressed hpc hcompress =>
    have hlive : (s.fds 0).fd ≠ -1 := by omega
    obtain ⟨hslot, hpos⟩ := compressFrom_first hlive hnfds
    exact h.of_same hsound hslot rfl hpos
  | _ => exact h.of_same hsound rfl rfl hnfds

theorem heard_of_reachBy (hlisten : 0 ≤ listenSd)
    (h : (machine listenSd).ReachBy (ExpectedReport listenSd) s)
    : s.Heard listenSd := by
  apply Machine.ReachBy.invariant _ _ h
  . rintro s rfl
    exact .init hlisten
  . intro s l t hs hg ht
    exact hs.step hlisten hg ht

theorem not_listening_of_unexpected (hpositive : 0 < listenSd) (h : s.Heard listenSd) (hrc : 0 < rc)
    (hunexpected : ¬ Expected (revents 0))
    (ht : PollServer.step listenSd s (.poll rc einval revents) = some t)
    : ∃ u, (machine listenSd).run t [.checkClosedSessions, .scan] = some u
        ∧ u.sockets listenSd = none := by
  obtain ⟨hfirst, -, hnfds⟩ := h.listening
  obtain ⟨hsome, hnotIn⟩ : revents 0 ≠ 0#16 ∧ revents 0 &&& pollIn = 0#16 := by
    simpa [Expected] using hunexpected
  cases step_cases ht with
  | pollFailed hpc hfailed => omega
  | polled hpc hfailed hreported =>
    have hslot : setRevents s.fds s.nfds revents 0 = { s.fds 0 with revents := revents 0 } := by
      rw [setRevents, if_pos hnfds]
    have hne : ∀ c ∈ s.qclientsClose, c.socket ≠ (setRevents s.fds s.nfds revents 0).fd := by
      intro c hc
      rw [hslot, hfirst]
      exact (h.sound.records.qclientsClose c hc).2
    have hkept := (closeSessions_apply_of_ne hne).1
    have hrc0 : rc ≠ 0 := by omega
    simp [Machine.run_cons, machine, PollServer.step, hrc0, PollServer.scan, hnfds, hkept, hslot,
      hsome, hnotIn, hfirst, closeIfPositive, hpositive, closeAll]

theorem listening_iff (listenSd : Int) (hlisten : 0 ≤ listenSd)
    : (∀ s, (machine listenSd).ReachBy (ExpectedReport listenSd) s → s.Listening listenSd)
        ∧ ∀ s t rc einval revents, (machine listenSd).ReachBy (ExpectedReport listenSd) s →
          0 < rc → 0 < listenSd → ¬ Expected (revents 0) →
          (machine listenSd).step s (.poll rc einval revents) = some t →
          ∃ u, (machine listenSd).run t [.checkClosedSessions, .scan] = some u
            ∧ ¬ u.Listening listenSd := by
  constructor
  . intro s hs
    exact (heard_of_reachBy hlisten hs).listening
  . intro s t rc einval revents hs hrc hpositive hunexpected ht
    obtain ⟨u, hu, hclosed⟩ :=
      not_listening_of_unexpected hpositive (heard_of_reachBy hlisten hs) hrc hunexpected ht
    refine ⟨u, hu, ?_⟩
    intro hlistening
    simp [hlistening.2.1] at hclosed

theorem listening_iff_acceptThenRead
    : ∃ s, (machine 3).run (initial 3) acceptThenRead = some s ∧ s.nfds = 2 ∧ s.Listening 3 := by
  refine ⟨_, rfl, rfl, ?_⟩
  refine (listening_iff 3 (by decide)).1 _ ?_
  refine Machine.ReachBy.run (s := initial 3) (.init rfl) acceptThenRead ?_ rfl
  intro l hl s
  constructor
  . rintro c rfl
    simp [acceptThenRead] at hl
  . rintro rc einval revents rfl - -
    simp only [acceptThenRead, List.mem_cons, Label.poll.injEq, reduceCtorEq, or_false, false_or,
      List.not_mem_nil] at hl
    rcases hl with ⟨-, -, rfl⟩ | ⟨-, -, rfl⟩
    . exact .inr (by decide)
    . exact .inl rfl

def hangUp : List Label :=
  [.poll 1 false (fun i => if i = 0 then pollHup else 0), .checkClosedSessions, .scan]

theorem not_listening : ¬ ∀ s, (machine 3).Reachable s → s.Listening 3 := by
  intro h
  obtain ⟨s, hs, hclosed⟩ : ∃ s, (machine 3).run (initial 3) hangUp = some s
      ∧ s.sockets 3 = none := ⟨_, rfl, rfl⟩
  have := (h s (Machine.Reachable.run (.init rfl) hangUp hs)).2.1
  simp [hclosed] at this

end PollServer
