import OpenServer.PollServer.Impl.Indices
import OpenServer.PollServer.Lemmas.Sound

/-!
This module shows when the serving loop stays inside the array `fds`. Nothing compares `nfds` with the
size of the array.
-/

namespace PollServer

variable {listenSd : Int} {s t : PollServer}

-- There is a free entry behind the table where a connection is added, and where the compaction starts
-- to move entries.
def HasRoom (s : PollServer) (l : Label) : Prop :=
  (∀ i currentSize newSd, s.pc = .accept i currentSize → l = .accept newSd → 0 < newSd →
      s.nfds < fdsSize)
    ∧ (s.pc = .compress → l = .compress → s.compressArray → (∃ i < s.nfds, (s.fds i).fd = -1) →
      s.nfds < fdsSize)

def Roomy (s : PollServer) (l : Label) : Prop :=
  FromSessions s l ∧ HasRoom s l

theorem mem_shiftIndices {nfds i j : Nat} (h : j ∈ shiftIndices nfds i) : j ≤ nfds := by
  simp only [shiftIndices, List.mem_flatMap, List.mem_range'_1, List.mem_cons, List.not_mem_nil,
    or_false] at h
  obtain ⟨k, hk, hj⟩ := h
  omega

theorem mem_compressIndices {fds : Nat → PollFd} {nfds i j : Nat}
    (h : j ∈ compressIndices fds nfds i)
    : j < nfds ∨ j = nfds ∧ ∃ k < nfds, (fds k).fd = -1 := by
  induction fds, nfds, i using compressIndices.induct with
  | case1 fds nfds i hi hdead ih =>
    rw [compressIndices, if_pos hi, if_pos hdead] at h
    simp only [List.cons_append, List.mem_cons, List.mem_append] at h
    rcases h with rfl | h | h
    . exact .inl hi
    . have := mem_shiftIndices h
      by_cases hj : j < nfds
      . exact .inl hj
      . exact .inr ⟨by omega, i, hi, hdead⟩
    . have := ih h
      left
      omega
  | case2 fds nfds i hi hdead ih =>
    rw [compressIndices, if_pos hi, if_neg hdead] at h
    cases List.mem_cons.mp h with
    | inl hj => exact .inl (by omega)
    | inr h => exact ih h
  | case3 fds nfds i hi =>
    rw [compressIndices, if_neg hi] at h
    simp at h

theorem nfds_mem_compressIndices {fds : Nat → PollFd} {nfds i k : Nat} (hik : i ≤ k) (hk : k < nfds)
    (hdead : (fds k).fd = -1)
    : nfds ∈ compressIndices fds nfds i := by
  induction fds, nfds, i using compressIndices.induct with
  | case1 fds nfds i hi hfirst ih =>
    rw [compressIndices, if_pos hi, if_pos hfirst]
    simp only [List.cons_append, List.mem_cons, List.mem_append]
    right
    left
    simp only [shiftIndices, List.mem_flatMap, List.mem_range'_1, List.mem_cons, List.not_mem_nil,
      or_false]
    exact ⟨nfds - 1, by omega, by omega⟩
  | case2 fds nfds i hi hlive ih =>
    rw [compressIndices, if_pos hi, if_neg hlive]
    have hne : i ≠ k := by
      rintro rfl
      exact hlive hdead
    exact List.mem_cons_of_mem _ (ih (by omega) hk hdead)
  | case3 fds nfds i hi => omega

theorem compressFrom_le (fds : Nat → PollFd) (nfds i : Nat)
    : (compressFrom fds nfds i).2 ≤ nfds := by
  refine compressFrom_invariant (I := fun _ n => n ≤ nfds) ?_ (Nat.le_refl nfds) i
  intro _ n _ hn _ _
  omega

structure Bounded (listenSd : Int) (s : PollServer) : Prop where
  sound : s.Sound listenSd
  records : s.Records (fun _ fdsIndex => fdsIndex < fdsSize)
  nfds : s.nfds ≤ fdsSize

theorem Bounded.step (hlisten : 0 ≤ listenSd) (h : s.Bounded listenSd) (hg : Roomy s l)
    (ht : PollServer.step listenSd s l = some t)
    : t.Bounded listenSd := by
  obtain ⟨hsound, hrecords, hnfds⟩ := h
  constructor
  . exact hsound.step hlisten hg.1 ht
  . apply hrecords.step hg.1 _ ht
    intro i currentSize k hpc _
    obtain ⟨hi, hsize, -⟩ := hsound.at_recv hpc
    omega
  . cases step_cases ht with
    | accepted hpc hsd => exact hg.2.1 _ _ _ hpc rfl hsd
    | compressed hpc => exact Nat.le_trans (compressFrom_le _ _ _) hnfds
    | _ => exact hnfds

theorem bounded_of_reachBy (hlisten : 0 ≤ listenSd) (h : (machine listenSd).ReachBy Roomy s)
    : s.Bounded listenSd := by
  apply Machine.ReachBy.invariant _ _ h
  . rintro s rfl
    exact ⟨.init hlisten, .init _ _, by simp [initial, fdsSize]⟩
  . intro s l t hs hg ht
    exact hs.step hlisten hg ht

theorem Bounded.uses_lt (h : s.Bounded listenSd) (hroom : HasRoom s l) (huses : s.Uses l j)
    : j < fdsSize := by
  have hnfds := h.nfds
  cases huses with
  | poll hj => omega
  | checkClosedSessions hpc hc => exact h.records.qclientsClose _ hc
  | scan hpc hi =>
    have hsize := h.sound.at_scan hpc
    omega
  | accept hpc hsd => exact hroom.1 _ _ _ hpc rfl hsd
  | recv hpc =>
    obtain ⟨hi, hsize, -⟩ := h.sound.at_recv hpc
    omega
  | compress hpc hcompress hj =>
    rcases mem_compressIndices hj with hj | ⟨rfl, hdead⟩
    . omega
    . exact hroom.2 hpc rfl hcompress hdead

theorem hasRoom_of_uses_lt (h : ∀ j, s.Uses l j → j < fdsSize) : HasRoom s l := by
  constructor
  . rintro i currentSize newSd hpc rfl hsd
    exact h _ (.accept hpc hsd)
  . rintro hpc rfl hcompress ⟨i, hi, hdead⟩
    exact h _ (.compress hpc hcompress (nfds_mem_compressIndices (Nat.zero_le i) hi hdead))

theorem uses_lt_iff (listenSd : Int) (hlisten : 0 ≤ listenSd)
    : ∀ s, (machine listenSd).ReachBy Roomy s →
        s.nfds ≤ fdsSize
          ∧ ∀ l, (∀ j, s.Uses l j → j < fdsSize) ↔ HasRoom s l := by
  intro s hs
  have hbounded := bounded_of_reachBy hlisten hs
  refine ⟨hbounded.nfds, ?_⟩
  intro l
  exact ⟨hasRoom_of_uses_lt, fun hroom j huses => hbounded.uses_lt hroom huses⟩

def listenFirst : List Label :=
  [.poll 1 false (fun i => if i = 0 then pollIn else 0), .checkClosedSessions, .scan]

theorem uses_lt_iff_listenFirst
    : ∃ s, (machine 3).run (initial 3) listenFirst = some s ∧ s.pc = .accept 0 1
        ∧ ∀ j, s.Uses (.accept 5) j → j < fdsSize := by
  obtain ⟨s, hs, hpc, hnfds⟩ : ∃ s, (machine 3).run (initial 3) listenFirst = some s
      ∧ s.pc = .accept 0 1 ∧ s.nfds = 1 := ⟨_, rfl, rfl, rfl⟩
  refine ⟨s, hs, hpc, ((uses_lt_iff 3 (by decide) s ?_).2 _).mpr ?_⟩
  . refine Machine.ReachBy.run (.init rfl) listenFirst ?_ hs
    intro l hl s
    refine ⟨?_, ?_, ?_⟩
    . rintro c rfl
      simp [listenFirst] at hl
    . rintro i currentSize newSd - rfl
      simp [listenFirst] at hl
    . rintro - rfl
      simp [listenFirst] at hl
  . constructor
    . intro _ _ _ _ _ _
      simp [hnfds, fdsSize]
    . intro hcompress
      simp [hpc] at hcompress

theorem exists_step_accept (listenSd newSd : Int) (hpc : s.pc = .accept i currentSize)
    (hsd : 0 < newSd) (hfree : s.sockets newSd = none)
    : ∃ t, step listenSd s (.accept newSd) = some t ∧ t.pc = s.pc ∧ t.nfds = s.nfds + 1
        ∧ ∀ n, n ≠ newSd → t.sockets n = s.sockets n := by
  have hnonneg : ¬ newSd < 0 := by omega
  have hne : newSd ≠ 0 := by omega
  simp only [step, hpc, accept, hnonneg, hfree, hne, if_true, if_false, Option.some.injEq,
    exists_eq_left']
  refine ⟨trivial, trivial, ?_⟩
  intro n hn
  exact Function.update_of_ne hn _ _

theorem exists_accepted (k : Nat)
    : ∃ s, (machine 3).Reachable s ∧ s.pc = .accept 0 1 ∧ s.nfds = k + 1
        ∧ ∀ n, 5 + k ≤ n → s.sockets n = none := by
  induction k with
  | zero =>
    obtain ⟨s, hs, hpc, hnfds, hsockets⟩ : ∃ s, (machine 3).run (initial 3) listenFirst = some s
        ∧ s.pc = .accept 0 1 ∧ s.nfds = 1
        ∧ ∀ n, s.sockets n = if n ∈ [] then none else if n = 3 then some .listener else none :=
      ⟨_, rfl, rfl, rfl, fun _ => rfl⟩
    refine ⟨s, Machine.Reachable.run (.init rfl) listenFirst hs, hpc, hnfds, ?_⟩
    intro n hn
    rw [hsockets, if_neg (by simp), if_neg (by omega)]
  | succ k ih =>
    obtain ⟨s, hs, hpc, hnfds, hfree⟩ := ih
    obtain ⟨t, ht, hpc', hnfds', hsockets⟩ :=
      exists_step_accept 3 (5 + k) hpc (by omega) (hfree (5 + k) (by omega))
    have ht : (machine 3).step s (.accept (5 + k)) = some t := ht
    refine ⟨t, .step hs trivial ht, by rw [hpc', hpc], by omega, ?_⟩
    intro n hn
    rw [hsockets n (by omega), hfree n (by omega)]

theorem not_uses_lt
    : ¬ ∀ s, (machine 3).Reachable s → ∀ l t, FromSessions s l → step 3 s l = some t →
        ∀ j, s.Uses l j → j < fdsSize := by
  intro h
  obtain ⟨s, hs, hpc, hnfds, hfree⟩ := exists_accepted 99999
  obtain ⟨t, ht, -⟩ := exists_step_accept 3 200000 hpc (by decide) (hfree 200000 (by decide))
  have := h s hs (.accept 200000) t nofun ht _ (.accept hpc (by decide))
  simp [hnfds, fdsSize] at this

end PollServer
