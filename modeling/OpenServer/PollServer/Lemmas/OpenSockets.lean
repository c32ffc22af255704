import OpenServer.PollServer.Lemmas.Sound

/-!
This module shows that the table is exactly the set of open sockets, as long as `accept` gives only
positive descriptors: every call is on a descriptor that is open and in the table.
-/

namespace PollServer

variable {listenSd : Int} {s t : PollServer}

def Accepted (s : PollServer) (l : Label) : Prop :=
  l ≠ .accept 0 ∧ FromSessions s l

theorem accepted_of_mem {ls : List Label} (haccept : .accept 0 ∉ ls)
    (hrequest : ∀ c, .requestClose c ∉ ls) (hl : l ∈ ls)
    : Accepted s l := by
  constructor
  . rintro rfl
    exact haccept hl
  . rintro c rfl
    exact absurd hl (hrequest c)

def Covered (s : PollServer) : Prop :=
  Covers s.sockets s.fds s.nfds

theorem Covered.step (hsound : s.Sound listenSd) (h : s.Covered) (hg : l ≠ .accept 0)
    (ht : PollServer.step listenSd s l = some t)
    : t.Covered := by
  cases step_cases ht with
  | polled hpc hrc hreported => exact Covers.setRevents h _
  | checked hpc => exact Covers.closeSessions h
  | @unexpected i currentSize hpc hi hrevents hin =>
    by_cases hpos : (s.fds i).fd > 0
    . simp only [Covered, closeIfPositive, if_pos hpos]
      exact Covers.close h rfl _
    . simp only [Covered, closeIfPositive, if_neg hpos]
      have hclosed : closeAll s.sockets [] = s.sockets := by
        funext n
        simp [closeAll]
      rw [hclosed]
      exact Covers.clear h i
  | acceptZero hpc hfree => exact absurd rfl hg
  | accepted hpc hsd hfree => exact Covers.accept h hsd
  | received hpc hsocket => exact h
  | recvEnded hpc hresult =>
    simp only [Covered, closeConn, closeIfPositive, if_pos (hsound.recv_pos hpc)]
    exact Covers.close h rfl _
  | compressed hpc hcompress => exact Covers.compress h
  | _ => exact h

def Open (s : PollServer) (k : Nat) : Prop :=
  ∃ n, s.sockets n = some (.connection k)

theorem step_opened (h : step listenSd s l = some t)
    : (t.nextConnection = s.nextConnection ∧ ∀ n, t.sockets n = s.sockets n ∨ t.sockets n = none)
        ∨ ∃ n, s.sockets n = none ∧ t.nextConnection = s.nextConnection + 1
          ∧ t.sockets = Function.update s.sockets n (some (.connection s.nextConnection)) := by
  have hclosed : ∀ closed n, closeAll s.sockets closed n = s.sockets n
      ∨ closeAll s.sockets closed n = none := by
    intro closed n
    unfold closeAll
    split
    . exact .inr rfl
    . exact .inl rfl
  cases step_cases h with
  | checked hpc => exact .inl ⟨rfl, hclosed _⟩
  | unexpected hpc => exact .inl ⟨rfl, hclosed _⟩
  | recvEnded hpc => exact .inl ⟨rfl, hclosed _⟩
  | acceptZero hpc hfree => exact .inr ⟨0, hfree, rfl, rfl⟩
  | accepted hpc hsd hfree => exact .inr ⟨_, hfree, rfl, rfl⟩
  | _ => exact .inl ⟨rfl, fun n => .inl rfl⟩

structure Numbered (s : PollServer) : Prop where
  lt : ∀ n k, s.sockets n = some (.connection k) → k < s.nextConnection
  inj : ∀ n m k, s.sockets n = some (.connection k) → s.sockets m = some (.connection k) → n = m

theorem step_connections (h : step listenSd s l = some t)
    : s.nextConnection ≤ t.nextConnection
        ∧ ∃ newSd, ∀ n k, t.sockets n = some (.connection k) →
          s.sockets n = some (.connection k)
            ∨ n = newSd ∧ k = s.nextConnection ∧ k < t.nextConnection := by
  obtain ⟨hnext, hsockets⟩ | ⟨newSd, hfree, hnext, hsockets⟩ := step_opened h
  . refine ⟨by omega, 0, ?_⟩
    intro n k hk
    cases hsockets n with
    | inl hsame => exact .inl (by rw [← hsame, hk])
    | inr hnone => simp [hnone] at hk
  . refine ⟨by omega, newSd, ?_⟩
    intro n k hk
    rw [hsockets] at hk
    by_cases hn : n = newSd
    . subst hn
      simp only [Function.update_self, Option.some.injEq, Endpoint.connection.injEq] at hk
      exact .inr ⟨rfl, hk.symm, by omega⟩
    . rw [Function.update_of_ne hn] at hk
      exact .inl hk

theorem Numbered.step (h : s.Numbered) (ht : PollServer.step listenSd s l = some t)
    : t.Numbered := by
  obtain ⟨hnext, newSd, hold⟩ := step_connections ht
  constructor
  . intro n k hk
    rcases hold n k hk with hk | ⟨-, -, hlt⟩
    . exact Nat.lt_of_lt_of_le (h.lt n k hk) hnext
    . exact hlt
  . intro n m k hn hm
    rcases hold n k hn with hn | ⟨hnew, hk, -⟩
    . rcases hold m k hm with hm | ⟨-, hk, -⟩
      . exact h.inj n m k hn hm
      . exact absurd (h.lt n k hn) (by omega)
    . rcases hold m k hm with hm | ⟨hnew', -, -⟩
      . exact absurd (h.lt m k hm) (by omega)
      . rw [hnew, hnew']

inductive Calls (listenSd : Int) (s : PollServer) : Label → Int → Prop where
  | close : Closes s l n → Calls listenSd s l n
  | recv : s.pc = .recv i currentSize → Calls listenSd s (.recv result) (s.fds i).fd
  | accept : s.pc = .accept i currentSize → Calls listenSd s (.accept newSd) listenSd

theorem Sound.calls (hlisten : 0 ≤ listenSd) (h : s.Sound listenSd) (hcalls : Calls listenSd s l n)
    : s.sockets n ≠ none ∧ ∃ i < s.nfds, (s.fds i).fd = n := by
  suffices hslot : n ≠ -1 ∧ ∃ i < s.nfds, (s.fds i).fd = n by
    obtain ⟨hlive, i, hi, hfd⟩ := hslot
    exact ⟨hfd ▸ h.tracks.opened i hi (by omega), i, hi, hfd⟩
  have hrecv : ∀ {i currentSize}, s.pc = .recv i currentSize → n ∈ closeIfPositive (s.fds i).fd →
      n ≠ -1 ∧ ∃ i < s.nfds, (s.fds i).fd = n := by
    intro i currentSize hpc hmem
    obtain ⟨hi, hsize, -⟩ := h.at_recv hpc
    obtain ⟨hpos, hfd⟩ := mem_closeIfPositive.mp hmem
    exact ⟨by omega, i, by omega, hfd.symm⟩
  cases hcalls with
  | close hclose =>
    unfold Closes at hclose
    split at hclose
    . obtain ⟨hpos, hslot⟩ := (closeSessions_closed h.tracks h.qclientsClose_pos).2 n hclose
      exact ⟨by omega, hslot⟩
    . next i currentSize hpc =>
      obtain ⟨hi, -, -, hmem⟩ := hclose
      obtain ⟨hpos, hfd⟩ := mem_closeIfPositive.mp hmem
      exact ⟨by omega, i, Nat.lt_of_lt_of_le hi (h.at_scan hpc), hfd.symm⟩
    . next i currentSize hpc => exact hrecv hpc hclose
    . next i currentSize hpc => exact hrecv hpc hclose
    . cases hclose
  | @recv i currentSize result hpc =>
    obtain ⟨hi, hsize, -, hlive⟩ := h.at_recv hpc
    exact ⟨hlive, i, by omega, rfl⟩
  | @accept i currentSize newSd hpc =>
    obtain ⟨hi, hsize, hfd⟩ := h.at_accept hpc
    exact ⟨by omega, i, by omega, hfd⟩

theorem Numbered.not_open_of_closes (h : s.Numbered) (ht : PollServer.step listenSd s l = some t)
    (hclose : Closes s l n) (hn : s.sockets n = some (.connection k))
    : ¬ t.Open k := by
  have hclosed : t.sockets n = none := by
    obtain ⟨-, hnone⟩ | ⟨hkept, -⟩ := step_sockets ht n
    . exact hnone
    . exact absurd hclose hkept
  rintro ⟨m, hm⟩
  obtain ⟨-, hsockets⟩ | ⟨newSd, hfree, -, hsockets⟩ := step_opened ht
  . cases hsockets m with
    | inl hsame =>
      rw [hsame] at hm
      have := h.inj m n k hm hn
      rw [← hsame, this, hclosed] at hm
      cases hm
    | inr hnone => simp [hnone] at hm
  . have hne : n ≠ newSd := by
      rintro rfl
      simp [hfree] at hn
    rw [hsockets, Function.update_of_ne hne, hn] at hclosed
    cases hclosed

theorem not_open_of_not_open (ht : step listenSd s l = some t) (hk : k < s.nextConnection)
    (hclosed : ¬ s.Open k)
    : k < t.nextConnection ∧ ¬ t.Open k := by
  obtain ⟨hnext, newSd, hold⟩ := step_connections ht
  refine ⟨by omega, ?_⟩
  rintro ⟨n, hn⟩
  rcases hold n k hn with hn | ⟨-, hnew, -⟩
  . exact hclosed ⟨n, hn⟩
  . omega

structure Exact (listenSd : Int) (s : PollServer) : Prop where
  sound : s.Sound listenSd
  covered : s.Covered
  numbered : s.Numbered

theorem exact_of_reachBy (hlisten : 0 < listenSd) (h : (machine listenSd).ReachBy Accepted s)
    : s.Exact listenSd := by
  apply Machine.ReachBy.invariant _ _ h
  . rintro s rfl
    constructor
    . exact .init (by omega)
    . intro n hn
      by_cases hlisten' : n = listenSd
      . subst hlisten'
        exact ⟨by omega, 0, Nat.one_pos, rfl⟩
      . simp [initial, hlisten'] at hn
    . constructor <;> simp [initial]
  . intro s l t hs hg ht
    constructor
    . exact hs.sound.step (by omega) hg.2 ht
    . exact hs.covered.step hs.sound hg.1 ht
    . exact hs.numbered.step ht

theorem table_openSockets (listenSd : Int) (hlisten : 0 < listenSd)
    : ∀ s, (machine listenSd).ReachBy Accepted s →
        (∀ i < s.nfds, ∀ j < s.nfds, 0 ≤ (s.fds i).fd → (s.fds i).fd = (s.fds j).fd → i = j)
          ∧ (∀ n, s.sockets n ≠ none ↔ 0 ≤ n ∧ ∃ i < s.nfds, (s.fds i).fd = n)
          ∧ (∀ i, (s.fds i).fd = -1 → (s.fds i).revents = 0)
          ∧ (∀ l n, Calls listenSd s l n → s.sockets n ≠ none ∧ ∃ i < s.nfds, (s.fds i).fd = n)
          ∧ (closeSessions s.fds s.qclientsClose).2.Nodup
          ∧ ∀ t l, PollServer.step listenSd s l = some t → ∀ k,
              (∀ n, Closes s l n → s.sockets n = some (.connection k) → ¬ t.Open k)
                ∧ (k < s.nextConnection → ¬ s.Open k → k < t.nextConnection ∧ ¬ t.Open k) := by
  intro s hs
  obtain ⟨hsound, hcovered, hnumbered⟩ := exact_of_reachBy hlisten hs
  refine ⟨?_, ?_, ?_, ?_, ?_, ?_⟩
  . intro i hi j hj hfd hij
    exact hsound.tracks.distinct i hi j hj hij (by omega)
  . intro n
    constructor
    . intro hn
      obtain ⟨hlive, i, hi, hfd⟩ := hcovered n hn
      have := hsound.tracks.numbers i hi
      exact ⟨by omega, i, hi, hfd⟩
    . rintro ⟨hn, i, hi, rfl⟩
      exact hsound.tracks.opened i hi (by omega)
  . intro i hdead
    by_cases hi : i < s.nfds
    . exact hsound.tracks.quiet i hi hdead
    . rw [hsound.tracks.unused i (by omega)]
  . intro l n hcalls
    exact hsound.calls (by omega) hcalls
  . exact (closeSessions_closed hsound.tracks hsound.qclientsClose_pos).1
  . intro t l ht k
    constructor
    . intro n hclose hn
      exact hnumbered.not_open_of_closes ht hclose hn
    . exact not_open_of_not_open ht

theorem table_openSockets_acceptThenRead
    : 0 < (3 : Int) ∧ ∃ s, (machine 3).run (initial 3) acceptThenRead = some s
        ∧ s.sockets 5 ≠ none ∧ ∃ i < s.nfds, (s.fds i).fd = 5 := by
  obtain ⟨s, hs, hopen⟩ : ∃ s, (machine 3).run (initial 3) acceptThenRead = some s
      ∧ s.sockets 5 ≠ none := ⟨_, rfl, nofun⟩
  have hreach : (machine 3).ReachBy Accepted s := by
    refine Machine.ReachBy.run (.init rfl) acceptThenRead ?_ hs
    intro l hl s
    exact accepted_of_mem (by simp [acceptThenRead]) (by simp [acceptThenRead]) hl
  have htable := table_openSockets 3 (by decide) s hreach
  exact ⟨by decide, s, hs, hopen, ((htable.2.1 5).mp hopen).2⟩

end PollServer
