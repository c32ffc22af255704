import OpenServer.PollServer.Lemmas.Compaction
import OpenServer.PollServer.Lemmas.PartialRequests
import OpenServer.Transition.History
import OpenServer.Transition.Measure

/-!
This module shows what one pass of the serving loop does with a report of `poll`: it takes up every
descriptor with events once, in the order of the table, and ends once `accept` and `recv` run dry.
-/

namespace PollServer

variable {listenSd : Int} {s t : PollServer} {slots : List PollFd}

inductive Taken where
  | closed
  | accepted
  | received
  deriving DecidableEq, Repr

-- `slots` is the table that the pass found, `taken` what it has done with which slots. `current` is the
-- slot that it is still calling `accept` or `recv` for.
structure Pass where
  slots : List PollFd := []
  taken : List (PollFd × Nat × Taken) := []
  current : Option Nat := none

namespace Pass

def take (past : Pass) (slot : PollFd) (i : Nat) (how : Taken) : Pass :=
  { past with taken := past.taken ++ [(slot, i, how)] }

-- One more call for the slot, which `goesOn` says is not the last.
def call (past : Pass) (slot : PollFd) (i : Nat) (how : Taken) (goesOn : Bool) : Pass :=
  let past := if past.current = some i then past else past.take slot i how
  { past with current := if goesOn then some i else none }

end Pass

-- A slot is taken up by what is done: `accept` or `recv` is called for it, or it is closed.
def pass : History PollServer Label Pass where
  start := {}
  extend past s l t :=
    match l, s.pc with
    | .checkClosedSessions, _ => { slots := table t.fds t.nfds }
    | .scan, .scan i _ => if t.fds i = s.fds i then past else past.take (s.fds i) i .closed
    | .accept _, .accept i _ => past.call (s.fds i) i .accepted (t.pc == s.pc)
    | .recv _, .recv i _ => past.call (s.fds i) i .received (t.pc == s.pc)
    | _, _ => past

def hasEvents (slot : PollFd × Nat) : Bool :=
  slot.1.revents != 0

-- What the events of a slot ask for.
def wants (listenSd : Int) (slot : PollFd) : Taken :=
  if slot.revents &&& pollIn = 0 then .closed
  else if slot.fd = listenSd then .accepted
  else .received

-- The slots with events among the first `k`, each with what it asks for.
def due (listenSd : Int) (slots : List PollFd) (k : Nat) : List (PollFd × Nat × Taken) :=
  ((slots.take k).zipIdx.filter hasEvents).map fun (slot, i) => (slot, i, wants listenSd slot)

-- The pass has come to slot `i`, and the slots from there on are as it found them.
structure Reached (s : PollServer) (slots : List PollFd) (i currentSize : Nat) : Prop where
  size : slots.length = currentSize
  le : currentSize ≤ s.nfds
  untouched : ∀ j, i ≤ j → j < currentSize → slots[j]? = some (s.fds j)

-- What has been taken up when the pass is at slot `i` and may have begun to call for it.
def TakenUpTo (listenSd : Int) (past : Pass) (i : Nat) : Prop :=
  past.current = none ∧ past.taken = due listenSd past.slots i
    ∨ past.current = some i ∧ past.taken = due listenSd past.slots (i + 1)

structure Calling (listenSd : Int) (s : PollServer) (past : Pass) (i currentSize : Nat) (how : Taken)
    : Prop where
  reached : s.Reached past.slots i currentSize
  lt : i < currentSize
  readable : (s.fds i).revents &&& pollIn ≠ 0
  wants : PollServer.wants listenSd (s.fds i) = how
  taken : TakenUpTo listenSd past i

def Serves (listenSd : Int) (s : PollServer) (past : Pass) : Prop :=
  match s.pc with
  | .scan i currentSize =>
    s.Reached past.slots i currentSize ∧ past.current = none ∧ past.taken = due listenSd past.slots i
  | .accept i currentSize => Calling listenSd s past i currentSize .accepted
  | .recv i currentSize => Calling listenSd s past i currentSize .received
  | .compress => past.taken = due listenSd past.slots past.slots.length
  | _ => True

theorem due_succ (h : slots[i]? = some slot)
    : due listenSd slots (i + 1)
        =
      due listenSd slots i
        ++ if slot.revents ≠ 0 then [(slot, i, wants listenSd slot)] else [] := by
  have hi : i < slots.length := (List.getElem?_eq_some_iff.mp h).1
  have hmin : min i slots.length = i := by omega
  unfold due
  rw [List.take_add_one, h, List.zipIdx_append, List.filter_append, List.map_append]
  congr 1
  rw [List.length_take, hmin, Option.toList_some, List.zipIdx_singleton, Nat.zero_add]
  by_cases hrevents : slot.revents = 0
  . simp [hasEvents, hrevents]
  . have hevents : hasEvents (slot, i) := by simpa [hasEvents] using hrevents
    rw [if_pos hrevents]
    simp [hevents]

theorem due_of_le (h : slots.length ≤ k) : due listenSd slots k = due listenSd slots slots.length := by
  rw [due, due, List.take_of_length_le h, List.take_length]

theorem revents_ne_zero {slot : PollFd} (h : slot.revents &&& pollIn ≠ 0) : slot.revents ≠ 0 := by
  intro hzero
  simp [hzero] at h

namespace Reached

theorem same (h : s.Reached slots i currentSize) (hfds : t.fds = s.fds) (hnfds : t.nfds = s.nfds)
    : t.Reached slots i currentSize := by
  refine ⟨h.size, by rw [hnfds]; exact h.le, ?_⟩
  rw [hfds]
  exact h.untouched

theorem next (h : s.Reached slots i currentSize) (hfds : ∀ j, i < j → t.fds j = s.fds j)
    (hnfds : t.nfds = s.nfds)
    : t.Reached slots (i + 1) currentSize := by
  refine ⟨h.size, by rw [hnfds]; exact h.le, ?_⟩
  intro j hij hj
  rw [hfds j hij]
  apply h.untouched j (by omega) hj

theorem slot (h : s.Reached slots i currentSize) (hi : i < currentSize) : slots[i]? = some (s.fds i) :=
  h.untouched i (Nat.le_refl i) hi

end Reached

namespace Calling

variable {past : Pass}

theorem same (h : Calling listenSd s past i currentSize how) (hfds : t.fds i = s.fds i)
    (hreached : t.Reached past.slots i currentSize)
    : Calling listenSd t past i currentSize how := by
  refine ⟨hreached, h.lt, ?_, ?_, h.taken⟩
  . rw [hfds]
    exact h.readable
  . rw [hfds]
    exact h.wants

theorem call_taken (h : Calling listenSd s past i currentSize how) (goesOn : Bool)
    : (past.call (s.fds i) i how goesOn).taken = due listenSd past.slots (i + 1) := by
  unfold Pass.call
  rcases h.taken with ⟨hnone, htaken⟩ | ⟨hcurrent, htaken⟩
  . rw [due_succ (h.reached.slot h.lt), if_pos (revents_ne_zero h.readable), h.wants]
    simp [hnone, Pass.take, htaken]
  . simp [hcurrent, htaken]

theorem call_slots (past : Pass) (slot : PollFd) (i : Nat) (how : Taken) (goesOn : Bool)
    : (past.call slot i how goesOn).slots = past.slots := by
  unfold Pass.call
  dsimp only
  split <;> rfl

-- The slot takes one more call.
theorem goOn (h : Calling listenSd s past i currentSize how) (hfds : t.fds i = s.fds i)
    (hreached : t.Reached past.slots i currentSize)
    : Calling listenSd t (past.call (s.fds i) i how true) i currentSize how := by
  have hslots := call_slots past (s.fds i) i how true
  refine ⟨by rwa [hslots], h.lt, ?_, ?_, .inr ⟨rfl, ?_⟩⟩
  . rw [hfds]
    exact h.readable
  . rw [hfds]
    exact h.wants
  . rw [hslots]
    exact h.call_taken true

-- The last call for the slot.
theorem leave (h : Calling listenSd s past i currentSize how) (hpc : t.pc = .scan (i + 1) currentSize)
    (hreached : t.Reached past.slots (i + 1) currentSize)
    : Serves listenSd t (past.call (s.fds i) i how false) := by
  have hslots := call_slots past (s.fds i) i how false
  simp only [Serves, hpc]
  refine ⟨by rwa [hslots], rfl, ?_⟩
  rw [hslots]
  exact h.call_taken false

end Calling

theorem Serves.same (h : Serves listenSd s past) (hpc : t.pc = s.pc) (hfds : t.fds = s.fds)
    (hnfds : t.nfds = s.nfds)
    : Serves listenSd t past := by
  unfold Serves at h ⊢
  rw [hpc]
  split
  . next hscan =>
    rw [hscan] at h
    exact ⟨h.1.same hfds hnfds, h.2⟩
  . next haccept =>
    rw [haccept] at h
    exact h.same (by rw [hfds]) (h.reached.same hfds hnfds)
  . next hrecv =>
    rw [hrecv] at h
    exact h.same (by rw [hfds]) (h.reached.same hfds hnfds)
  . next hcompress =>
    rw [hcompress] at h
    exact h
  . trivial

theorem Serves.accepting (h : Serves listenSd s past) (hpc : s.pc = .accept i currentSize)
    : Calling listenSd s past i currentSize .accepted := by
  simpa only [Serves, hpc] using h

theorem Serves.receiving (h : Serves listenSd s past) (hpc : s.pc = .recv i currentSize)
    : Calling listenSd s past i currentSize .received := by
  simpa only [Serves, hpc] using h

theorem Serves.scan (h : Serves listenSd s past) (hpc : s.pc = .scan i currentSize)
    (ht : Stepped listenSd s .scan t)
    : Serves listenSd t (pass.extend past s .scan t) := by
  simp only [Serves, hpc] at h
  obtain ⟨hreached, hcurrent, htaken⟩ := h
  cases ht with
  | quiet hpc' hi hquiet =>
    obtain ⟨rfl, rfl⟩ : _ ∧ _ := by simpa [hpc] using hpc'
    simp only [pass, hpc, ↓reduceIte]
    refine ⟨hreached.next (fun _ _ => rfl) rfl, hcurrent, ?_⟩
    rw [due_succ (hreached.slot hi), htaken]
    simp [hquiet]
  | unexpected hpc' hi hrevents hin =>
    obtain ⟨rfl, rfl⟩ : _ ∧ _ := by simpa [hpc] using hpc'
    have hchanged : ¬ Function.update s.fds i
        { s.fds i with fd := if (s.fds i).fd > 0 then -1 else (s.fds i).fd, revents := 0 } i
          = s.fds i := by
      intro heq
      apply hrevents
      rw [← heq, Function.update_self]
    simp only [pass, hpc, if_neg hchanged]
    refine ⟨hreached.next ?_ rfl, hcurrent, ?_⟩
    . intro j hj
      apply Function.update_of_ne (by omega) _ _
    . change past.taken ++ _ = due listenSd past.slots (i + 1)
      rw [due_succ (hreached.slot hi), if_pos hrevents, htaken, wants, if_pos hin]
  | listening hpc' hi hin hfd =>
    obtain ⟨rfl, rfl⟩ : _ ∧ _ := by simpa [hpc] using hpc'
    simp only [pass, hpc, ↓reduceIte]
    refine ⟨hreached.same rfl rfl, hi, hin, ?_, .inl ⟨hcurrent, htaken⟩⟩
    rw [wants, if_neg hin, if_pos hfd]
  | readable hpc' hi hin hfd =>
    obtain ⟨rfl, rfl⟩ : _ ∧ _ := by simpa [hpc] using hpc'
    simp only [pass, hpc, ↓reduceIte]
    refine ⟨hreached.same rfl rfl, hi, hin, ?_, .inl ⟨hcurrent, htaken⟩⟩
    rw [wants, if_neg hin, if_neg hfd]
  | scanned hpc' hi =>
    obtain ⟨rfl, rfl⟩ : _ ∧ _ := by simpa [hpc] using hpc'
    simp only [pass, hpc, ↓reduceIte]
    change past.taken = due listenSd past.slots past.slots.length
    rw [htaken, due_of_le]
    rw [hreached.size]
    exact hi

theorem scan_beq_accept : (Pc.scan i currentSize == Pc.accept j currentSize') = false := by
  simp

theorem scan_beq_recv : (Pc.scan i currentSize == Pc.recv j currentSize') = false := by
  simp

theorem Serves.step (h : Serves listenSd s past) (ht : PollServer.step listenSd s l = some t)
    : Serves listenSd t (pass.extend past s l t) := by
  by_cases hl : ∃ i currentSize, l = .scan ∧ s.pc = .scan i currentSize
  . obtain ⟨i, currentSize, rfl, hpc⟩ := hl
    apply h.scan hpc (step_cases ht)
  cases step_cases ht with
  | pollFailed => trivial
  | polled => trivial
  | compressed => trivial
  | uncompressed => trivial
  | @checked rc einval hpc =>
    by_cases hrc : rc = 0
    . simp [Serves, hrc]
    . simp only [Serves, hrc, if_false]
      refine ⟨⟨table_length _ _, Nat.le_refl _, ?_⟩, rfl, rfl⟩
      intro j _ hj
      simp [pass, table, hj]
  | acceptFailed hpc =>
    have hcalling := h.accepting hpc
    simp only [pass, hpc, scan_beq_accept]
    exact hcalling.leave rfl (hcalling.reached.next (fun _ _ => rfl) rfl)
  | acceptZero hpc =>
    have hcalling := h.accepting hpc
    simp only [pass, hpc, scan_beq_accept]
    exact hcalling.leave rfl (hcalling.reached.next (fun _ _ => rfl) rfl)
  | @accepted i currentSize newSd hpc hsd hfree =>
    have hcalling := h.accepting hpc
    have hle := hcalling.reached.le
    -- the new slot is behind those that the pass has counted
    have hold : ∀ j < currentSize, Function.update s.fds s.nfds
        { s.fds s.nfds with fd := newSd, events := pollIn } j = s.fds j := by
      intro j hj
      apply Function.update_of_ne (by omega) _ _
    simp only [Serves, pass, hpc, beq_self_eq_true]
    apply hcalling.goOn (hold i hcalling.lt)
    refine ⟨hcalling.reached.size, Nat.le_succ_of_le hle, ?_⟩
    intro j hij hj
    dsimp only
    rw [hold j hj]
    apply hcalling.reached.untouched j hij hj
  | received hpc hsocket =>
    have hcalling := h.receiving hpc
    simp only [Serves, pass, recvData, hpc, beq_self_eq_true]
    exact hcalling.goOn rfl (hcalling.reached.same rfl rfl)
  | recvBlocked hpc =>
    have hcalling := h.receiving hpc
    simp only [pass, hpc, scan_beq_recv]
    exact hcalling.leave rfl (hcalling.reached.next (fun _ _ => rfl) rfl)
  | recvEnded hpc hresult =>
    have hcalling := h.receiving hpc
    simp only [pass, closeConn, hpc, scan_beq_recv]
    refine hcalling.leave rfl (hcalling.reached.next ?_ rfl)
    intro j hj
    apply Function.update_of_ne (by omega) _ _
  | requested => exact Serves.same h rfl rfl rfl
  | _ hpc => exact absurd ⟨_, _, rfl, hpc⟩ hl

theorem serves_of_reachable (h : ((machine listenSd).withHistory pass).Reachable (s, past))
    : Serves listenSd s past := by
  apply Machine.ReachBy.history_invariant (I := Serves listenSd) _ _ h
  . rintro _ rfl
    trivial
  . intro s past l t hs _ ht
    apply hs.step ht

-- The steps that another hands to a pass: a connection to take in, data to take in, a close to note.
def feeds : Label → Bool
  | .accept newSd => decide (0 < newSd)
  | .recv (.data _) => true
  | .requestClose _ => true
  | _ => false

def Label.isPoll : Label → Bool
  | .poll .. => true
  | _ => false

-- What is left of a pass that nothing more is handed to. A slot takes two steps at most.
def stepsLeft (s : PollServer) : Nat :=
  match s.pc with
  | .poll => 0
  | .checkClosedSessions _ _ => 2 * s.nfds + 3
  | .scan i currentSize => 2 * (currentSize - i) + 2
  | .accept i currentSize | .recv i currentSize => 2 * (currentSize - i) + 1
  | .compress => 1

-- `accept` and `recv` are only called for a slot that the pass has counted.
theorem lt_of_reachable (h : (machine listenSd).Reachable s)
    (hpc : s.pc = .accept i currentSize ∨ s.pc = .recv i currentSize)
    : i < currentSize := by
  obtain ⟨past, hpast⟩ := h.remember pass
  have hserves := serves_of_reachable hpast
  rcases hpc with hpc | hpc
  . exact (hserves.accepting hpc).lt
  . exact (hserves.receiving hpc).lt

theorem stepsLeft_step (h : (machine listenSd).Reachable s) (hl : ¬ l.isPoll)
    (ht : PollServer.step listenSd s l = some t)
    : t.stepsLeft + 1 ≤ s.stepsLeft + if feeds l then 1 else 0 := by
  cases step_cases ht with
  | pollFailed => simp [Label.isPoll] at hl
  | polled => simp [Label.isPoll] at hl
  | @checked rc einval hpc =>
    by_cases hrc : rc = 0
    . simp [stepsLeft, feeds, hpc, hrc]
    . simp [stepsLeft, feeds, hpc, hrc]
  | quiet hpc hi =>
    simp only [stepsLeft, hpc]
    omega
  | unexpected hpc hi =>
    simp only [stepsLeft, hpc]
    omega
  | listening hpc =>
    simp only [stepsLeft, hpc]
    omega
  | readable hpc =>
    simp only [stepsLeft, hpc]
    omega
  | scanned hpc =>
    simp only [stepsLeft, hpc]
    omega
  | acceptFailed hpc =>
    have hi := lt_of_reachable h (.inl hpc)
    simp only [stepsLeft, hpc]
    omega
  | acceptZero hpc =>
    have hi := lt_of_reachable h (.inl hpc)
    simp only [stepsLeft, hpc]
    omega
  | accepted hpc hsd =>
    simp [stepsLeft, feeds, hpc, hsd]
  | received hpc =>
    simp [stepsLeft, feeds, hpc, recvData]
  | recvBlocked hpc =>
    have hi := lt_of_reachable h (.inr hpc)
    simp only [stepsLeft, hpc]
    omega
  | recvEnded hpc =>
    have hi := lt_of_reachable h (.inr hpc)
    simp only [stepsLeft, closeConn, hpc]
    omega
  | compressed hpc => simp [stepsLeft, hpc]
  | uncompressed hpc => simp [stepsLeft, hpc]
  | requested => simp [stepsLeft, feeds]

-- A pass goes on with nothing handed to it: `accept` and `recv` may always say that there is no more.
theorem exists_step (listenSd : Int) (s : PollServer) (hpc : s.pc ≠ .poll)
    : ∃ l t, ¬ l.isPoll ∧ ¬ feeds l ∧ step listenSd s l = some t := by
  cases hs : s.pc with
  | poll => exact absurd hs hpc
  | checkClosedSessions rc einval =>
    exact ⟨.checkClosedSessions, _, by simp [Label.isPoll], by simp [feeds],
      by simp only [step, hs]; rfl⟩
  | scan i currentSize =>
    exact ⟨.scan, _, by simp [Label.isPoll], by simp [feeds], by simp only [step, hs]; rfl⟩
  | accept i currentSize =>
    exact ⟨.accept (-1), _, by simp [Label.isPoll], by simp [feeds], by simp only [step, hs]; rfl⟩
  | recv i currentSize =>
    exact ⟨.recv .wouldBlock, _, by simp [Label.isPoll], by simp [feeds],
      by simp only [step, hs]; rfl⟩
  | compress =>
    refine ⟨.compress, ?_⟩
    simp only [step, hs]
    split
    . exact ⟨_, by simp [Label.isPoll], by simp [feeds], rfl⟩
    . exact ⟨_, by simp [Label.isPoll], by simp [feeds], rfl⟩

theorem pass_ends (listenSd : Int)
    : ∀ s, (machine listenSd).Reachable s →
        (∀ labels t, (∀ l ∈ labels, ¬ l.isPoll) → (machine listenSd).run s labels = some t →
            t.stepsLeft + labels.length ≤ s.stepsLeft + labels.countP feeds)
          ∧ (s.pc ≠ .poll →
              ∃ l t, ¬ l.isPoll ∧ ¬ feeds l ∧ step listenSd s l = some t) := by
  intro s hs
  constructor
  . intro labels t hlabels ht
    apply Machine.length_le_of_measure (I := (machine listenSd).Reachable) _ _ labels hs hlabels ht
    . intro s l t hs _ ht
      exact .step hs trivial ht
    . intro s l t hs hl ht
      apply stepsLeft_step hs hl ht
  . apply exists_step listenSd s

theorem pass_ends_acceptOne
    : ∃ s t, (machine 3).run (initial 3) (acceptThenRead.take 2) = some s ∧ s.pc = .scan 0 1
        ∧ (machine 3).run s [.scan, .accept 5, .accept (-1), .scan, .compress] = some t
        ∧ t.stepsLeft + 5 ≤ s.stepsLeft + 1
        ∧ ∃ l u, ¬ l.isPoll ∧ ¬ feeds l ∧ step 3 s l = some u := by
  obtain ⟨s, hs, hpc⟩ : ∃ s, (machine 3).run (initial 3) (acceptThenRead.take 2) = some s
      ∧ s.pc = .scan 0 1 := ⟨_, rfl, rfl⟩
  obtain ⟨t, ht⟩ : ∃ t, (machine 3).run (initial 3)
      (acceptThenRead.take 2 ++ [.scan, .accept 5, .accept (-1), .scan, .compress]) = some t :=
    ⟨_, rfl⟩
  have hreach : (machine 3).Reachable s :=
    Machine.Reachable.run (s := initial 3) (.init rfl) (acceptThenRead.take 2) hs
  rw [Machine.run_append, hs, Option.bind_some] at ht
  have hends := pass_ends 3 s hreach
  exact ⟨s, t, hs, hpc, ht, hends.1 _ t (by simp [Label.isPoll]) ht, hends.2 (by simp [hpc])⟩

end PollServer
