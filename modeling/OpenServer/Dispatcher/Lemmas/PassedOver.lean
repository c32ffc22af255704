import OpenServer.Dispatcher.Lemmas.Thread
import OpenServer.Transition.History
import OpenServer.Transition.Visits

/-!
This module shows when a blocked session is passed over at most once between two attempts to send for
it. The flag that sends it to the back of the queue is still set when it comes to the front again.
-/

namespace HttpMessageDispatcher

open Visit

variable {qt : Qt} {log : List (Visit τ)} {t t' : Thread τ} {front : Queued τ}
  {rest : List (Queued τ)}

-- The test at the top of the loop finds the session at the front flagged and others behind it.
def Thread.passes (t : Thread τ) : Bool :=
  match t.pc, t.queue with
  | .outside, front :: _ => front.session.ewouldblockFlag && decide (t.queue.length > 1)
  | _, _ => false

-- What a step does to a session: an attempt is a call of `send`.
def Thread.visits (sh : Shared) (t t' : Thread τ) : List (Visit τ) :=
  match t.pc, t.queue with
  | .outside, front :: _ => if t.passes then [.passed front.tag] else []
  | .send totalBytes _, front :: _ =>
    if (responseData sh front.session).any (fun data => totalBytes < data.length) then
      [.tried front.tag]
    else
      []
  | .finish _ _, front :: rest =>
    if t'.queue.length = rest.length then [.left front.tag] else []
  | _, _ => []

-- How the session at the front stands. One that was just tried has not been passed over since.
def Stands (log : List (Visit τ)) (e : Queued τ) : Pc → Prop
  | .outside => e.session.ewouldblockFlag → (Waits log e.tag ↔ justLeft log)
  | .request => True
  | .finish .wouldBlock _ =>
    e.session.ewouldblockFlag = false ∧ ¬ Waits log e.tag ∧ ¬ justLeft log
  | _ => e.session.ewouldblockFlag = false

structure Thread.Turns (log : List (Visit τ)) (t : Thread τ) : Prop where
  nodup : (t.queue.map (·.tag)).Nodup
  behind : ∀ front rest, t.queue = front :: rest → ∀ e ∈ rest, e.session.ewouldblockFlag →
    Waits log e.tag
  front : ∀ front rest, t.queue = front :: rest → Stands log front t.pc

theorem Stands.unflagged (h : Stands log front pc) (houtside : pc ≠ .outside) (hrequest : pc ≠ .request)
    : front.session.ewouldblockFlag = false := by
  cases pc with
  | outside => exact absurd rfl houtside
  | request => exact absurd rfl hrequest
  | finish ending =>
    cases ending with
    | wouldBlock => exact h.1
    | _ => exact h
  | _ => exact h

theorem Stands.of_unflagged (hflag : front.session.ewouldblockFlag = false)
    (hblocked : ∀ totalBytes, pc = .finish .wouldBlock totalBytes →
      ¬ Waits log front.tag ∧ ¬ justLeft log)
    : Stands log front pc := by
  cases pc with
  | outside => simp [Stands, hflag]
  | request => trivial
  | finish ending totalBytes =>
    cases ending with
    | wouldBlock => exact ⟨hflag, hblocked totalBytes rfl⟩
    | _ => exact hflag
  | _ => exact hflag

namespace Thread

theorem passes_cases (h : t.passes)
    : t.pc = .outside ∧ ∃ front rest, t.queue = front :: rest ∧ front.session.ewouldblockFlag
        ∧ rotate t.queue = rest ++ [front] ∧ t.visits sh t' = [.passed front.tag] := by
  have hpasses := h
  unfold passes at h
  split at h
  . next front rest hpc hqueue =>
    refine ⟨hpc, front, rest, hqueue, (Bool.and_eq_true_iff.mp h).1, ?_, ?_⟩
    . rw [hqueue] at h ⊢
      exact if_pos h
    . simp only [visits, hpc, hqueue, if_pos hpasses]
  . cases h

theorem rotate_of_not_passes (hpc : t.pc = .outside) (h : ¬ t.passes) : rotate t.queue = t.queue := by
  unfold passes at h
  rw [hpc] at h
  cases hqueue : t.queue with
  | nil => rfl
  | cons front rest =>
    rw [hqueue] at h
    exact if_neg h

theorem visits_of_not_passes (hpc : t.pc = .outside) (h : ¬ t.passes) : t.visits sh t' = [] := by
  unfold visits
  rw [hpc]
  cases t.queue with
  | nil => rfl
  | cons front rest => exact if_neg h

theorem passed_notMem_visits (h : ¬ t.passes) (c : τ) : .passed c ∉ t.visits sh t' := by
  unfold visits
  split
  . simp [h]
  . split <;> simp
  . split <;> simp
  . simp

theorem visits_popped (hpc : t.pc = .finish ending totalBytes) (hqueue : t.queue = front :: rest)
    : t.visits sh { pc := pc', queue := rest } = [.left front.tag] := by
  simp [visits, hpc, hqueue]

theorem visits_kept {front' : Queued τ} (hpc : t.pc = .finish ending totalBytes)
    (hqueue : t.queue = front :: rest)
    : t.visits sh { pc := pc', queue := front' :: rest } = [] := by
  simp [visits, hpc, hqueue]

-- While a session is served it is only tried, and blocked only by a `send` that has been called.
theorem visits_serve (t' : Thread τ) (hqueue : t.queue = front :: rest)
    (hserve : serveStep qt x sh front.session t.pc = some (sh', c, pc', bytes))
    : t.visits sh t' = [] ∧ (∀ totalBytes, pc' ≠ .finish .wouldBlock totalBytes)
        ∨ t.visits sh t' = [.tried front.tag] := by
  have hstep := serveStep_cases hserve
  unfold visits
  rw [hqueue]
  generalize t.pc = pc at hstep
  cases hstep with
  | @sent data totalBytes bytesleft pc' bytes hdata hsend =>
    dsimp only
    rw [hdata]
    by_cases hlt : totalBytes < data.length
    . right
      simp [hlt]
    . left
      obtain ⟨n, -, hlt', -⟩ | ⟨ending, hpc, -, ⟨hending, -⟩ | ⟨hlt', -⟩⟩ := sendOnce_cases hsend
      . exact absurd hlt' hlt
      . simp [hlt, hpc, hending]
      . exact absurd hlt' hlt
  | _ => simp

namespace Turns

theorem start (h : t.Turns log) (hpc : t.pc = .outside)
    : Turns (log ++ t.visits sh t') { pc := .request, queue := rotate t.queue } := by
  constructor
  . exact ((rotate_perm t.queue).map _).nodup_iff.mpr h.nodup
  . by_cases hpasses : t.passes
    . obtain ⟨-, front, rest, hqueue, hflag, hrotate, hvisits⟩ := passes_cases hpasses
      rw [hvisits]
      intro next others hnext e he hblocked
      dsimp only at hnext
      rw [hrotate] at hnext
      have hmem : e ∈ rest ++ [front] := hnext ▸ List.mem_cons_of_mem next he
      rw [waits_append_iff]
      rcases List.mem_append.mp hmem with hmem | hmem
      . exact .inr ⟨h.behind front rest hqueue e hmem hblocked, by simp⟩
      . rw [List.mem_singleton.mp hmem]
        exact .inl rfl
    . dsimp only
      rw [visits_of_not_passes hpc hpasses, List.append_nil, rotate_of_not_passes hpc hpasses]
      exact h.behind
  . intro _ _ _
    trivial

theorem serve (h : t.Turns log) (hqueue : t.queue = front :: rest)
    (hserve : serveStep qt x sh front.session t.pc = some (sh', c, pc', bytes))
    : Turns (log ++ t.visits sh t') { pc := pc', queue := { front with session := c } :: rest } := by
  have hnodup := h.nodup
  rw [hqueue] at hnodup
  have houtside : t.pc ≠ .outside := by
    intro hpc
    rw [hpc] at hserve
    cases hserve
  have hflag := serveStep_ewouldblockFlag hserve
    (fun hrequest => (h.front front rest hqueue).unflagged houtside hrequest)
  have hvisits := visits_serve t' hqueue hserve
  constructor
  . simpa using hnodup
  . rintro _ _ hqueue' e he hblocked
    injection hqueue' with _ hrest
    rw [← hrest] at he
    have hwaits := h.behind front rest hqueue e he hblocked
    obtain ⟨hnone, -⟩ | htried := hvisits
    . rwa [hnone, List.append_nil]
    . rw [htried, waits_append_iff]
      refine .inr ⟨hwaits, ?_⟩
      rintro heq
      injection heq with htag
      exact tag_ne_front hnodup he htag.symm
  . rintro _ _ hqueue'
    injection hqueue' with hfront _
    rw [← hfront]
    apply Stands.of_unflagged hflag
    intro totalBytes hpc
    obtain ⟨-, hnever⟩ | htried := hvisits
    . exact absurd hpc (hnever totalBytes)
    . rw [htried]
      simp [waits_append_iff, justLeft_append_iff]

theorem popped (h : t.Turns log) (hqueue : t.queue = front :: rest)
    : Turns (log ++ [.left front.tag]) { pc := .outside, queue := rest } := by
  have hnodup := h.nodup
  rw [hqueue] at hnodup
  have hwaits : ∀ e ∈ rest, e.session.ewouldblockFlag → Waits (log ++ [.left front.tag]) e.tag := by
    intro e he hflag
    exact waits_append_iff.mpr (.inr ⟨h.behind front rest hqueue e he hflag, by simp⟩)
  constructor
  . exact hnodup.tail
  . rintro next others rfl e he hflag
    exact hwaits e (by simp [he]) hflag
  . rintro next others rfl hflag
    have hjust : justLeft (log ++ [.left front.tag]) := justLeft_append_iff.mpr ⟨front.tag, rfl⟩
    exact iff_of_true (hwaits next (by simp) hflag) hjust

theorem kept (h : t.Turns log) (hpc : t.pc = .finish ending totalBytes)
    (hqueue : t.queue = front :: rest)
    (hc : c = eraseSent (endSend front.session ending) totalBytes)
    : Turns log { pc := .outside, queue := { front with session := c } :: rest } := by
  have hnodup := h.nodup
  rw [hqueue] at hnodup
  have hfront := h.front front rest hqueue
  rw [hpc] at hfront
  constructor
  . simpa using hnodup
  . rintro _ _ hqueue' e he hflag
    injection hqueue' with _ hrest
    rw [← hrest] at he
    exact h.behind front rest hqueue e he hflag
  . rintro _ _ hqueue' hflag
    injection hqueue' with hfront' _
    rw [← hfront'] at hflag ⊢
    have hunflagged := hfront.unflagged (by simp) (by simp)
    simp only [hc, eraseSent_endSend_ewouldblockFlag, hunflagged, Bool.false_or,
      decide_eq_true_eq] at hflag
    rw [hflag] at hfront
    exact iff_of_false hfront.2.1 hfront.2.2

theorem step (h : t.Turns log) (hstep : t.step qt x sh = some (sh', t', effect))
    : t'.Turns (log ++ t.visits sh t') := by
  cases Thread.step_cases hstep with
  | start hpc hqueue => exact h.start hpc
  | serve hqueue hserve => exact h.serve hqueue hserve
  | popped hpc hqueue hc hfinished =>
    rw [visits_popped hpc hqueue]
    exact h.popped hqueue
  | kept hpc hqueue hc hfinished =>
    rw [visits_kept hpc hqueue, List.append_nil]
    exact h.kept hpc hqueue hc

theorem arrive {e : Queued τ} (h : t.Turns log) (hpc : t.pc = .outside)
    (hflag : e.session.ewouldblockFlag = false) (htag : e.tag ∉ t.queue.map (·.tag))
    : Turns log { t with queue := t.queue ++ [e] } := by
  constructor
  . rw [List.map_append, List.map_singleton, ← List.concat_eq_append]
    exact h.nodup.concat htag
  . intro front rest hqueue e' he' hflag'
    cases hold : t.queue with
    | nil =>
      simp only [hold, List.nil_append, List.cons.injEq] at hqueue
      simp [← hqueue.2] at he'
    | cons first others =>
      simp only [hold, List.cons_append, List.cons.injEq] at hqueue
      rw [← hqueue.2, List.mem_append, List.mem_singleton] at he'
      rcases he' with he' | rfl
      . exact h.behind first others hold e' he' hflag'
      . simp [hflag] at hflag'
  . intro front rest hqueue
    cases hold : t.queue with
    | nil =>
      simp only [hold, List.nil_append, List.cons.injEq] at hqueue
      rw [← hqueue.1]
      simp [Stands, hpc, hflag]
    | cons first others =>
      simp only [hold, List.cons_append, List.cons.injEq] at hqueue
      rw [← hqueue.1]
      exact h.front first others hold

end Turns

end Thread

namespace Threads

variable [DecidableEq ι] {s t : Threads ι τ} {past : ι → List (Visit τ)} {i : ι}

def visits (ι τ : Type) [DecidableEq ι] : History (Threads ι τ) (Label ι τ) (ι → List (Visit τ)) where
  start _ := []
  extend past s a t :=
    match a with
    | .arrive _ _ => past
    | .run i _ => Function.update past i (past i ++ (s.threads i).visits s.shared (t.threads i))

-- Sessions come to dispatcher `i` unflagged, as the composer makes them, and under new marks.
def NewArrivals (i : ι) (p : Threads ι τ × (ι → List (Visit τ))) : Label ι τ → Prop
  | .arrive j e => j = i → e.session.ewouldblockFlag = false
      ∧ e.tag ∉ (p.1.threads i).queue.map (·.tag) ∧ e.tag ∉ (p.2 i).map Visit.client
  | .run _ _ => True

-- Right after a session has left the queue of dispatcher `i`, none is passed over.
def LeavesUnblocked (i : ι) (p : Threads ι τ × (ι → List (Visit τ))) : Label ι τ → Prop
  | .arrive _ _ => True
  | .run j _ => j = i → (p.1.threads i).passes → ¬ justLeft (p.2 i)

instance [DecidableEq τ] (i : ι) (p : Threads ι τ × (ι → List (Visit τ)))
    : (a : Label ι τ) → Decidable (NewArrivals i p a)
  | .arrive _ _ => inferInstanceAs (Decidable (_ → _))
  | .run _ _ => isTrue trivial

instance (i : ι) (p : Threads ι τ × (ι → List (Visit τ)))
    : (a : Label ι τ) → Decidable (LeavesUnblocked i p a)
  | .arrive _ _ => isTrue trivial
  | .run _ _ => inferInstanceAs (Decidable (_ → _))

theorem visits_run (x : StepInput) (past : ι → List (Visit τ)) (s t : Threads ι τ)
    : (visits ι τ).extend past s (.run i x) t i
        = past i ++ (s.threads i).visits s.shared (t.threads i) := by
  simp [visits]

theorem visits_of_ne (hother : ∀ x, a ≠ .run i x) (past : ι → List (Visit τ)) (s t : Threads ι τ)
    : (visits ι τ).extend past s a t i = past i := by
  cases a with
  | arrive => rfl
  | run j x =>
    have hij : i ≠ j := by
      rintro rfl
      exact hother x rfl
    simp [visits, Function.update_of_ne hij]

theorem turns_step (h : (s.threads i).Turns (past i)) (hg : NewArrivals i (s, past) a)
    (ht : Threads.step qt s a = some t)
    : (t.threads i).Turns ((visits ι τ).extend past s a t i) := by
  cases a with
  | arrive j e =>
    obtain ⟨hpc, rfl⟩ := arrive_cases ht
    rw [visits_of_ne (by simp)]
    by_cases hij : i = j
    . subst hij
      obtain ⟨hflag, htag, -⟩ := hg rfl
      simpa using h.arrive hpc hflag htag
    . simpa [Function.update_of_ne hij] using h
  | run j x =>
    obtain ⟨sh, t', effect, hstep, rfl⟩ := step_run ht
    by_cases hij : i = j
    . subst hij
      rw [visits_run]
      simpa using h.step hstep
    . rw [visits_of_ne (by simpa using Ne.symm hij)]
      simpa [Function.update_of_ne hij] using h

theorem turns_of_reachBy (h : ((machine ι τ qt sh).withHistory (visits ι τ)).ReachBy (NewArrivals i)
      (s, past))
    : (s.threads i).Turns (past i) := by
  apply Machine.ReachBy.history_invariant
    (I := fun s past => (s.threads i).Turns (past i)) _ _ h
  . rintro s rfl
    constructor <;> simp
  . intro s past a t hs hg ht
    exact turns_step hs hg ht

theorem passedOnce_step (h : (s.threads i).Turns (past i)) (honce : PassedOnce (past i))
    (hg : LeavesUnblocked i (s, past) a)
    : PassedOnce ((visits ι τ).extend past s a t i) := by
  by_cases hrun : ∃ x, a = .run i x
  . obtain ⟨x, rfl⟩ := hrun
    rw [visits_run]
    by_cases hpasses : (s.threads i).passes
    . obtain ⟨hpc, front, rest, hqueue, hflag, -, hvisits⟩ := Thread.passes_cases hpasses
      rw [hvisits, passedOnce_append_iff]
      refine ⟨honce, ?_⟩
      rintro c hc
      injection hc with hc
      have hfront := h.front front rest hqueue
      rw [hpc] at hfront
      rw [← hc, hfront hflag]
      exact hg rfl hpasses
    . exact honce.append (Thread.passed_notMem_visits hpasses)
  . rw [visits_of_ne (by simpa using hrun)]
    exact honce

theorem passedOnce_iff (ι τ : Type) [DecidableEq ι] (qt : Qt) (sh : Shared) (i : ι)
    : (∀ s past, ((machine ι τ qt sh).withHistory (visits ι τ)).ReachBy
          (fun p a => NewArrivals i p a ∧ LeavesUnblocked i p a) (s, past) → PassedOnce (past i))
        ∧ ∀ s past a t, ((machine ι τ qt sh).withHistory (visits ι τ)).ReachBy (NewArrivals i)
            (s, past) → ¬ LeavesUnblocked i (s, past) a →
          (machine ι τ qt sh).step s a = some t →
          ¬ PassedOnce ((visits ι τ).extend past s a t i) := by
  constructor
  . intro s past h
    suffices hboth : (s.threads i).Turns (past i) ∧ PassedOnce (past i) from hboth.2
    apply Machine.ReachBy.history_invariant
      (I := fun s past => (s.threads i).Turns (past i) ∧ PassedOnce (past i)) _ _ h
    . rintro s rfl
      refine ⟨?_, passedOnce_nil⟩
      constructor <;> simp
    . rintro s past a t ⟨hturns, honce⟩ ⟨harrive, hleaves⟩ ht
      exact ⟨turns_step hturns harrive ht, passedOnce_step hturns honce hleaves⟩
  . intro s past a t h hleaves ht
    have hturns := turns_of_reachBy h
    obtain ⟨x, rfl, hpasses, hjust⟩ : ∃ x, a = .run i x ∧ (s.threads i).passes ∧ justLeft (past i) := by
      cases a with
      | arrive => exact absurd trivial hleaves
      | run j x =>
        simp only [LeavesUnblocked, Classical.not_imp, not_not] at hleaves
        obtain ⟨rfl, hpasses, hjust⟩ := hleaves
        exact ⟨x, rfl, hpasses, hjust⟩
    obtain ⟨hpc, front, rest, hqueue, hflag, -, hvisits⟩ := Thread.passes_cases hpasses
    have hfront := hturns.front front rest hqueue
    rw [hpc] at hfront
    rw [visits_run, hvisits, passedOnce_append_iff]
    rintro ⟨-, hwaits⟩
    exact hwaits front.tag rfl ((hfront hflag).mpr hjust)

def tryOnce (result : SendResult) : Label Unit Nat :=
  .run () { onTwoDirs with result }

def arriveAt (tag : Nat) : Label Unit Nat :=
  .arrive () ⟨tag, get "/a"⟩

-- Both sessions are blocked, then the first is tried again.
def bothBlocked : List (Label Unit Nat) :=
  [arriveAt 0, arriveAt 1] ++ List.replicate 22 (tryOnce .wouldBlock)

theorem passedOnce_iff_bothBlocked
    : ∃ s past, ((machine Unit Nat Qt.unix { cwd := ascii "/" }).withHistory (visits Unit Nat)).run
          ({ shared := { cwd := ascii "/" } }, fun _ => []) bothBlocked = some (s, past)
        ∧ past () = [.tried 0, .passed 0, .tried 1, .passed 1, .tried 0] ∧ PassedOnce (past ()) := by
  have hrun : (((machine Unit Nat Qt.unix { cwd := ascii "/" }).withHistory
      (visits Unit Nat)).runGuarded (fun p a => NewArrivals () p a ∧ LeavesUnblocked () p a)
      ({ shared := { cwd := ascii "/" } }, fun _ => []) bothBlocked).any
        (fun p => p.2 () = [.tried 0, .passed 0, .tried 1, .passed 1, .tried 0]) := by
    decide +kernel
  obtain ⟨⟨s, past⟩, hguarded, hlog⟩ := (Option.any_eq_true _ _).mp hrun
  obtain ⟨hrun, hreach⟩ := Machine.reachBy_of_runGuarded hguarded (.init ⟨rfl, rfl⟩) (fun _ _ _ h => h)
  refine ⟨s, past, hrun, of_decide_eq_true hlog, ?_⟩
  exact (passedOnce_iff Unit Nat Qt.unix { cwd := ascii "/" } ()).1 s past hreach

-- A session leaves, another arrives, and the blocked one is passed over again.
def firstStarves : List (Label Unit Nat) :=
  arriveAt 0 :: List.replicate 9 (tryOnce .wouldBlock)
    ++ arriveAt 1 :: List.replicate 10 (tryOnce (.accepted (Nat.succPNat 999)))
    ++ [arriveAt 2, tryOnce .wouldBlock]

theorem not_passedOnce
    : ¬ ∀ s past, ((machine Unit Nat Qt.unix { cwd := ascii "/" }).withHistory
          (visits Unit Nat)).ReachBy (NewArrivals ()) (s, past) → PassedOnce (past ()) := by
  intro h
  have hrun : (((machine Unit Nat Qt.unix { cwd := ascii "/" }).withHistory
      (visits Unit Nat)).runGuarded (NewArrivals ()) ({ shared := { cwd := ascii "/" } }, fun _ => [])
      firstStarves).any
        (fun p => p.2 () = [.tried 0, .passed 0, .tried 1, .left 1, .passed 0]) := by
    decide +kernel
  obtain ⟨⟨s, past⟩, hguarded, hlog⟩ := (Option.any_eq_true _ _).mp hrun
  obtain ⟨-, hreach⟩ := Machine.reachBy_of_runGuarded hguarded (.init ⟨rfl, rfl⟩) (fun _ _ _ h => h)
  have htried := h s past hreach 0 [.tried 0] [.tried 1, .left 1] [] (of_decide_eq_true hlog)
  exact absurd htried (by decide)

end Threads

end HttpMessageDispatcher
