import OpenServer.Processor.Lemmas.HandOver
import OpenServer.Server.Lemmas.RightConnection

/-!
This module shows that the whole server loses no complete request, doubles none and changes none: each
is in `qclients_`, on the queue of the dispatcher whose turn it was, or has been popped there.
-/

open HttpMessageDispatcher

-- What a request keeps from the composer to the dispatcher.
structure Ticket (τ : Type) where
  tag : τ
  socket : Int
  fdsIndex : Nat
  requestHeader : Bytes

def Queued.ticket (e : Queued τ) : Ticket τ where
  tag := e.tag
  socket := e.session.socket
  fdsIndex := e.session.fdsIndex
  requestHeader := e.session.request.requestHeader

namespace HttpMessageDispatcher

variable {qt : Qt}

theorem parse_requestHeader {p p' : HttpHeaderParser} (h : p.parse qt = some p')
    : p'.requestHeader = p.requestHeader := by
  unfold HttpHeaderParser.parse at h
  split at h
  . simp only [Option.bind_eq_bind, Option.bind_eq_some_iff, Option.some.injEq] at h
    obtain ⟨line, -, url, -, rfl⟩ := h
    rfl
  . injection h with h
    rw [← h]

theorem serveStep_requestHeader (h : serveStep qt x sh c pc = some (sh', c', pc', bytes))
    : c'.request.requestHeader = c.request.requestHeader := by
  cases serveStep_cases h with
  | pending => rfl
  | cached hflag hparse hlookup =>
    obtain ⟨request, data, hrequest, -, -, rfl⟩ := parsed_cached hparse hlookup
    exact parse_requestHeader hrequest
  | file hflag hparse hlookup =>
    obtain ⟨request, hrequest, -, rfl⟩ := parsed_file hparse hlookup
    exact parse_requestHeader hrequest
  | directory hflag hparse hlookup =>
    obtain ⟨request, hrequest, -, rfl⟩ := parsed_directory hparse hlookup
    exact parse_requestHeader hrequest
  | @read c₁ r hread =>
    obtain ⟨more, rfl⟩ := readFile_eq hread
    obtain ⟨message, size, hc⟩ := compose_eq { c with sendMessageHasMoreBytes := more } r
    rw [hc]
  | headed =>
    obtain ⟨message, size, hc⟩ := compose_eq c (directoryResponse _ sh.cwd)
    rw [hc]
  | stored =>
    unfold store
    split <;> rfl
  | entered => rfl
  | listed => rfl
  | selected => rfl
  | sent => rfl

theorem ticket_eq {front : Queued τ} (hsame : SameConnection front.session c)
    (hheader : c.request.requestHeader = front.session.request.requestHeader)
    : ({ front with session := c } : Queued τ).ticket = front.ticket := by
  simp [Queued.ticket, hsame.socket, hsame.fdsIndex, hheader]

theorem eraseSent_endSend_request (c : ClientSession) (ending : SendEnd) (totalBytes : Nat)
    : (eraseSent (endSend c ending) totalBytes).request = c.request := by
  unfold eraseSent endSend
  cases ending <;> dsimp only <;> repeat' split
  all_goals rfl

-- The session that the test at the end of the iteration finds to be finished.
def Thread.popped (t : Thread τ) : List (Queued τ) :=
  match t.pc, t.queue with
  | .finish ending totalBytes, front :: _ =>
    if isFinished (eraseSent (endSend front.session ending) totalBytes) then [front] else []
  | _, _ => []

theorem Thread.popped_of_serve {t : Thread τ}
    (h : serveStep qt x sh c t.pc = some (sh', c', pc', bytes))
    : t.popped = [] := by
  unfold popped
  split
  . next hpc _ =>
    rw [hpc] at h
    cases h
  . rfl

theorem Thread.step_tickets {t : Thread τ} (h : t.step qt x sh = some (sh', t', effect))
    : (t'.queue.map (·.ticket) ++ t.popped.map (·.ticket)).Perm (t.queue.map (·.ticket)) := by
  cases Thread.step_cases h with
  | start hpc hne =>
    have hnone : t.popped = [] := by simp [popped, hpc]
    rw [hnone]
    simpa using (rotate_perm t.queue).map _
  | serve hqueue hserve =>
    rw [hqueue, popped_of_serve hserve]
    have := ticket_eq (serveStep_sameConnection hserve) (serveStep_requestHeader hserve)
    simp [this]
  | @popped ending totalBytes front rest c hpc hqueue hc hfinished =>
    have hfront : t.popped = [front] := by
      rw [hc] at hfinished
      simp [popped, hpc, hqueue, hfinished]
    rw [hqueue, hfront]
    simp
  | @kept ending totalBytes front rest c hpc hqueue hc hfinished =>
    have hnone : t.popped = [] := by
      rw [hc] at hfinished
      simp [popped, hpc, hqueue, hfinished]
    rw [hqueue, hnone]
    have hsame := eraseSent_endSend_sameConnection front.session ending totalBytes
    have hrequest := eraseSent_endSend_request front.session ending totalBytes
    rw [← hc] at hsame hrequest
    have := ticket_eq hsame (by rw [hrequest])
    simp [this]

end HttpMessageDispatcher

namespace PollServer

-- The requests that the composer completes with what `recv` delivers, each with its connection.
def completes (s : PollServer) : Label → List (Queued Nat)
  | .recv (.data buffer) =>
    match s.pc with
    | .recv i _ =>
      match s.sockets (s.fds i).fd with
      | some (.connection k) =>
        (s.composer.onClientDataArrived (s.fds i).fd i buffer.data buffer.dataSize).2.toList.map
          (fun msg => ⟨k, msg⟩)
      | _ => []
    | _ => []
  | _ => []

theorem step_completes {s t : PollServer} (h : step listenSd s l = some t)
    : t.qclients = s.qclients ++ s.completes l := by
  cases step_cases h with
  | received hpc hsocket => simp [recvData, completes, hpc, hsocket]
  | recvEnded hpc hresult => rcases hresult with rfl | rfl <;> simp [closeConn, completes]
  | _ => simp [completes]

end PollServer

namespace Server

variable {qt : Qt} {listenSd : Int} {shared : Shared} {s t : Server}

structure Passing where
  completed : List (Queued Nat) := []
  dealt : List (Nat × Queued Nat) := []
  popped : Nat → List (Queued Nat) := fun _ => []

-- What the composer has completed, whom the processor has dealt it to, and what the dispatchers have
-- popped.
def passing : History Server Label Passing where
  start := {}
  extend past s l _ :=
    match l with
    | .poll l => { past with completed := past.completed ++ s.poll.completes l }
    | .handOver =>
      match HtmlMessageProcessor.branch s.worker, s.poll.qclients with
      | some (i, _), e :: _ => { past with dealt := past.dealt ++ [(i, e)] }
      | _, _ => past
    | .run i _ =>
      let popped := past.popped i ++ (s.threads.threads i).popped
      { past with popped := Function.update past.popped i popped }

structure Conserves (s : Server) (past : Passing) : Prop where
  completed : past.completed = past.dealt.map (·.2) ++ s.poll.qclients
  worker : s.worker = past.dealt.length % HtmlMessageProcessor.numDispatchers
  dealt : past.dealt = RoundRobin.deal HtmlMessageProcessor.numDispatchers (past.dealt.map (·.2))
  perm : ∀ i, ((s.threads.threads i).queue.map (·.ticket) ++ (past.popped i).map (·.ticket)).Perm
    ((RoundRobin.received i past.dealt).map (·.ticket))

namespace Conserves

theorem poll (h : s.Conserves past) (ht : Server.step qt listenSd s (.poll l) = some t)
    : t.Conserves (passing.extend past s (.poll l) t) := by
  obtain ⟨poll, hpoll, rfl⟩ := step_poll ht
  obtain ⟨hcompleted, hworker, hdealt, hperm⟩ := h
  refine ⟨?_, hworker, hdealt, hperm⟩
  change past.completed ++ s.poll.completes l = past.dealt.map (·.2) ++ poll.qclients
  rw [PollServer.step_completes hpoll, hcompleted, List.append_assoc]

theorem handOver (h : s.Conserves past) (ht : Server.step qt listenSd s .handOver = some t)
    : t.Conserves (passing.extend past s .handOver t) := by
  obtain ⟨e, rest, i, worker, threads, hqclients, hbranch, harrive, rfl⟩ := handOver_cases ht
  obtain ⟨-, rfl⟩ := Threads.arrive_cases harrive
  have hpast : ∀ t, passing.extend past s .handOver t
      = { past with dealt := past.dealt ++ [(i, e)] } := by
    simp [passing, hbranch, hqclients]
  obtain ⟨hcompleted, hworker, hdealt, hperm⟩ := h
  rw [hworker, HtmlMessageProcessor.branch_eq (Nat.mod_lt _ (by decide))] at hbranch
  simp only [Option.some.injEq, Prod.mk.injEq] at hbranch
  rw [hpast]
  constructor
  . simp [hcompleted, hqclients]
  . simp [← hbranch.2, Nat.add_mod]
  . dsimp only
    rw [List.map_append, List.map_singleton, RoundRobin.deal_append, ← hdealt, List.length_map,
      ← hbranch.1]
  . intro j
    by_cases hj : j = i
    . subst hj
      simp only [Function.update_self, RoundRobin.received_append_self, List.map_append,
        List.map_cons, List.map_nil]
      refine List.Perm.trans ?_ ((hperm j).append_right _)
      rw [List.append_assoc, List.append_assoc]
      exact (List.perm_append_comm).append_left _
    . rw [RoundRobin.received_append_of_ne _ _ (Ne.symm hj)]
      simpa [Function.update_of_ne hj] using hperm j

theorem run (h : s.Conserves past) (ht : Server.step qt listenSd s (.run i x) = some t)
    : t.Conserves (passing.extend past s (.run i x) t) := by
  obtain ⟨sh, t', effect, hstep, hdeliver⟩ := step_run ht
  obtain ⟨hqclients, hsame, hthreads⟩ := deliver_queues hdeliver
  obtain ⟨hcompleted, hworker, hdealt, hperm⟩ := h
  refine ⟨by rw [hqclients]; exact hcompleted, by rw [hsame]; exact hworker, hdealt, ?_⟩
  intro j
  by_cases hj : j = i
  . subst hj
    simp only [passing, hthreads, Function.update_self, List.map_append]
    refine List.Perm.trans (List.perm_append_comm.append_left _) ?_
    rw [← List.append_assoc]
    exact ((Thread.step_tickets hstep).append_right _).trans (hperm j)
  . simpa [passing, hthreads, Function.update_of_ne hj] using hperm j

theorem step (h : s.Conserves past) (ht : Server.step qt listenSd s l = some t)
    : t.Conserves (passing.extend past s l t) := by
  cases l with
  | poll l => exact h.poll ht
  | handOver => exact h.handOver ht
  | run i x => exact h.run ht

end Conserves

-- Sessions stand in the order of completion up to the dispatchers, which rotate theirs.
theorem requests_conserved (qt : Qt) (listenSd : Int) (shared : Shared)
    : ∀ s past, ((machine qt listenSd shared).withHistory passing).Reachable (s, past) →
        past.completed = past.dealt.map (·.2) ++ s.poll.qclients
          ∧ past.dealt = RoundRobin.deal 12 (past.dealt.map (·.2))
          ∧ ∀ i, ((s.threads.threads i).queue.map (·.ticket)
              ++ (past.popped i).map (·.ticket)).Perm
            ((RoundRobin.received i past.dealt).map (·.ticket)) := by
  intro s past hs
  have hconserves : s.Conserves past := by
    apply Machine.ReachBy.history_invariant (I := Conserves) _ _ hs
    . rintro _ rfl
      exact ⟨rfl, rfl, rfl, fun _ => .refl _⟩
    . intro s past l t hs _ ht
      exact hs.step ht
  exact ⟨hconserves.completed, hconserves.dealt, hconserves.perm⟩

-- Two clients, one after the other, whose requests are served to the end by two dispatchers.
theorem requests_conserved_serveTwo
    : ∃ s past, ((machine Qt.unix 3 { cwd := ascii "/" }).withHistory passing).run (start, {})
          serveTwo = some (s, past)
        ∧ past.completed.map (·.tag) = [0, 1] ∧ past.dealt.map (·.1) = [0, 1]
        ∧ (past.popped 1).length = 1
        ∧ ((s.threads.threads 1).queue.map (·.ticket) ++ (past.popped 1).map (·.ticket)).Perm
          ((RoundRobin.received 1 past.dealt).map (·.ticket)) := by
  have hrun : (((machine Qt.unix 3 { cwd := ascii "/" }).withHistory passing).run (start, {})
      serveTwo).any (fun p => p.2.completed.map (·.tag) == [0, 1] && p.2.dealt.map (·.1) == [0, 1]
        && (p.2.popped 1).length == 1) := by
    decide +kernel
  obtain ⟨⟨s, past⟩, hs, hstate⟩ := (Option.any_eq_true _ _).mp hrun
  simp only [Bool.and_eq_true, beq_iff_eq] at hstate
  obtain ⟨⟨hcompleted, hdealt⟩, hpopped⟩ := hstate
  refine ⟨s, past, hs, hcompleted, hdealt, hpopped, ?_⟩
  have hreach : ((machine Qt.unix 3 { cwd := ascii "/" }).withHistory passing).Reachable (s, past) :=
    Machine.Reachable.run (s := (start, {})) (.init ⟨rfl, rfl⟩) _ hs
  exact (requests_conserved Qt.unix 3 { cwd := ascii "/" } s past hreach).2.2 1

end Server
