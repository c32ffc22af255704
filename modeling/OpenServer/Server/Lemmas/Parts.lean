import OpenServer.PollServer.Lemmas.OpenSockets
import OpenServer.Server.Lemmas.AnnouncedClose
import OpenServer.Transition.Refinement

/-!
This module shows that the whole server is its parts: its poll loop does what the poll loop does on its
own, but for the sessions that the processor has taken away, and its dispatchers what they do on their
own. What holds of a part in all of its runs holds in the server.
-/

namespace PollServer

end PollServer

open HttpMessageDispatcher

namespace Server

variable {qt : Qt} {listenSd : Int} {shared : Shared} {s t : Server}

-- The sessions that the processor has taken off `qclients_`.
def handed : History Server Label (List (Queued Nat)) where
  start := []
  extend past s l _ :=
    match l with
    | .handOver => past ++ s.poll.qclients.take 1
    | _ => past

theorem keepsAlive_of_reachable (h : (machine qt listenSd shared).Reachable s) : s.KeepsAlive := by
  apply Machine.Reachable.invariant _ _ h
  . rintro _ rfl
    exact initial_keepsAlive listenSd shared
  . intro s l t hs ht
    exact hs.step ht

theorem run_poll (h : s.KeepsAlive) (ht : Server.step qt listenSd s (.run i x) = some t)
    : t.poll = s.poll ∧ ∃ effect, s.threads.runStep qt i x = some (t.threads, effect) := by
  obtain ⟨sh, t', effect, hstep, hdeliver⟩ := step_run ht
  have hrun := Threads.runStep_eq_some_iff.mpr ⟨sh, t', hstep, rfl⟩
  obtain ⟨deliveries, rfl⟩ | ⟨e', rfl, -⟩ := deliver_cases hdeliver
  . exact ⟨rfl, effect, hrun⟩
  . obtain ⟨e, he, hkeep⟩ := Thread.step_close hstep
    simp [h.inFlight e (.inr ⟨i, he⟩)] at hkeep

theorem refines_threads (qt : Qt) (listenSd : Int) (shared : Shared)
    : (machine qt listenSd shared).Refines (Threads.machine Nat Nat qt shared)
        (fun s threads => threads = s.threads) := by
  constructor
  . rintro s rfl
    exact ⟨_, rfl, rfl⟩
  . rintro s l t _ hs _ rfl _ ht
    have ht : Server.step qt listenSd s l = some t := ht
    cases l with
    | poll l =>
      obtain ⟨poll, -, rfl⟩ := step_poll ht
      exact ⟨_, .refl _, rfl⟩
    | handOver =>
      obtain ⟨e, rest, i, worker, threads, -, harrive, rfl⟩ := step_handOver ht
      have hstep : (Threads.machine Nat Nat qt shared).step s.threads (.arrive i e) = some threads :=
        harrive
      exact ⟨threads, .step trivial hstep, rfl⟩
    | run i x =>
      obtain ⟨-, effect, hrun⟩ := run_poll (keepsAlive_of_reachable hs) ht
      have hstep : (Threads.machine Nat Nat qt shared).step s.threads (.run i x) = some t.threads := by
        simp [Threads.machine, Threads.step, hrun]
      exact ⟨t.threads, .step trivial hstep, rfl⟩

-- The peer ended the connection that `n` stands for, or `poll` reported something but data for it.
inductive HangsUp (s : Server) (n : Int) : Label → Prop where
  | ended (hpc : s.poll.pc = .recv i currentSize) (hfd : (s.poll.fds i).fd = n)
      (hresult : result = .closed ∨ result = .failed)
      : HangsUp s n (.poll (.recv result))
  | unexpected (hpc : s.poll.pc = .scan i currentSize) (hfd : (s.poll.fds i).fd = n)
      (hrevents : (s.poll.fds i).revents ≠ 0) (hin : (s.poll.fds i).revents &&& pollIn = 0)
      : HangsUp s n (.poll .scan)

theorem hangsUp_of_closes (h : s.KeepsAlive) (hcloses : PollServer.Closes s.poll l n)
    : s.HangsUp n (.poll l) := by
  unfold PollServer.Closes at hcloses
  split at hcloses
  . simp [h.qclientsClose, PollServer.closeSessions] at hcloses
  . next hpc =>
    obtain ⟨-, hrevents, hin, hn⟩ := hcloses
    exact .unexpected hpc (PollServer.mem_closeIfPositive.mp hn).2.symm hrevents hin
  . next hpc => exact .ended hpc (PollServer.mem_closeIfPositive.mp hcloses).2.symm (.inl rfl)
  . next hpc => exact .ended hpc (PollServer.mem_closeIfPositive.mp hcloses).2.symm (.inr rfl)
  . cases hcloses

theorem step_keeps (h : s.KeepsAlive) (ht : Server.step qt listenSd s l = some t)
    (hn : s.poll.sockets n = some e) (hstays : ¬ s.HangsUp n l)
    : t.poll.sockets n = some e := by
  cases l with
  | poll l =>
    obtain ⟨poll, hpoll, rfl⟩ := step_poll ht
    obtain ⟨hcloses, -⟩ | ⟨-, hsame | ⟨-, hfree, -⟩⟩ := PollServer.step_sockets hpoll n
    . exact absurd (hangsUp_of_closes h hcloses) hstays
    . rw [hsame, hn]
    . simp [hn] at hfree
  | handOver =>
    obtain ⟨e, rest, i, worker, threads, -, -, rfl⟩ := step_handOver ht
    exact hn
  | run i x => rw [(run_poll h ht).1, hn]

theorem connections_kept (qt : Qt) (listenSd : Int) (shared : Shared)
    : ∀ s, (machine qt listenSd shared).Reachable s → ∀ n k,
        s.poll.sockets n = some (.connection k) →
        ∀ t, (machine qt listenSd shared).LeadsTo (fun s l => ¬ s.HangsUp n l) s t →
          t.poll.sockets n = some (.connection k) := by
  intro s hs n k hn t ht
  suffices h : (machine qt listenSd shared).Reachable t
      ∧ t.poll.sockets n = some (.connection k) from h.2
  induction ht with
  | refl => exact ⟨hs, hn⟩
  | tail _ hstep ih =>
    obtain ⟨l, hstays, ht⟩ := hstep
    exact ⟨.step ih.1 trivial ht, step_keeps (keepsAlive_of_reachable ih.1) ht ih.2 hstays⟩

theorem connections_kept_first
    : ∃ s t, (machine Qt.unix 3 { cwd := ascii "/" }).run start (acceptFirst ++ [.poll recvRequest])
          = some s
        ∧ (machine Qt.unix 3 { cwd := ascii "/" }).step s .handOver = some t
        ∧ t.poll.sockets 5 = some (.connection 0) := by
  have hrun : ((machine Qt.unix 3 { cwd := ascii "/" }).run start
      (acceptFirst ++ [.poll recvRequest])).any (fun s => s.poll.sockets 5 == some (.connection 0)
        && ((machine Qt.unix 3 { cwd := ascii "/" }).step s .handOver).isSome) := by
    decide +kernel
  obtain ⟨s, hs, hstate⟩ := (Option.any_eq_true _ _).mp hrun
  simp only [Bool.and_eq_true, beq_iff_eq, Option.isSome_iff_exists] at hstate
  obtain ⟨hopen, t, ht⟩ := hstate
  refine ⟨s, t, hs, ht, ?_⟩
  have hreach := Machine.Reachable.run (.init rfl) _ hs
  exact connections_kept Qt.unix 3 { cwd := ascii "/" } s hreach 5 0 hopen t
    (Machine.LeadsTo.step (a := .handOver) nofun ht)

end Server
