import OpenServer.Composer.Lemmas.Store
import OpenServer.Dispatcher.Lemmas.Thread
import OpenServer.PollServer.Lemmas.Sessions
import OpenServer.Server.Impl.Server

/-!
This module shows when every response goes to the connection that asked for it. A session names its
connection by a descriptor alone, and the poll loop closes descriptors that sessions still name.
-/

open HttpMessageDispatcher

namespace Server

variable {qt : Qt} {listenSd : Int}

def InFlight (s : Server) (e : Queued Nat) : Prop :=
  e ∈ s.poll.qclients ∨ ∃ i, e ∈ (s.threads.threads i).queue

-- `accept` gives no number by which a session in flight names its connection.
def AcceptsUnnamed (s : Server) (l : Label) : Prop :=
  ∀ n, l = .poll (.accept n) → ∀ e, s.InFlight e → e.session.socket ≠ n

structure Safe (s : Server) : Prop where
  keyed : s.poll.composer.Keyed
  named : ∀ e, s.InFlight e → ∀ k, s.poll.sockets e.session.socket = some (.connection k) → k = e.tag
  delivered : ∀ d ∈ s.deliveries, d.got = d.asked

theorem step_poll {s t : Server} (h : step qt listenSd s (.poll l) = some t)
    : ∃ poll, PollServer.step listenSd s.poll l = some poll ∧ t = { s with poll } := by
  cases l with
  | requestClose => cases h
  | _ =>
    simp only [step, Option.bind_eq_bind, Option.bind_eq_some_iff, Option.some.injEq] at h
    obtain ⟨poll, hpoll, rfl⟩ := h
    exact ⟨poll, hpoll, rfl⟩

theorem handOver_cases {s t : Server} (h : step qt listenSd s .handOver = some t)
    : ∃ e rest i worker threads, s.poll.qclients = e :: rest
        ∧ HtmlMessageProcessor.branch s.worker = some (i, worker)
        ∧ s.threads.arrive i e = some threads
        ∧ t = { s with poll := { s.poll with qclients := rest }, worker, threads } := by
  obtain ⟨r, hr, h⟩ := Option.bind_eq_some_iff.mp h
  injection h with h
  obtain ⟨e, i, hqclients, hbranch, harrive⟩ := HtmlMessageProcessor.Hands.handOver_cases hr
  exact ⟨e, r.qclients, i, r.worker, r.threads, hqclients, hbranch, harrive, h.symm⟩

theorem step_handOver {s t : Server} (h : step qt listenSd s .handOver = some t)
    : ∃ e rest i worker threads, s.poll.qclients = e :: rest
        ∧ s.threads.arrive i e = some threads
        ∧ t = { s with poll := { s.poll with qclients := rest }, worker, threads } := by
  obtain ⟨e, rest, i, worker, threads, hqclients, -, harrive, rfl⟩ := handOver_cases h
  exact ⟨e, rest, i, worker, threads, hqclients, harrive, rfl⟩

theorem step_run {s t : Server} (h : step qt listenSd s (.run i x) = some t)
    : ∃ sh t' effect, (s.threads.threads i).step qt x s.threads.shared = some (sh, t', effect)
        ∧ deliver { s with threads :=
            { shared := sh, threads := Function.update s.threads.threads i t' } } effect
          = some t := by
  obtain ⟨⟨_, effect⟩, hrun, hdeliver⟩ := Option.bind_eq_some_iff.mp h
  obtain ⟨sh, t', hstep, rfl⟩ := Threads.runStep_eq_some_iff.mp hrun
  exact ⟨sh, t', effect, hstep, hdeliver⟩

theorem deliver_queues {s t : Server} (h : s.deliver effect = some t)
    : t.poll.qclients = s.poll.qclients ∧ t.worker = s.worker ∧ t.threads = s.threads := by
  unfold deliver at h
  split at h
  . injection h with h
    simp [← h]
  . split at h
    . injection h with h
      simp [← h]
    . cases h
  . injection h with h
    simp [← h]

theorem Safe.poll {s : Server} {poll : PollServer} (h : s.Safe)
    (hg : AcceptsUnnamed s (.poll l)) (hpoll : PollServer.step listenSd s.poll l = some poll)
    : Safe { s with poll } := by
  have hold : ∀ e, s.InFlight e →
      ∀ k, poll.sockets e.session.socket = some (.connection k) → k = e.tag := by
    intro e he k hk
    obtain ⟨-, hclosed⟩ | ⟨-, hsame | ⟨rfl, -, -⟩⟩ :=
      PollServer.step_sockets hpoll e.session.socket
    . simp [hclosed] at hk
    . rw [hsame] at hk
      exact h.named e he k hk
    . exact absurd rfl (hg _ rfl e he)
  constructor
  . exact PollServer.step_keyed h.keyed hpoll
  . rintro e (he | he) k hk
    . obtain hqclients | ⟨i, _, k', buffer, msg, -, -, hsocket, hmsg, hqclients⟩ :=
        PollServer.step_qclients hpoll
      . exact hold e (.inl (by rwa [← hqclients])) k hk
      . simp only [hqclients, List.mem_append, List.mem_singleton] at he
        cases he with
        | inl he => exact hold e (.inl he) k hk
        | inr he =>
          -- the message has just come from the connection behind its descriptor
          have hfd : msg.socket = (s.poll.fds i).fd := h.keyed.message_socket hmsg
          rw [he] at hk ⊢
          simp only [hfd] at hk
          obtain ⟨-, hclosed⟩ | ⟨-, hsame | ⟨-, hfree, -⟩⟩ :=
            PollServer.step_sockets hpoll (s.poll.fds i).fd
          . simp [hclosed] at hk
          . rw [hsame, hsocket] at hk
            simpa using hk.symm
          . simp [hfree] at hsocket
    . exact hold e (.inr he) k hk
  . exact h.delivered

theorem Safe.of_origin {s t : Server} (h : s.Safe) (hcomposer : t.poll.composer = s.poll.composer)
    (hsockets : t.poll.sockets = s.poll.sockets) (hdeliveries : t.deliveries = s.deliveries)
    (horigin : ∀ e', t.InFlight e' → ∃ e, s.InFlight e ∧ SameOrigin e e')
    : t.Safe := by
  constructor
  . rw [hcomposer]
    exact h.keyed
  . intro e' he' k hk
    obtain ⟨e, he, htag, hsocket⟩ := horigin e' he'
    rw [hsockets, hsocket] at hk
    rw [htag]
    exact h.named e he k hk
  . rw [hdeliveries]
    exact h.delivered

theorem inFlight_handOver {s : Server} {threads : Threads Nat Nat} (worker : Nat)
    (hqclients : s.poll.qclients = e :: rest) (harrive : s.threads.arrive i e = some threads)
    (he' : InFlight { s with poll := { s.poll with qclients := rest }, worker, threads } e')
    : s.InFlight e' := by
  obtain ⟨-, rfl⟩ := Threads.arrive_cases harrive
  obtain he' | ⟨j, he'⟩ := he'
  . exact .inl (by simp [hqclients, he'])
  . by_cases hj : j = i
    . subst hj
      simp only [Function.update_self, List.mem_append, List.mem_singleton] at he'
      cases he' with
      | inl he' => exact .inr ⟨j, he'⟩
      | inr he' => exact .inl (by simp [hqclients, he'])
    . simp only [Function.update_of_ne hj] at he'
      exact .inr ⟨j, he'⟩

theorem inFlight_run {s : Server} {t' : Thread Nat}
    (hstep : (s.threads.threads i).step qt x s.threads.shared = some (sh', t', effect))
    (he' : InFlight { s with threads :=
        { shared := sh', threads := Function.update s.threads.threads i t' } } e')
    : ∃ e, s.InFlight e ∧ e'.tag = e.tag ∧ SameConnection e.session e'.session := by
  obtain he' | ⟨j, he'⟩ := he'
  . exact ⟨e', .inl he', rfl, rfl, rfl, rfl⟩
  . by_cases hj : j = i
    . subst hj
      simp only [Function.update_self] at he'
      obtain ⟨e, he, hsame⟩ := Thread.step_sameConnection hstep e' he'
      exact ⟨e, .inr ⟨j, he⟩, hsame⟩
    . simp only [Function.update_of_ne hj] at he'
      exact ⟨e', .inr ⟨j, he'⟩, rfl, rfl, rfl, rfl⟩

theorem Safe.handOver {s : Server} {threads : Threads Nat Nat} (h : s.Safe) (worker : Nat)
    (hqclients : s.poll.qclients = e :: rest) (harrive : s.threads.arrive i e = some threads)
    : Safe { s with poll := { s.poll with qclients := rest }, worker, threads } := by
  refine h.of_origin rfl rfl rfl ?_
  intro e' he'
  exact ⟨e', inFlight_handOver worker hqclients harrive he', rfl, rfl⟩

theorem Safe.run {s : Server} {t' : Thread Nat} (h : s.Safe)
    (hstep : (s.threads.threads i).step qt x s.threads.shared = some (sh, t', effect))
    : Safe { s with threads :=
        { shared := sh, threads := Function.update s.threads.threads i t' } } := by
  refine h.of_origin rfl rfl rfl ?_
  intro e' he'
  obtain ⟨e, he, htag, hsame⟩ := inFlight_run hstep he'
  exact ⟨e, he, htag, hsame.socket⟩

theorem Safe.deliver {s t : Server} (h : s.Safe) (hdeliver : s.deliver effect = some t)
    (hsent : ∀ e bytes, effect = .sent e bytes →
      ∀ k, s.poll.sockets e.session.socket = some (.connection k) → k = e.tag)
    : t.Safe := by
  unfold Server.deliver at hdeliver
  split at hdeliver
  . injection hdeliver with hdeliver
    rwa [← hdeliver]
  . next e bytes =>
    split at hdeliver
    . next k hsocket =>
      injection hdeliver with hdeliver
      rw [← hdeliver]
      refine ⟨h.keyed, h.named, ?_⟩
      intro d hd
      simp only [List.mem_append, List.mem_singleton] at hd
      cases hd with
      | inl hd => exact h.delivered d hd
      | inr hd =>
        rw [hd]
        exact hsent e bytes rfl k hsocket
    . cases hdeliver
  . injection hdeliver with hdeliver
    rw [← hdeliver]
    exact ⟨h.keyed, h.named, h.delivered⟩

theorem Safe.step {s t : Server} (h : s.Safe) (hg : AcceptsUnnamed s l)
    (ht : Server.step qt listenSd s l = some t)
    : t.Safe := by
  cases l with
  | poll l =>
    obtain ⟨poll, hpoll, rfl⟩ := step_poll ht
    exact h.poll hg hpoll
  | handOver =>
    obtain ⟨e, rest, i, worker, threads, hqclients, harrive, rfl⟩ := step_handOver ht
    exact h.handOver worker hqclients harrive
  | run i x =>
    obtain ⟨sh, t', effect, hstep, hdeliver⟩ := step_run ht
    apply (h.run hstep).deliver hdeliver
    rintro e' bytes rfl k hk
    obtain ⟨e, he, htag, hsocket⟩ := Thread.step_sent hstep
    rw [hsocket] at hk
    rw [htag]
    exact h.named e (.inr ⟨i, he⟩) k hk

theorem not_inFlight_initial (listenSd : Int) (shared : Shared) (e : Queued Nat)
    : ¬ (initial listenSd shared).InFlight e := by
  rintro (he | ⟨i, he⟩)
  . cases he
  . cases he

theorem initial_safe (listenSd : Int) (shared : Shared) : (initial listenSd shared).Safe := by
  constructor
  . intro n msg hmsg
    cases hmsg
  . intro e he
    exact absurd he (not_inFlight_initial listenSd shared e)
  . intro d hd
    cases hd

theorem delivered_to_asking (qt : Qt) (listenSd : Int) (shared : Shared) (s : Server)
    (h : (machine qt listenSd shared).ReachBy AcceptsUnnamed s)
    : ∀ d ∈ s.deliveries, d.got = d.asked := by
  have hsafe : s.Safe := by
    apply Machine.ReachBy.invariant _ _ h
    . rintro _ rfl
      exact initial_safe listenSd shared
    . intro s l t hsafe hg ht
      exact hsafe.step hg ht
  exact hsafe.delivered

def recvRequest : PollServer.Label :=
  .recv (.data (HtmlMessageComposer.Arrival.ofBytes (ascii "GET /a HTTP/1.1\r\n\r\n") (by decide)
    (by decide)).toRecvBuffer)

def runA (i : Nat) : Label :=
  .run i { disk := diskOfA (ascii "hi"), indeterminate := false, result := .accepted ⟨100, by decide⟩ }

def serveA : List Label :=
  .handOver :: List.replicate 8 (runA 0)

def acceptFirst : List Label :=
  PollServer.acceptThenRead.map .poll

def start : Server := initial 3 { cwd := ascii "/" }

-- There are twelve dispatchers.
theorem queue_eq_nil_of_reachable {s : Server} (h : (machine qt listenSd shared).Reachable s)
    : ∀ i, 12 ≤ i → (s.threads.threads i).queue = [] := by
  apply Machine.Reachable.invariant (I := fun s => ∀ i, 12 ≤ i → (s.threads.threads i).queue = []) _ _ h
  . rintro _ rfl _ _
    rfl
  . intro s l t hs ht i hi
    have ht : Server.step qt listenSd s l = some t := ht
    cases l with
    | poll l =>
      obtain ⟨poll, -, rfl⟩ := step_poll ht
      exact hs i hi
    | handOver =>
      obtain ⟨e, rest, j, worker, threads, -, hbranch, harrive, rfl⟩ := handOver_cases ht
      obtain ⟨-, rfl⟩ := Threads.arrive_cases harrive
      have := HtmlMessageProcessor.branch_lt hbranch
      have hne : i ≠ j := by omega
      simpa [Function.update_of_ne hne] using hs i hi
    | run j x =>
      obtain ⟨sh, t', effect, hstep, hdeliver⟩ := step_run ht
      have hne : i ≠ j := by
        rintro rfl
        simp [Thread.step, hs i hi] at hstep
      rw [(deliver_queues hdeliver).2.2]
      simpa [Function.update_of_ne hne] using hs i hi

def idle (s : Server) : Bool :=
  s.poll.qclients.isEmpty && (List.range 12).all (fun i => (s.threads.threads i).queue.isEmpty)

theorem not_inFlight_of_idle {s : Server} (h : (machine qt listenSd shared).Reachable s)
    (hidle : s.idle) (e : Queued Nat)
    : ¬ s.InFlight e := by
  simp only [idle, Bool.and_eq_true, List.isEmpty_iff, List.all_eq_true, List.mem_range] at hidle
  rintro (he | ⟨i, he⟩)
  . simp [hidle.1] at he
  . by_cases hi : i < 12
    . simp [hidle.2 i hi] at he
    . simp [queue_eq_nil_of_reachable h i (by omega)] at he

def acceptsIdle (s : Server) : Label → Bool
  | .poll (.accept _) => s.idle
  | _ => true

theorem acceptsUnnamed_of_acceptsIdle {s : Server} (h : (machine qt listenSd shared).Reachable s)
    (hidle : s.acceptsIdle l)
    : s.AcceptsUnnamed l := by
  rintro n rfl e he
  exact absurd he (not_inFlight_of_idle h hidle e)

def acceptAgain : List Label :=
  List.map .poll [.recv .closed, .scan, .compress,
    .poll 1 false (fun i => if i = 0 then pollIn else 0), .checkClosedSessions, .scan, .accept 5]

def readAgain : List Label :=
  List.map .poll [.accept (-1), .scan, .compress,
    .poll 1 false (fun i => if i = 1 then pollIn else 0), .checkClosedSessions, .scan, .scan,
    recvRequest]

-- The client closes when it has its response, and the next connection gets its descriptor. The
-- second response comes from `cache_`.
def serveTwo : List Label :=
  acceptFirst ++ .poll recvRequest :: serveA ++ acceptAgain ++ readAgain
    ++ .handOver :: List.replicate 6 (runA 1)

theorem delivered_to_asking_serveTwo
    : ∃ s, (machine Qt.unix 3 { cwd := ascii "/" }).run start serveTwo = some s
        ∧ s.deliveries.map (fun d => (d.asked, d.got)) = [(0, 0), (1, 1)]
        ∧ ∀ d ∈ s.deliveries, d.got = d.asked := by
  have hrun : ((machine Qt.unix 3 { cwd := ascii "/" }).runGuarded (fun s l => s.acceptsIdle l)
      start serveTwo).map (fun s => s.deliveries.map (fun d => (d.asked, d.got)))
        = some [(0, 0), (1, 1)] := by
    decide +kernel
  obtain ⟨s, hs, hdeliveries⟩ := Option.map_eq_some_iff.mp hrun
  obtain ⟨hs, hreach⟩ := Machine.reachBy_of_runGuarded hs (.init rfl) (fun _ _ _ h => h)
  refine ⟨s, hs, hdeliveries, delivered_to_asking Qt.unix 3 { cwd := ascii "/" } s ?_⟩
  apply hreach.mono
  intro s l hs hidle
  exact acceptsUnnamed_of_acceptsIdle hs hidle

-- The client goes away while its request is queued.
theorem not_delivered_to_asking
    : ¬ ∀ s, (machine Qt.unix 3 { cwd := ascii "/" }).Reachable s →
        ∀ d ∈ s.deliveries, d.got = d.asked := by
  intro h
  have hrun : ((machine Qt.unix 3 { cwd := ascii "/" }).run start
      (acceptFirst ++ .poll recvRequest :: acceptAgain ++ serveA)).map
        (fun s => s.deliveries.map (fun d => (d.asked, d.got))) = some [(0, 1)] := by
    decide +kernel
  obtain ⟨s, hs, hdeliveries⟩ := Option.map_eq_some_iff.mp hrun
  have hmem : (0, 1) ∈ s.deliveries.map (fun d => (d.asked, d.got)) := by simp [hdeliveries]
  obtain ⟨d, hd, heq⟩ := List.mem_map.mp hmem
  have hsame := h s (Machine.Reachable.run (.init rfl) _ hs) d hd
  injection heq with hasked hgot
  omega

end Server
