import OpenServer.Dispatcher.Lemmas.PassedOver
import OpenServer.Dispatcher.Lemmas.Undisturbed
import OpenServer.Server.Lemmas.RightConnection

/-!
This module shows what becomes of the close that a response announces. The header always says
`Connection: close`, and no session is ever marked as one whose connection is to be closed.
-/

namespace HttpMessageDispatcher

-- Up to the first blank line.
def headerOf : Bytes → Bytes
  | 13 :: 10 :: 13 :: 10 :: _ => [13, 10, 13, 10]
  | a :: rest => a :: headerOf rest
  | [] => []

def AnnouncesClose (response : Bytes) : Prop :=
  ascii "\r\nConnection: close\r\n" <:+: headerOf response

instance (response : Bytes) : Decidable (AnnouncesClose response) :=
  inferInstanceAs (Decidable (_ <:+: _))

theorem headerOf_append (h : 13 ∉ s) (rest : Bytes) : headerOf (s ++ rest) = s ++ headerOf rest := by
  induction s with
  | nil => rfl
  | cons a s ih =>
    simp only [List.mem_cons, not_or] at h
    rw [List.cons_append, headerOf, ih h.2, List.cons_append]
    rintro _ rfl
    exact absurd rfl h.1

theorem headerOf_line (h : 13 ∉ s) (hnext : rest.head? ≠ some 13)
    : headerOf (s ++ ascii "\r\n" ++ rest) = s ++ ascii "\r\n" ++ headerOf rest := by
  rw [List.append_assoc, headerOf_append h, List.append_assoc]
  change s ++ headerOf (13 :: 10 :: rest) = s ++ 13 :: 10 :: headerOf rest
  rw [headerOf, headerOf]
  . simp
  . rintro tail - hrest
    injection hrest with _ hrest
    simp [hrest] at hnext

theorem announcesClose_responseHeader (hmime : 13 ∉ mimeStr) (contentLength : Int) (body : Bytes)
    : AnnouncesClose (responseHeader mimeStr contentLength ++ body) := by
  let length := ascii "Content-Length: " ++ toDecimal contentLength.toNat ++ ascii "\r\n"
    ++ ascii "\r\n" ++ body
  have hheader : responseHeader mimeStr contentLength ++ body
      = ascii "HTTP/1.1 200 OK" ++ ascii "\r\n" ++ (ascii "Content-Type: " ++ mimeStr
        ++ ascii "\r\n" ++ (ascii "Connection: close" ++ ascii "\r\n" ++ length)) := by
    simp [responseHeader, ascii, length]
  have htype : 13 ∉ ascii "Content-Type: " ++ mimeStr := by
    simp [ascii, hmime]
  rw [AnnouncesClose, hheader, headerOf_line (by decide) (by simp [ascii]),
    headerOf_line htype (by simp [ascii]), headerOf_line (by decide) (by simp [length, ascii])]
  exists ascii "HTTP/1.1 200 OK" ++ ascii "\r\n" ++ ascii "Content-Type: " ++ mimeStr, headerOf length
  simp [ascii]

-- What `send` has taken for each session in the queue, from the front on.
def Thread.taken (t t' : Thread τ) (bytes : Bytes) : List Bytes → List Bytes
  | [] => []
  | first :: rest =>
    match t.pc with
    | .outside => if t.passes then rest ++ [first] else first :: rest
    | .finish _ _ => if t'.queue.length = t.queue.length then first :: rest else rest
    | _ => (first ++ bytes) :: rest

-- The session that the next step pops, if `send` has taken all there was left of its response.
def Thread.popsSent (t : Thread τ) : Option (Queued τ) :=
  match t.pc, t.queue with
  | .finish .complete totalBytes, front :: _ =>
    if isFinished (eraseSent (endSend front.session .complete) totalBytes) then some front else none
  | _, _ => none

variable {qt : Qt} {t t' : Thread τ}

theorem Thread.taken_length (hstep : t.step qt x sh = some (sh', t', effect)) (bytes : Bytes)
    (h : past.length = t.queue.length)
    : (t.taken t' bytes past).length = t'.queue.length := by
  obtain ⟨front, others, hcons⟩ : ∃ front others, t.queue = front :: others := by
    apply List.exists_cons_of_ne_nil
    intro hnone
    simp [step, hnone] at hstep
  obtain ⟨first, rest, rfl⟩ : ∃ first rest, past = first :: rest := by
    apply List.exists_cons_of_length_pos
    simp [h, hcons]
  simp only [taken]
  cases Thread.step_cases hstep with
  | start hpc hqueue =>
    rw [hpc, (rotate_perm t.queue).length_eq, ← h]
    dsimp only
    split <;> simp
  | serve hqueue hserve =>
    rw [hqueue] at h
    split
    . next hpc =>
      rw [hpc] at hserve
      cases hserve
    . next hpc =>
      rw [hpc] at hserve
      cases hserve
    . simpa using h
  | popped hpc hqueue hc hfinished =>
    rw [hqueue] at h ⊢
    simpa [hpc] using h
  | kept hpc hqueue hc hfinished =>
    rw [hqueue] at h ⊢
    simpa [hpc] using h

end HttpMessageDispatcher

namespace HtmlMessageComposer

def KeepsAlive (c : HtmlMessageComposer) : Prop :=
  ∀ n msg, c.messages n = some msg → msg.keepAlive

theorem KeepsAlive.storeData {c : HtmlMessageComposer} (h : c.KeepsAlive)
    : (c.storeData socket fdsIndex data dataSize).keepAlive := by
  unfold HtmlMessageComposer.storeData
  split
  . rfl
  . next stored hstored => exact h socket stored hstored

end HtmlMessageComposer

open HttpMessageDispatcher

namespace Server

variable {qt : Qt} {listenSd : Int} {shared : Shared} {s t : Server} {past : Nat → List Bytes}

-- Dispatcher by dispatcher, in step with its queue.
def taken (qt : Qt) : History Server Label (Nat → List Bytes) where
  start _ := []
  extend past s l t :=
    match l with
    | .poll _ => past
    | .handOver => fun i =>
      if (s.threads.threads i).queue.length < (t.threads.threads i).queue.length then
        past i ++ [[]]
      else
        past i
    | .run i x =>
      match (s.threads.threads i).step qt x s.threads.shared with
      | some (_, t', effect) =>
        Function.update past i ((s.threads.threads i).taken t' effect.bytes (past i))
      | none => past

-- What `send` has taken for the session that dispatcher `i` pops says that the connection is closed.
def PopsAnnounced (s : Server) (past : Nat → List Bytes) (i : Nat) (e : Queued Nat) : Prop :=
  (s.threads.threads i).popsSent = some e
    ∧ ∃ response, (past i).head? = some response ∧ AnnouncesClose response

def CarriesOutClose (s : Server) (past : Nat → List Bytes) (l : Label) (t : Server) : Prop :=
  ∀ i x e, l = .run i x → s.PopsAnnounced past i e →
    ∃ c ∈ t.poll.qclientsClose, c.socket = e.session.socket ∧ c.fdsIndex = e.session.fdsIndex

structure KeepsAlive (s : Server) : Prop where
  composer : s.poll.composer.KeepsAlive
  inFlight : ∀ e, s.InFlight e → e.session.keepAlive
  qclientsClose : s.poll.qclientsClose = []

theorem KeepsAlive.poll {poll : PollServer} (h : s.KeepsAlive) (hl : ∀ c, l ≠ .requestClose c)
    (hpoll : PollServer.step listenSd s.poll l = some poll)
    : Server.KeepsAlive { s with poll } := by
  constructor
  . obtain ⟨hcomposer, -⟩ | ⟨i, _, k, buffer, -, -, -, rfl⟩ := PollServer.step_composer hpoll
    . rw [hcomposer]
      exact h.composer
    . intro n msg hmsg
      obtain ⟨-, -, rfl⟩ | hold := HtmlMessageComposer.entry_cases hmsg
      . exact h.composer.storeData
      . exact h.composer n msg hold
  . rintro e (he | he)
    . obtain hqclients | ⟨i, _, k, buffer, msg, -, -, -, hmsg, hqclients⟩ :=
        PollServer.step_qclients hpoll
      . exact h.inFlight e (.inl (by rwa [← hqclients]))
      . simp only [hqclients, List.mem_append, List.mem_singleton] at he
        cases he with
        | inl he => exact h.inFlight e (.inl he)
        | inr he =>
          rw [he, HtmlMessageComposer.message_eq hmsg]
          exact h.composer.storeData
    . exact h.inFlight e (.inr he)
  . obtain hsame | hnone | ⟨c, rfl, -⟩ := PollServer.step_qclientsClose hpoll
    . rw [hsame, h.qclientsClose]
    . exact hnone
    . exact absurd rfl (hl c)

theorem KeepsAlive.of_inFlight (h : s.KeepsAlive) (hcomposer : t.poll.composer = s.poll.composer)
    (hclose : t.poll.qclientsClose = s.poll.qclientsClose)
    (hinFlight : ∀ e', t.InFlight e' → ∃ e, s.InFlight e ∧ SameConnection e.session e'.session)
    : t.KeepsAlive := by
  constructor
  . rw [hcomposer]
    exact h.composer
  . intro e' he'
    obtain ⟨e, he, hsame⟩ := hinFlight e' he'
    rw [hsame.keepAlive]
    exact h.inFlight e he
  . rw [hclose, h.qclientsClose]

theorem deliver_cases (h : s.deliver effect = some t)
    : (∃ deliveries, t = { s with deliveries })
        ∨ ∃ e, effect = .close e ∧ t.threads = s.threads := by
  unfold deliver at h
  split at h
  . injection h with h
    exact .inl ⟨s.deliveries, h.symm⟩
  . split at h
    . injection h with h
      exact .inl ⟨_, h.symm⟩
    . cases h
  . next e =>
    injection h with h
    exact .inr ⟨e, rfl, by rw [← h]⟩

theorem KeepsAlive.step (h : s.KeepsAlive) (ht : Server.step qt listenSd s l = some t)
    : t.KeepsAlive := by
  cases l with
  | poll l =>
    obtain ⟨poll, hpoll, rfl⟩ := step_poll ht
    apply h.poll _ hpoll
    rintro c rfl
    cases ht
  | handOver =>
    obtain ⟨e, rest, i, worker, threads, hqclients, harrive, rfl⟩ := step_handOver ht
    refine h.of_inFlight rfl rfl ?_
    intro e' he'
    exact ⟨e', inFlight_handOver worker hqclients harrive he', rfl, rfl, rfl⟩
  | run i x =>
    obtain ⟨sh, t', effect, hstep, hdeliver⟩ := step_run ht
    obtain ⟨deliveries, rfl⟩ | ⟨e', rfl, -⟩ := deliver_cases hdeliver
    . refine h.of_inFlight rfl rfl ?_
      intro e' he'
      obtain ⟨e, he, -, hsame⟩ := inFlight_run hstep he'
      exact ⟨e, he, hsame⟩
    . obtain ⟨e, he, hkeep⟩ := Thread.step_close hstep
      simp [h.inFlight e (.inr ⟨i, he⟩)] at hkeep

theorem initial_keepsAlive (listenSd : Int) (shared : Shared)
    : (initial listenSd shared).KeepsAlive := by
  constructor
  . intro n msg hmsg
    cases hmsg
  . intro e he
    exact absurd he (not_inFlight_initial listenSd shared e)
  . rfl

def InStep (s : Server) (past : Nat → List Bytes) : Prop :=
  ∀ i, (past i).length = (s.threads.threads i).queue.length

theorem InStep.step (h : s.InStep past) (ht : Server.step qt listenSd s l = some t)
    : t.InStep ((taken qt).extend past s l t) := by
  cases l with
  | poll l =>
    obtain ⟨poll, hpoll, rfl⟩ := step_poll ht
    exact h
  | handOver =>
    obtain ⟨e, rest, i, worker, threads, hqclients, harrive, rfl⟩ := step_handOver ht
    obtain ⟨-, rfl⟩ := Threads.arrive_cases harrive
    intro j
    have := h j
    by_cases hj : j = i
    . subst hj
      simp [taken, this]
    . simp [taken, Function.update_of_ne hj, this]
  | run i x =>
    obtain ⟨sh, t', effect, hstep, hdeliver⟩ := step_run ht
    have hthreads : t.threads
        = { shared := sh, threads := Function.update s.threads.threads i t' } := by
      obtain ⟨deliveries, rfl⟩ | ⟨e, -, hsame⟩ := deliver_cases hdeliver
      . rfl
      . exact hsame
    intro j
    simp only [taken, hstep, hthreads]
    by_cases hj : j = i
    . subst hj
      simpa using Thread.taken_length hstep effect.bytes (h j)
    . simpa [Function.update_of_ne hj] using h j

theorem carriesOutClose_iff (qt : Qt) (listenSd : Int) (shared : Shared) (s t : Server)
    (past : Nat → List Bytes) (l : Label)
    (h : ((machine qt listenSd shared).withHistory (taken qt)).Reachable (s, past))
    (ht : (machine qt listenSd shared).step s l = some t)
    : (∀ i, (past i).length = (s.threads.threads i).queue.length)
        ∧ (s.CarriesOutClose past l t ↔ ∀ i x, l = .run i x → ∀ e, ¬ s.PopsAnnounced past i e) := by
  obtain ⟨hkeeps, hinStep⟩ : s.KeepsAlive ∧ s.InStep past := by
    apply Machine.ReachBy.history_invariant (I := fun s past => s.KeepsAlive ∧ s.InStep past) _ _ h
    . rintro _ rfl
      exact ⟨initial_keepsAlive listenSd shared, fun _ => rfl⟩
    . intro s past l t hs _ ht
      exact ⟨hs.1.step ht, hs.2.step ht⟩
  refine ⟨hinStep, ?_⟩
  constructor
  . intro hcarries i x hl e hpops
    obtain ⟨c, hc, -⟩ := hcarries i x e hl hpops
    simp [(hkeeps.step ht).qclientsClose] at hc
  . intro hnone i x e hl hpops
    exact absurd hpops (hnone i x hl e)

def serveToEnd : List Label :=
  acceptFirst ++ .poll recvRequest :: .handOver :: List.replicate 7 (runA 0)

theorem exists_popsAnnounced
    : ∃ s past t e,
        ((machine Qt.unix 3 { cwd := ascii "/" }).withHistory (taken Qt.unix)).run
            (start, fun _ => []) serveToEnd = some (s, past)
          ∧ (machine Qt.unix 3 { cwd := ascii "/" }).step s (runA 0) = some t
          ∧ s.PopsAnnounced past 0 e ∧ t.poll.qclientsClose = [] := by
  have hrun : (((machine Qt.unix 3 { cwd := ascii "/" }).withHistory (taken Qt.unix)).run
      (start, fun _ => []) serveToEnd).any (fun p => (p.1.threads.threads 0).popsSent.isSome
        && (p.2 0).head? == some (responseHeader (ascii "text/plain") 2 ++ ascii "hi")
        && ((machine Qt.unix 3 { cwd := ascii "/" }).step p.1 (runA 0)).any
          (fun t => t.poll.qclientsClose.isEmpty)) := by
    decide +kernel
  obtain ⟨⟨s, past⟩, hs, hstate⟩ := (Option.any_eq_true _ _).mp hrun
  simp only [Bool.and_eq_true, beq_iff_eq, Option.any_eq_true] at hstate
  obtain ⟨⟨hpops, hresponse⟩, t, ht, hclose⟩ := hstate
  obtain ⟨e, he⟩ := Option.isSome_iff_exists.mp hpops
  refine ⟨s, past, t, e, hs, ht, ⟨he, _, hresponse, ?_⟩, by simpa using hclose⟩
  exact announcesClose_responseHeader (by decide) _ _

theorem carriesOutClose_iff_serveToEnd
    : ∃ s past t e,
        ((machine Qt.unix 3 { cwd := ascii "/" }).withHistory (taken Qt.unix)).run
            (start, fun _ => []) serveToEnd = some (s, past)
          ∧ (machine Qt.unix 3 { cwd := ascii "/" }).step s (runA 0) = some t
          ∧ s.PopsAnnounced past 0 e ∧ ¬ s.CarriesOutClose past (runA 0) t := by
  obtain ⟨s, past, t, e, hs, ht, hpops, -⟩ := exists_popsAnnounced
  refine ⟨s, past, t, e, hs, ht, hpops, ?_⟩
  have hreach : ((machine Qt.unix 3 { cwd := ascii "/" }).withHistory (taken Qt.unix)).Reachable
      (s, past) := Machine.Reachable.run (s := (start, fun _ => [])) (.init ⟨rfl, rfl⟩) serveToEnd hs
  intro hcarries
  exact (carriesOutClose_iff _ _ _ s t past (runA 0) hreach ht).2.mp hcarries 0 _ rfl e hpops

theorem not_carriesOutClose
    : ¬ ∀ s past l t,
        ((machine Qt.unix 3 { cwd := ascii "/" }).withHistory (taken Qt.unix)).Reachable (s, past) →
        (machine Qt.unix 3 { cwd := ascii "/" }).step s l = some t → s.CarriesOutClose past l t := by
  intro h
  obtain ⟨s, past, t, e, hs, ht, hpops, hclose⟩ := exists_popsAnnounced
  have hreach : ((machine Qt.unix 3 { cwd := ascii "/" }).withHistory (taken Qt.unix)).Reachable
      (s, past) := Machine.Reachable.run (s := (start, fun _ => [])) (.init ⟨rfl, rfl⟩) serveToEnd hs
  obtain ⟨c, hc, -⟩ := h s past (runA 0) t hreach ht 0 _ e rfl hpops
  simp [hclose] at hc

end Server
