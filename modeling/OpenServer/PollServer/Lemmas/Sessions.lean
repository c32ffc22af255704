import OpenServer.PollServer.Lemmas.PartialRequests

/-!
This module contains what the serving loop does with sessions: what it records in them when their
first data arrive, when it hands them over, and what comes back as close requests.
-/

namespace PollServer

theorem step_qclients (h : step listenSd s l = some t)
    : t.qclients = s.qclients
        ∨ ∃ i currentSize k buffer msg, s.pc = .recv i currentSize ∧ l = .recv (.data buffer)
          ∧ s.sockets (s.fds i).fd = some (.connection k)
          ∧ (s.composer.onClientDataArrived (s.fds i).fd i buffer.data buffer.dataSize).2
            = some msg
          ∧ t.qclients = s.qclients ++ [⟨k, msg⟩] := by
  cases step_cases h with
  | @received i currentSize k buffer hpc hsocket =>
    cases hmsg : (s.composer.onClientDataArrived (s.fds i).fd i buffer.data buffer.dataSize).2 with
    | none =>
      left
      simp [recvData, hmsg]
    | some msg =>
      right
      refine ⟨i, currentSize, k, buffer, msg, hpc, rfl, hsocket, hmsg, ?_⟩
      simp [recvData, hmsg]
  | _ => exact .inl rfl

theorem step_keyed (hkeyed : s.composer.Keyed) (h : step listenSd s l = some t)
    : t.composer.Keyed := by
  obtain ⟨hcomposer, -⟩ | ⟨i, currentSize, k, buffer, -, -, -, rfl⟩ := step_composer h
  . rwa [hcomposer]
  . exact hkeyed.onClientDataArrived _ _ _ _

theorem step_qclientsClose (h : step listenSd s l = some t)
    : t.qclientsClose = s.qclientsClose ∨ t.qclientsClose = []
        ∨ ∃ c, l = .requestClose c ∧ t.qclientsClose = s.qclientsClose ++ [c] := by
  cases step_cases h with
  | checked hpc => exact .inr (.inl rfl)
  | requested => exact .inr (.inr ⟨_, rfl, rfl⟩)
  | _ => exact .inl rfl

-- Close requests are for sessions that were handed over. Dispatchers change neither the descriptor
-- nor the slot of a session.
def FromSessions (s : PollServer) (l : Label) : Prop :=
  ∀ c, l = .requestClose c →
    ∃ e ∈ s.qclients, e.session.socket = c.socket ∧ e.session.fdsIndex = c.fdsIndex

structure Records (P : Int → Nat → Prop) (s : PollServer) : Prop where
  composer : s.composer.Records P
  qclients : ∀ e ∈ s.qclients, P e.session.socket e.session.fdsIndex
  qclientsClose : ∀ c ∈ s.qclientsClose, P c.socket c.fdsIndex

theorem Records.init (P : Int → Nat → Prop) (listenSd : Int) : (initial listenSd).Records P := by
  constructor
  . intro n msg hmsg
    cases hmsg
  . simp [initial]
  . simp [initial]

theorem Records.step {s t : PollServer} (h : s.Records P) (hg : FromSessions s l)
    (hrecv : ∀ i currentSize k, s.pc = .recv i currentSize →
      s.sockets (s.fds i).fd = some (.connection k) → P (s.fds i).fd i)
    (ht : step listenSd s l = some t)
    : t.Records P := by
  constructor
  . obtain ⟨hcomposer, -⟩ | ⟨i, currentSize, k, buffer, hpc, -, hsocket, rfl⟩ := step_composer ht
    . rw [hcomposer]
      exact h.composer
    . exact h.composer.onClientDataArrived (hrecv i currentSize k hpc hsocket) _ _
  . obtain hqclients | ⟨i, currentSize, k, buffer, msg, hpc, -, hsocket, hmsg, hqclients⟩ :=
      step_qclients ht
    . rw [hqclients]
      exact h.qclients
    . intro e he
      simp only [hqclients, List.mem_append, List.mem_singleton] at he
      cases he with
      | inl he => exact h.qclients e he
      | inr he =>
        rw [he]
        exact h.composer.message (hrecv i currentSize k hpc hsocket) hmsg
  . obtain hsame | hnone | ⟨c, rfl, hadded⟩ := step_qclientsClose ht
    . rw [hsame]
      exact h.qclientsClose
    . simp [hnone]
    . intro c' hc'
      simp only [hadded, List.mem_append, List.mem_singleton] at hc'
      cases hc' with
      | inl hc' => exact h.qclientsClose c' hc'
      | inr hc' =>
        obtain ⟨e, he, hsocket, hindex⟩ := hg c rfl
        rw [hc', ← hsocket, ← hindex]
        exact h.qclients e he

end PollServer
