import OpenServer.Composer.Lemmas.Reassembly
import OpenServer.PollServer.Lemmas.Step

/-!
This module shows when the half requests that the composer keeps belong to connections that are open:
nobody tells the composer about a disconnect.
-/

namespace PollServer

variable {listenSd : Int}

def Owned (s : PollServer) : Prop :=
  ∀ n msg, s.composer.messages n = some msg →
    ∃ k, s.sockets n = some (.connection k) ∧ s.startedBy n = some k

def ClosesIdle (s : PollServer) (l : Label) : Prop :=
  ∀ n, Closes s l n → s.composer.messages n = none

theorem step_composer (h : step listenSd s l = some t)
    : t.composer = s.composer ∧ t.startedBy = s.startedBy
        ∨ ∃ i currentSize k buffer, s.pc = .recv i currentSize ∧ l = .recv (.data buffer)
          ∧ s.sockets (s.fds i).fd = some (.connection k) ∧ t = recvData s i k buffer := by
  cases step_cases h with
  | received hpc hsocket => exact .inr ⟨_, _, _, _, hpc, rfl, hsocket, rfl⟩
  | _ => exact .inl ⟨rfl, rfl⟩

theorem Owned.recvData {s : PollServer} (h : s.Owned) (buffer : RecvBuffer)
    (hsocket : s.sockets (s.fds i).fd = some (.connection k))
    : (recvData s i k buffer).Owned := by
  intro n msg hmsg
  by_cases hn : n = (s.fds i).fd
  . subst hn
    refine ⟨k, hsocket, ?_⟩
    simp only [PollServer.recvData]
    split
    . simp
    . next hstored =>
      obtain ⟨stored, hstored⟩ := Option.ne_none_iff_exists'.mp hstored
      obtain ⟨k', hk', hstarted⟩ := h _ stored hstored
      simp_all
  . have hkept := HtmlMessageComposer.onClientDataArrived_messages_of_ne s.composer i buffer.data
      buffer.dataSize hn
    obtain ⟨k', hk', hstarted⟩ := h n msg (hkept ▸ hmsg)
    refine ⟨k', hk', ?_⟩
    simp only [PollServer.recvData]
    split
    . rwa [Function.update_of_ne hn]
    . exact hstarted

theorem Owned.step {s t : PollServer} (h : s.Owned) (hg : ClosesIdle s l)
    (ht : PollServer.step listenSd s l = some t)
    : t.Owned := by
  obtain ⟨hcomposer, hstarted⟩ | ⟨i, currentSize, k, buffer, -, -, hsocket, rfl⟩ := step_composer ht
  . intro n msg hmsg
    rw [hcomposer] at hmsg
    obtain ⟨k, hk, hstartedBy⟩ := h n msg hmsg
    refine ⟨k, ?_, by rw [hstarted, hstartedBy]⟩
    obtain ⟨hclose, -⟩ | ⟨-, hsame | ⟨-, hfree, -⟩⟩ := step_sockets ht n
    . simp [hg n hclose] at hmsg
    . rw [hsame, hk]
    . simp [hfree] at hk
  . exact h.recvData buffer hsocket

theorem not_owned_of_not_closesIdle (hg : ¬ ClosesIdle s l) (ht : step listenSd s l = some t)
    : ¬ t.Owned := by
  intro howned
  simp only [ClosesIdle, not_forall] at hg
  obtain ⟨n, hclose, hmsg⟩ := hg
  obtain ⟨msg, hmsg⟩ := Option.ne_none_iff_exists'.mp hmsg
  obtain ⟨-, hclosed⟩ | ⟨hopen, -⟩ := step_sockets ht n
  . obtain ⟨hcomposer, -⟩ | ⟨i, currentSize, k, buffer, hpc, rfl, -⟩ := step_composer ht
    . obtain ⟨k, hk, -⟩ := howned n msg (by rw [hcomposer, hmsg])
      simp [hclosed] at hk
    . simp [Closes, hpc] at hclose
  . exact hopen hclose

theorem owned_iff (listenSd : Int)
    : (∀ s, (machine listenSd).ReachBy ClosesIdle s → s.Owned)
        ∧ ∀ s t l, ¬ ClosesIdle s l → (machine listenSd).step s l = some t → ¬ t.Owned := by
  constructor
  . intro s hs
    apply Machine.ReachBy.invariant _ _ hs
    . rintro _ rfl n msg hmsg
      cases hmsg
    . intro s l t howned hg ht
      exact howned.step hg ht
  . intro s t l hg ht
    exact not_owned_of_not_closesIdle hg ht

def acceptThenRead : List Label :=
  [.poll 1 false (fun i => if i = 0 then pollIn else 0), .checkClosedSessions, .scan, .accept 5,
    .accept (-1), .scan, .compress,
    .poll 1 false (fun i => if i = 1 then pollIn else 0), .checkClosedSessions, .scan, .scan]

def recvHalf : Label :=
  .recv (.data HtmlMessageComposer.requestLine.toRecvBuffer)

theorem closesIdle_of_idle {s : PollServer} (h : s.composer = {}) : ClosesIdle s l := by
  intro n _
  rw [h]

theorem owned_iff_recvHalf
    : ∃ s, (machine 3).run (initial 3) (acceptThenRead ++ [recvHalf]) = some s
        ∧ s.composer.messages 5 ≠ none ∧ s.Owned := by
  obtain ⟨s, hs, hidle, t, ht, hmsg⟩ : ∃ s, (machine 3).run (initial 3) acceptThenRead = some s
      ∧ s.composer = {} ∧ ∃ t, (machine 3).step s recvHalf = some t
        ∧ t.composer.messages 5 ≠ none := ⟨_, rfl, rfl, _, rfl, nofun⟩
  have hreach : (machine 3).ReachBy ClosesIdle s := by
    refine Machine.ReachBy.run_invariant (I := fun s => s.composer = {}) (.init rfl) acceptThenRead
      rfl ?_ hs
    intro l hl s hidle
    refine ⟨closesIdle_of_idle hidle, ?_⟩
    intro t ht
    obtain ⟨hsame, -⟩ | ⟨_, _, _, _, -, rfl, -⟩ := step_composer ht
    . rw [hsame, hidle]
    . simp [acceptThenRead] at hl
  refine ⟨t, ?_, hmsg, (owned_iff 3).1 t (.step hreach (closesIdle_of_idle hidle) ht)⟩
  simp [Machine.run_append, hs, Machine.run_cons, ht]

theorem not_owned : ¬ ∀ s, (machine 3).Reachable s → s.Owned := by
  intro h
  obtain ⟨s, hs, hmsg, hclosed⟩ : ∃ s, (machine 3).run (initial 3)
      (acceptThenRead ++ [recvHalf, .recv .closed]) = some s
      ∧ s.composer.messages 5 ≠ none ∧ s.sockets 5 = none := ⟨_, rfl, nofun, rfl⟩
  obtain ⟨msg, hmsg⟩ := Option.ne_none_iff_exists'.mp hmsg
  obtain ⟨k, hk, -⟩ := h s (Machine.Reachable.run (.init rfl) _ hs) 5 msg hmsg
  simp [hclosed] at hk

end PollServer
