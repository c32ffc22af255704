import Mathlib.Data.List.Forall2
import OpenServer.PollServer.Lemmas.OpenSockets

/-!
This module shows when `checkClosedSessions` closes exactly the connections that it was asked to close.
A close request has only a descriptor and the slot that was recorded with the first data, and the list
of requests is cleared whether or not they matched.
-/

namespace PollServer

variable {listenSd : Int} {s t : PollServer}

def Lists (s : PollServer) (listed : List (Queued Nat)) : Prop :=
  List.Forall₂ (fun c e => e ∈ s.qclients ∧ e.session.socket = c.socket
    ∧ e.session.fdsIndex = c.fdsIndex) s.qclientsClose listed

def Found (s : PollServer) (e : Queued Nat) : Prop :=
  (s.fds e.session.fdsIndex).fd = e.session.socket

theorem mem_closeSessions_iff {fds : Nat → PollFd} {cs : List ClientSession} {n : Int}
    (hcs : ∀ c ∈ cs, 0 < c.socket)
    : n ∈ (closeSessions fds cs).2 ↔ ∃ c ∈ cs, c.socket = n ∧ (fds c.fdsIndex).fd = n := by
  induction cs generalizing fds with
  | nil => simp [closeSessions]
  | cons c cs ih =>
    obtain ⟨hpos, hrest⟩ := List.forall_mem_cons.mp hcs
    simp only [closeSessions]
    split
    . next hfd =>
      rw [List.mem_cons, ih hrest]
      constructor
      . rintro (rfl | ⟨c', hc', rfl, hfd'⟩)
        . exact ⟨c, by simp, rfl, hfd⟩
        . have hne : c'.fdsIndex ≠ c.fdsIndex := by
            intro heq
            rw [heq, Function.update_self] at hfd'
            have := hrest c' hc'
            simp only at hfd'
            omega
          rw [Function.update_of_ne hne] at hfd'
          exact ⟨c', by simp [hc'], rfl, hfd'⟩
      . rintro ⟨c', hc', rfl, hfd'⟩
        by_cases hsame : c'.socket = c.socket
        . exact .inl hsame
        . right
          cases List.mem_cons.mp hc' with
          | inl hc' => exact absurd (congrArg (·.socket) hc') hsame
          | inr hc' =>
            refine ⟨c', hc', rfl, ?_⟩
            rw [Function.update_of_ne, hfd']
            intro heq
            rw [heq, hfd] at hfd'
            exact hsame hfd'.symm
    . next hfd =>
      rw [ih hrest]
      constructor
      . rintro ⟨c', hc', hsocket, hfd'⟩
        exact ⟨c', by simp [hc'], hsocket, hfd'⟩
      . rintro ⟨c', hc', hsocket, hfd'⟩
        cases List.mem_cons.mp hc' with
        | inl hc' =>
          subst hc'
          exact absurd (hfd'.trans hsocket.symm) hfd
        | inr hc' => exact ⟨c', hc', hsocket, hfd'⟩

-- While the connection of a message is open it has the descriptor that the message names.
structure Named (listenSd : Int) (s : PollServer) : Prop where
  sound : s.Sound listenSd
  numbered : s.Numbered
  keyed : s.composer.Keyed
  lt : ∀ e ∈ s.qclients, e.tag < s.nextConnection
  socket : ∀ e ∈ s.qclients, ∀ n, s.sockets n = some (.connection e.tag) → n = e.session.socket
  listener : ∀ n, s.sockets n = some .listener → n = listenSd

theorem Named.init (hlisten : 0 ≤ listenSd) : (initial listenSd).Named listenSd where
  sound := .init hlisten
  numbered := by constructor <;> simp [initial]
  keyed n msg hmsg := by cases hmsg
  lt := by simp [initial]
  socket := by simp [initial]
  listener := by simp [initial]

theorem Named.step (hlisten : 0 ≤ listenSd) (h : s.Named listenSd) (hg : FromSessions s l)
    (ht : PollServer.step listenSd s l = some t)
    : t.Named listenSd := by
  obtain ⟨hnext, newSd, hold⟩ := step_connections ht
  have hsocket : ∀ e ∈ s.qclients, ∀ n, t.sockets n = some (.connection e.tag) →
      n = e.session.socket := by
    intro e he n hn
    have hlt := h.lt e he
    rcases hold n _ hn with hn | ⟨-, hnew, -⟩
    . exact h.socket e he n hn
    . omega
  constructor
  . exact h.sound.step hlisten hg ht
  . exact h.numbered.step ht
  . exact step_keyed h.keyed ht
  . obtain hqclients | ⟨i, currentSize, k, buffer, msg, -, -, hsocket, -, hqclients⟩ :=
      step_qclients ht
    . intro e he
      rw [hqclients] at he
      exact Nat.lt_of_lt_of_le (h.lt e he) hnext
    . intro e he
      simp only [hqclients, List.mem_append, List.mem_singleton] at he
      rcases he with he | rfl
      . exact Nat.lt_of_lt_of_le (h.lt e he) hnext
      . exact Nat.lt_of_lt_of_le (h.numbered.lt _ k hsocket) hnext
  . intro e he n hn
    obtain hqclients | ⟨i, currentSize, k, buffer, msg, -, -, hk, hmsg, hqclients⟩ :=
      step_qclients ht
    . rw [hqclients] at he
      exact hsocket e he n hn
    . simp only [hqclients, List.mem_append, List.mem_singleton] at he
      rcases he with he | rfl
      . exact hsocket e he n hn
      . have hlt := h.numbered.lt _ k hk
        rw [h.keyed.message_socket hmsg]
        rcases hold n _ hn with hn | ⟨-, hnew, -⟩
        . exact h.numbered.inj n _ k hn hk
        . have hnew : k = s.nextConnection := hnew
          omega
  . intro n hn
    obtain ⟨-, hsockets⟩ | ⟨newSd, -, -, hsockets⟩ := step_opened ht
    . cases hsockets n with
      | inl hsame => exact h.listener n (by rw [← hsame, hn])
      | inr hnone => simp [hnone] at hn
    . rw [hsockets] at hn
      by_cases hnew : n = newSd
      . simp [hnew] at hn
      . rw [Function.update_of_ne hnew] at hn
        exact h.listener n hn

theorem exists_of_forall₂ {R : α → β → Prop} (h : List.Forall₂ R as bs) (ha : a ∈ as)
    : ∃ b ∈ bs, R a b := by
  induction h with
  | nil => cases ha
  | @cons a' b as bs hhead _ ih =>
    cases List.mem_cons.mp ha with
    | inl hfirst => exact ⟨b, by simp, hfirst ▸ hhead⟩
    | inr hrest =>
      obtain ⟨b', hb', hrel⟩ := ih hrest
      exact ⟨b', by simp [hb'], hrel⟩

theorem Lists.exists_listed (hlists : s.Lists listed) (hc : c ∈ s.qclientsClose)
    : ∃ e ∈ listed, e ∈ s.qclients ∧ e.session.socket = c.socket
        ∧ e.session.fdsIndex = c.fdsIndex :=
  exists_of_forall₂ hlists hc

theorem Lists.exists_request (hlists : s.Lists listed) (he : e ∈ listed)
    : ∃ c ∈ s.qclientsClose, e ∈ s.qclients ∧ e.session.socket = c.socket
        ∧ e.session.fdsIndex = c.fdsIndex :=
  exists_of_forall₂ (List.Forall₂.flip hlists) he

theorem Lists.mem_closed_iff (hlists : s.Lists listed) (h : s.Sound listenSd) (n : Int)
    : n ∈ (closeSessions s.fds s.qclientsClose).2
        ↔ ∃ e ∈ listed, e.session.socket = n ∧ s.Found e := by
  rw [mem_closeSessions_iff h.qclientsClose_pos]
  constructor
  . rintro ⟨c, hc, rfl, hfd⟩
    obtain ⟨e, he, -, hsocket, hindex⟩ := hlists.exists_listed hc
    exact ⟨e, he, hsocket, by rw [Found, hindex, hfd, hsocket]⟩
  . rintro ⟨e, he, rfl, hfound⟩
    obtain ⟨c, hc, -, hsocket, hindex⟩ := hlists.exists_request he
    exact ⟨c, hc, hsocket.symm, by rw [← hindex, hfound]⟩

theorem Lists.checked (hlists : s.Lists listed) (h : s.Sound listenSd)
    (ht : step listenSd s .checkClosedSessions = some t) (n : Int)
    : (∃ e ∈ listed, e.session.socket = n ∧ s.Found e) ∧ s.sockets n ≠ none ∧ t.sockets n = none
        ∨ (¬ ∃ e ∈ listed, e.session.socket = n ∧ s.Found e) ∧ t.sockets n = s.sockets n := by
  rw [← hlists.mem_closed_iff h]
  cases step_cases ht with
  | checked hpc =>
    by_cases hclosed : n ∈ (closeSessions s.fds s.qclientsClose).2
    . obtain ⟨hpos, i, hi, hfd⟩ :=
        (closeSessions_closed h.tracks h.qclientsClose_pos).2 n hclosed
      have hopen := h.tracks.opened i hi (by omega)
      rw [hfd] at hopen
      exact .inl ⟨hclosed, hopen, if_pos hclosed⟩
    . exact .inr ⟨hclosed, if_neg hclosed⟩

end PollServer
