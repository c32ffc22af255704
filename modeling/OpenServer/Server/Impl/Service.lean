import OpenServer.Server.Impl.HandOver

/-!
This module contains the way of complete requests through the processor to the dispatcher threads,
for connections that stay open. A request is marked with its connection and its number there.
-/

open HttpMessageDispatcher

structure Service (κ : Type) where
  received : κ → Nat := fun _ => 0
  qclients : List (Queued (κ × Nat)) := []
  worker : Nat := 0
  threads : Threads Nat (κ × Nat)

namespace Service

inductive Label (κ : Type) where
  | receive (k : κ) (c : ClientSession)
  | handOver
  | run (i : Nat) (x : StepInput)

def hands (s : Service κ) : HtmlMessageProcessor.Hands (κ × Nat) where
  qclients := s.qclients
  worker := s.worker
  threads := s.threads

def handOver (s : Service κ) : Option (Service κ) := do
  let h ← s.hands.handOver
  some { s with qclients := h.qclients, worker := h.worker, threads := h.threads }

variable [DecidableEq κ]

def receive (s : Service κ) (k : κ) (c : ClientSession) : Service κ :=
  { s with
    received := Function.update s.received k (s.received k + 1)
    qclients := s.qclients ++ [{ tag := (k, s.received k), session := c }] }

def step (qt : Qt) (s : Service κ) : Label κ → Option (Service κ)
  | .receive k c => some (s.receive k c)
  | .handOver => s.handOver
  | .run i x => do
    let (threads, _) ← s.threads.runStep qt i x
    some { s with threads }

def machine (κ : Type) [DecidableEq κ] (qt : Qt) (shared : Shared)
    : Machine (Service κ) (Label κ) where
  init s := s = { threads := { shared } }
  step := step qt

end Service
