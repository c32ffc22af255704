import OpenServer.Dispatcher.Impl.DispatchMessageQueue

/-!
This module contains what the processor and the dispatchers are for, with no mutex and no
notification: sessions are dealt in turn to twelve queues, and each queue is served one whole
iteration at a time.
-/

open HttpMessageDispatcher

structure Pipeline (τ : Type) where
  submitted : List (Queued τ) := []
  dealt : Nat := 0
  queues : Fin 12 → List (Queued τ) := fun _ => []
  left : Fin 12 → List τ := fun _ => []

namespace Pipeline

inductive Label (τ : Type) where
  | submit (e : Queued τ)
  | deal
  | iterate (d : Fin 12) (turn : Turn)

def deal (p : Pipeline τ) : Option (Pipeline τ) := do
  let e ← p.submitted[p.dealt]?
  let d : Fin 12 := ⟨p.dealt % 12, Nat.mod_lt _ (by decide)⟩
  some { p with
    dealt := p.dealt + 1
    queues := Function.update p.queues d (p.queues d ++ [e]) }

def iterate (qt : Qt) (p : Pipeline τ) (d : Fin 12) (turn : Turn) : Option (Pipeline τ) := do
  let r ← HttpMessageDispatcher.iterate qt turn.input turn.shared (p.queues d)
  some { p with
    queues := Function.update p.queues d r.queue
    left := Function.update p.left d (p.left d ++ if r.popped then [r.worked] else []) }

def step (qt : Qt) (p : Pipeline τ) : Label τ → Option (Pipeline τ)
  | .submit e => some { p with submitted := p.submitted ++ [e] }
  | .deal => p.deal
  | .iterate d turn => p.iterate qt d turn

def machine (τ : Type) (qt : Qt) : Machine (Pipeline τ) (Label τ) where
  init p := p = {}
  step := step qt

end Pipeline
