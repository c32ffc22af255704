import OpenServer.Dispatcher.Impl.Iteration
import OpenServer.Transition.Basic

/-!
This module contains the queue of one dispatcher over its iterations. Between two of them sessions
arrive, and other dispatchers change what they share with this one.
-/

namespace HttpMessageDispatcher

structure Queue (τ : Type) where
  shared : Shared
  sessions : List (Queued τ)

namespace Queue

inductive Label (τ : Type) where
  | arrive (e : Queued τ)
  | share (sh : Shared)
  | iterate (inp : Input)

def step (qt : Qt) (q : Queue τ) : Label τ → Option (Queue τ)
  | .arrive e => some { q with sessions := q.sessions ++ [e] }
  | .share sh => some { q with shared := sh }
  | .iterate inp => do
    let r ← HttpMessageDispatcher.iterate qt inp q.shared q.sessions
    some { shared := r.shared, sessions := r.queue }

def machine (qt : Qt) (q : Queue τ) : Machine (Queue τ) (Label τ) where
  init s := s = q
  step := step qt

end Queue

end HttpMessageDispatcher
