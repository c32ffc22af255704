import OpenServer.Transition.Monitor

/-!
This module contains `HTML_MessageProcessor::processMessageQueue` as the consumer of `qclients_`. The
producer is `onNewClientMessage`.
-/

namespace HtmlMessageProcessor

inductive Point where
  | wait
  | drain
  deriving DecidableEq, Repr

structure Memory (α : Type) where
  worker : Nat := 0
  handed : List (Nat × α) := []

-- The dispatcher that the branch for `worker` calls, and the `worker` it leaves.
def branch : Nat → Option (Nat × Nat)
  | 0 => some (0, 1)
  | 1 => some (1, 2)
  | 2 => some (2, 3)
  | 3 => some (3, 4)
  | 4 => some (4, 5)
  | 5 => some (5, 6)
  | 6 => some (6, 7)
  | 7 => some (7, 8)
  | 8 => some (8, 9)
  | 9 => some (9, 10)
  | 10 => some (10, 11)
  | 11 => some (11, 0)
  | _ => none

theorem branch_lt (h : branch worker = some (i, next)) : i < 12 := by
  unfold branch at h
  split at h <;> simp at h <;> omega

-- Without a branch for `worker` the loop would spin.
def Point.act (point : Point) (memory : Memory α) (queue : List α) (_ : Unit)
    : Option (Memory α × List α × Monitor.Action Point) :=
  match point, queue with
  | .wait, queue => some (memory, queue, .wait)
  | .drain, [] => some (memory, [], .unlock)
  | .drain, front :: rest =>
    match branch memory.worker with
    | some (dispatcher, worker) =>
      some ({ worker, handed := memory.handed ++ [(dispatcher, front)] }, rest, .goto .drain)
    | none => some (memory, front :: rest, .goto .drain)

def processMessageQueue : Monitor.Program Point (Memory α) α Unit where
  entry := .wait
  resume := .drain
  act := Point.act

abbrev State (ι α : Type) := Monitor.State ι Point (Memory α) α

def processor (ι α : Type) [DecidableEq ι] : Machine (State ι α) (Monitor.Label ι α Unit) :=
  Monitor.machine processMessageQueue {}

end HtmlMessageProcessor
