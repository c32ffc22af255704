import OpenServer.Dispatcher.Impl.Iteration
import OpenServer.Transition.Monitor

/-!
This module contains `dispatchMessageQueue` as the consumer of the dispatcher's queue, cut at its
accesses to the queue. The producer is `onNewMessageArrived`.
-/

namespace HttpMessageDispatcher

-- The points of the loop at which the mutex is held: the test of `size()`, the first access to
-- `front()`, the request and its send loop, the test that pops.
inductive Point where
  | test
  | rotate
  | serve
  | finish
  deriving DecidableEq, Repr

-- `shared` is `cache_` and the working directory as the other threads have left them.
structure Turn where
  shared : Shared
  input : Input

-- The memory collects what the dispatcher puts on `qclients_close`. Undefined is every access to
-- `front()` and every `pop()` of an empty queue.
def Point.act (qt : Qt) (point : Point) (closed : List ClientSession) (queue : List (Queued τ))
    (turn : Turn) : Option (List ClientSession × List (Queued τ) × Monitor.Action Point) :=
  match point, queue with
  | .test, [] => some (closed, [], .wait)
  | .test, queue => some (closed, queue, .goto .rotate)
  | _, [] => none
  | .rotate, queue => some (closed, HttpMessageDispatcher.rotate queue, .goto .serve)
  | .serve, front :: rest => do
    let (_, c, _) ← serveFront qt turn.input turn.shared front.session
    some (closed, { front with session := c } :: rest, .goto .finish)
  | .finish, front :: rest =>
    if isFinished front.session then
      some (closed ++ (closeRequest front.session).toList, rest, .unlock)
    else
      some (closed, front :: rest, .unlock)

def dispatchMessageQueue (qt : Qt)
    : Monitor.Program Point (List ClientSession) (Queued τ) Turn where
  entry := .test
  resume := .rotate
  act := Point.act qt

abbrev DispatcherState (ι τ : Type) := Monitor.State ι Point (List ClientSession) (Queued τ)

def dispatcher (ι τ : Type) [DecidableEq ι] (qt : Qt)
    : Machine (DispatcherState ι τ) (Monitor.Label ι (Queued τ) Turn) :=
  Monitor.machine (dispatchMessageQueue qt) []

end HttpMessageDispatcher
