import OpenServer.Dispatcher.Impl.DispatchMessageQueue
import OpenServer.Processor.Impl.ProcessMessageQueue
import OpenServer.Transition.Locks

/-!
This module contains the poll thread, the processor and the dispatchers over their mutexes. Every
queue with its mutex is a monitor: the poll thread is the producer of `qclients_`, the processor its
consumer and, while it holds `qclients_mutex_`, the producer of the queues of the dispatchers.
-/

open HttpMessageDispatcher HtmlMessageProcessor

namespace Locking

inductive Mutex where
  | qclients
  | sessionsReqResp (d : Fin 12)
  | qclientsClose

inductive ThreadId where
  | poll
  | processor
  | dispatcher (d : Fin 12)
  deriving DecidableEq, Repr

inductive ClosePc where
  | outside
  | locking
  | locked
  | unlocked
  deriving DecidableEq, Repr

-- Where the processor stands with the front of its queue: inside `onNewMessageArrived` from the call
-- on, and past it.
inductive HandOver where
  | pending
  | calling (d : Fin 12)
  | returned
  deriving DecidableEq, Repr

inductive ProducerStep where
  | lock
  | push
  | unlock
  | notifyOne

inductive ConsumerStep (β : Type) where
  | lock
  | act (x : β)
  | wake
  | spurious

def ProducerStep.label : ProducerStep → Monitor.Label Unit α β
  | .lock => .lockProducer ()
  | .push => .push ()
  | .unlock => .unlockProducer ()
  | .notifyOne => .notifyOne ()

-- `onNewMessageArrived` returns with the notification.
def ProducerStep.handOver (d : Fin 12) : ProducerStep → HandOver
  | .notifyOne => .returned
  | _ => .calling d

def ConsumerStep.label : ConsumerStep β → Monitor.Label Unit α β
  | .lock => .lock
  | .act x => .act x
  | .wake => .wake
  | .spurious => .spurious

structure State (τ : Type) where
  processor : HtmlMessageProcessor.State Unit (Queued τ) := Monitor.initial {}
  handOver : HandOver := .pending
  dispatchers : Fin 12 → DispatcherState Unit τ := fun _ => Monitor.initial []
  closeOwner : Option ThreadId := none
  checking : ClosePc := .outside
  closing : Fin 12 → ClosePc := fun _ => .outside
  qclientsClose : List ClientSession := []

inductive Label (τ : Type) where
  | onNewClientMessage (e : Queued τ)
  | poll (p : ProducerStep)
  | checkClosedSessions
  | lockClose
  | clear
  | checked
  | processor (c : ConsumerStep Unit)
  | onNewMessageArrived
  | handOver (p : ProducerStep)
  | dispatcher (d : Fin 12) (c : ConsumerStep Turn)
  | requestClose (d : Fin 12)
  | lockRequest (d : Fin 12)
  | pushBack (d : Fin 12)

namespace State

def setDispatcher (s : State τ) (d : Fin 12) (q : DispatcherState Unit τ) : State τ :=
  { s with dispatchers := Function.update s.dispatchers d q }

def setClosing (s : State τ) (d : Fin 12) (pc : ClosePc) : State τ :=
  { s with closing := Function.update s.closing d pc }

-- The session that the dispatcher is about to put on `qclients_close`.
def asksFor (q : DispatcherState Unit τ) : Option ClientSession :=
  match q.consumer, q.queue with
  | .inside .finish, front :: _ =>
    if isFinished front.session then closeRequest front.session else none
  | _, _ => none

-- The processor pops the front of its queue only after `onNewMessageArrived` has returned.
def mayPop (s : State τ) : Bool :=
  match s.processor.consumer, s.processor.queue with
  | .inside .drain, _ :: _ => s.handOver == .returned
  | _, _ => s.handOver == .pending

-- The dispatcher pops the front of its queue only after its close request.
def mayFinish (s : State τ) (d : Fin 12) : Bool :=
  match asksFor (s.dispatchers d) with
  | some _ => s.closing d == .unlocked
  | none => s.closing d == .outside

end State

def step (qt : Qt) (s : State τ) : Label τ → Option (State τ)
  | .onNewClientMessage e =>
    if s.checking = .outside then do
      let processor ← Monitor.step processMessageQueue s.processor (.call () e)
      some { s with processor }
    else
      none
  | .poll p => do
    let processor ← Monitor.step processMessageQueue s.processor p.label
    some { s with processor }
  | .checkClosedSessions =>
    match s.checking, s.processor.producers () with
    | .outside, .idle => some { s with checking := .locking }
    | _, _ => none
  | .lockClose =>
    match s.checking, s.closeOwner with
    | .locking, none => some { s with checking := .locked, closeOwner := some .poll }
    | _, _ => none
  | .clear =>
    match s.checking with
    | .locked => some { s with checking := .unlocked, closeOwner := none, qclientsClose := [] }
    | _ => none
  | .checked =>
    match s.checking with
    | .unlocked => some { s with checking := .outside }
    | _ => none
  | .processor c =>
    if s.mayPop then do
      let processor ← Monitor.step processMessageQueue s.processor c.label
      some { s with processor, handOver := .pending }
    else
      none
  | .onNewMessageArrived =>
    match s.handOver, s.processor.consumer, s.processor.queue with
    | .pending, .inside .drain, front :: _ => do
      let (dispatcher, _) ← branch s.processor.memory.worker
      let d := Fin.ofNat 12 dispatcher
      let q ← Monitor.step (dispatchMessageQueue qt) (s.dispatchers d) (.call () front)
      some { s.setDispatcher d q with handOver := .calling d }
    | _, _, _ => none
  | .handOver p =>
    match s.handOver with
    | .calling d => do
      let q ← Monitor.step (dispatchMessageQueue qt) (s.dispatchers d) p.label
      some { s.setDispatcher d q with handOver := p.handOver d }
    | _ => none
  | .dispatcher d c =>
    if s.mayFinish d then do
      let q ← Monitor.step (dispatchMessageQueue qt) (s.dispatchers d) c.label
      some ((s.setDispatcher d q).setClosing d .outside)
    else
      none
  | .requestClose d =>
    match s.closing d, State.asksFor (s.dispatchers d) with
    | .outside, some _ => some (s.setClosing d .locking)
    | _, _ => none
  | .lockRequest d =>
    match s.closing d, s.closeOwner with
    | .locking, none => some { s.setClosing d .locked with closeOwner := some (.dispatcher d) }
    | _, _ => none
  | .pushBack d =>
    match s.closing d with
    | .locked =>
      some { s.setClosing d .unlocked with
        closeOwner := none,
        qclientsClose := s.qclientsClose ++ (State.asksFor (s.dispatchers d)).toList }
    | _ => none

def machine (τ : Type) (qt : Qt) : Machine (State τ) (Label τ) where
  init s := s = {}
  step := step qt

namespace State

def owner (s : State τ) : Mutex → Option ThreadId
  | .qclients => s.processor.owner.map fun
    | .consumer => .processor
    | .producer () => .poll
  | .sessionsReqResp d => (s.dispatchers d).owner.map fun
    | .consumer => .dispatcher d
    | .producer () => .processor
  | .qclientsClose => s.closeOwner

-- The next operation of the thread locks the mutex, or the thread returns from `wait` and takes it
-- back.
inductive Waits (s : State τ) : ThreadId → Mutex → Prop where
  | onNewClientMessage : s.processor.producers () = .calling e → Waits s .poll .qclients
  | checkClosedSessions : s.checking = .locking → Waits s .poll .qclientsClose
  | processMessageQueue : s.processor.consumer = .outside → Waits s .processor .qclients
  | awake : s.processor.consumer = .notified → Waits s .processor .qclients
  | onNewMessageArrived : (s.dispatchers d).producers () = .calling e
      → Waits s .processor (.sessionsReqResp d)
  | dispatchMessageQueue : (s.dispatchers d).consumer = .outside
      → Waits s (.dispatcher d) (.sessionsReqResp d)
  | awakeDispatcher : (s.dispatchers d).consumer = .notified
      → Waits s (.dispatcher d) (.sessionsReqResp d)
  | requestClose : s.closing d = .locking → Waits s (.dispatcher d) .qclientsClose

def locks (s : State τ) : Locks ThreadId Mutex where
  holds t m := s.owner m = some t
  waits := s.Waits

end State

end Locking
