import OpenServer.Transition.Basic

/-!
This module contains a monitor: a queue guarded by one mutex with one condition variable, filled by
any number of producers and emptied by one consumer. A producer locks, pushes, unlocks and then
notifies. What the consumer does while it holds the mutex is a `Program`; between two of its steps
it may go on, wait on the condition variable (which releases the mutex in the same step) or unlock.
-/

namespace Monitor

inductive ProducerPc (α : Type u) where
  | idle
  | calling (a : α)
  | locked (a : α)
  | pushed
  | unlocked

inductive ConsumerPc (κ : Type u) where
  | outside
  | inside (k : κ)
  | blocked
  | notified

inductive Holder (ι : Type u) where
  | consumer
  | producer (i : ι)

structure State (ι κ μ α : Type) where
  owner : Option (Holder ι)
  queue : List α
  producers : ι → ProducerPc α
  consumer : ConsumerPc κ
  memory : μ

inductive Action (κ : Type u) where
  | goto (k : κ)
  | wait
  | unlock

structure Program (κ μ α β : Type) where
  entry : κ
  resume : κ
  act : κ → μ → List α → β → Option (μ × List α × Action κ)

inductive Label (ι α β : Type) where
  | call (i : ι) (a : α)
  | lockProducer (i : ι)
  | push (i : ι)
  | unlockProducer (i : ι)
  | notifyOne (i : ι)
  | lock
  | act (x : β)
  | wake
  | spurious

-- `notify_one` is lost when nobody waits.
def ConsumerPc.notify : ConsumerPc κ → ConsumerPc κ
  | .blocked => .notified
  | pc => pc

def Program.after (P : Program κ μ α β) (s : State ι κ μ α) (k : κ) (x : β)
    : Option (State ι κ μ α) :=
  match P.act k s.memory s.queue x with
  | none => none
  | some (memory, queue, .goto k') => some { s with memory, queue, consumer := .inside k' }
  | some (memory, queue, .wait) => some { s with memory, queue, consumer := .blocked, owner := none }
  | some (memory, queue, .unlock) => some { s with memory, queue, consumer := .outside, owner := none }

variable [DecidableEq ι]

def State.setProducer (s : State ι κ μ α) (i : ι) (pc : ProducerPc α) : State ι κ μ α :=
  { s with producers := Function.update s.producers i pc }

def step (P : Program κ μ α β) (s : State ι κ μ α) : Label ι α β → Option (State ι κ μ α)
  | .call i a =>
    match s.producers i with
    | .idle => some (s.setProducer i (.calling a))
    | _ => none
  | .lockProducer i =>
    match s.producers i, s.owner with
    | .calling a, none => some { s.setProducer i (.locked a) with owner := some (.producer i) }
    | _, _ => none
  | .push i =>
    match s.producers i with
    | .locked a => some { s.setProducer i .pushed with queue := s.queue ++ [a] }
    | _ => none
  | .unlockProducer i =>
    match s.producers i with
    | .pushed => some { s.setProducer i .unlocked with owner := none }
    | _ => none
  | .notifyOne i =>
    match s.producers i with
    | .unlocked => some { s.setProducer i .idle with consumer := s.consumer.notify }
    | _ => none
  | .lock =>
    match s.consumer, s.owner with
    | .outside, none => some { s with consumer := .inside P.entry, owner := some .consumer }
    | _, _ => none
  | .act x =>
    match s.consumer with
    | .inside k => P.after s k x
    | _ => none
  | .wake =>
    match s.consumer, s.owner with
    | .notified, none => some { s with consumer := .inside P.resume, owner := some .consumer }
    | _, _ => none
  | .spurious =>
    match s.consumer with
    | .blocked => some { s with consumer := .notified }
    | _ => none

def initial (memory : μ) : State ι κ μ α where
  owner := none
  queue := []
  producers := fun _ => .idle
  consumer := .outside
  memory := memory

def machine (P : Program κ μ α β) (memory : μ) : Machine (State ι κ μ α) (Label ι α β) where
  init s := s = initial memory
  step := step P

end Monitor
