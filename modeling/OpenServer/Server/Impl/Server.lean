import OpenServer.PollServer.Impl.Start
import OpenServer.Server.Impl.HandOver

/-!
This module contains the whole server: the poll loop with its composer, the hand-over of the
processor and the dispatcher threads. Sessions carry the number of the connection whose data
completed their request.
-/

open HttpMessageDispatcher

-- Bytes that a `send` for the session of connection `asked` has put on connection `got`.
structure Delivery where
  asked : Nat
  got : Nat
  bytes : Bytes
  deriving DecidableEq, Repr

structure Server where
  poll : PollServer
  worker : Nat := 0
  threads : Threads Nat Nat
  deliveries : List Delivery := []

namespace Server

inductive Label where
  | poll (l : PollServer.Label)
  | handOver
  | run (i : Nat) (x : StepInput)

def hands (s : Server) : HtmlMessageProcessor.Hands Nat where
  qclients := s.poll.qclients
  worker := s.worker
  threads := s.threads

def handOver (s : Server) : Option Server := do
  let h ← s.hands.handOver
  some { s with
    poll := { s.poll with qclients := h.qclients }
    worker := h.worker
    threads := h.threads }

-- `send` takes bytes only for a descriptor that stands for a connection.
def deliver (s : Server) : Effect Nat → Option Server
  | .quiet => some s
  | .sent e bytes =>
    match s.poll.sockets e.session.socket with
    | some (.connection k) =>
      some { s with deliveries := s.deliveries ++ [{ asked := e.tag, got := k, bytes }] }
    | _ => none
  | .close e =>
    some { s with poll := { s.poll with qclientsClose := s.poll.qclientsClose ++ [e.session] } }

-- Only dispatchers ask for closes.
def step (qt : Qt) (listenSd : Int) (s : Server) : Label → Option Server
  | .poll (.requestClose _) => none
  | .poll l => do
    let poll ← PollServer.step listenSd s.poll l
    some { s with poll }
  | .handOver => s.handOver
  | .run i x => do
    let (threads, effect) ← s.threads.runStep qt i x
    { s with threads }.deliver effect

def initial (listenSd : Int) (shared : Shared) : Server where
  poll := PollServer.initial listenSd
  threads := { shared }

def machine (qt : Qt) (listenSd : Int) (shared : Shared) : Machine Server Label where
  init s := s = initial listenSd shared
  step := step qt listenSd

end Server
