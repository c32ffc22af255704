import OpenServer.Composer.Impl.OnClientDataArrived
import OpenServer.Transition.Basic

/-!
This module contains the serving loop of `PollServer::start` with the composer that it feeds, cut at
its system calls and at `checkClosedSessions`. Connections are numbered in the order of their
acceptance and are something other than the descriptors that stand for them.
-/

structure PollFd where
  fd : Int := 0
  events : BitVec 16 := 0
  revents : BitVec 16 := 0
  deriving DecidableEq, Repr

def pollIn : BitVec 16 := 1
def pollOut : BitVec 16 := 4
def pollErr : BitVec 16 := 8
def pollHup : BitVec 16 := 16
def pollNval : BitVec 16 := 32

inductive Endpoint where
  | listener
  | connection (k : Nat)
  deriving DecidableEq, Repr

inductive RecvResult where
  | data (buffer : RecvBuffer)
  | closed
  | wouldBlock
  | failed

namespace PollServer

inductive Pc where
  | poll
  | checkClosedSessions (rc : Int) (einval : Bool)
  | scan (i currentSize : Nat)
  | accept (i currentSize : Nat)
  | recv (i currentSize : Nat)
  | compress
  deriving DecidableEq, Repr

end PollServer

-- `sockets` is the kernel's view of the descriptors. `startedBy` records, beside the composer's
-- entry for a descriptor, the connection whose data made it; the tag of a message in `qclients` is
-- the connection whose data completed it.
structure PollServer where
  fds : Nat → PollFd
  nfds : Nat := 1
  compressArray : Bool := false
  pc : PollServer.Pc := .poll
  sockets : Int → Option Endpoint
  nextConnection : Nat := 0
  composer : HtmlMessageComposer := {}
  startedBy : Int → Option Nat := fun _ => none
  qclients : List (Queued Nat) := []
  qclientsClose : List ClientSession := []

namespace PollServer

inductive Label where
  | poll (rc : Int) (einval : Bool) (revents : Nat → BitVec 16)
  | checkClosedSessions
  | scan
  | accept (newSd : Int)
  | recv (result : RecvResult)
  | compress
  | requestClose (c : ClientSession)

def Reported (fds : Nat → PollFd) (nfds : Nat) (revents : Nat → BitVec 16) : Prop :=
  ∀ i < nfds, if (fds i).fd < 0 then revents i = 0
    else revents i &&& ~~~ ((fds i).events ||| pollErr ||| pollHup ||| pollNval) = 0

instance (fds : Nat → PollFd) (nfds : Nat) (revents : Nat → BitVec 16)
    : Decidable (Reported fds nfds revents) :=
  inferInstanceAs (Decidable (∀ i < nfds, _))

def setRevents (fds : Nat → PollFd) (nfds : Nat) (revents : Nat → BitVec 16) : Nat → PollFd :=
  fun i => if i < nfds then { fds i with revents := revents i } else fds i

def closeSessions (fds : Nat → PollFd) : List ClientSession → (Nat → PollFd) × List Int
  | [] => (fds, [])
  | c :: cs =>
    if (fds c.fdsIndex).fd = c.socket then
      let rest := closeSessions (Function.update fds c.fdsIndex { fd := -1 }) cs
      (rest.1, c.socket :: rest.2)
    else
      closeSessions fds cs

def closeAll (sockets : Int → Option Endpoint) (closed : List Int) : Int → Option Endpoint :=
  fun n => if n ∈ closed then none else sockets n

-- `if (fds[i].fd > 0) close(fds[i].fd)`
def closeIfPositive (fd : Int) : List Int :=
  if fd > 0 then [fd] else []

def shift (fds : Nat → PollFd) (nfds i : Nat) : Nat → PollFd :=
  fun j => if i ≤ j ∧ j < nfds then fds (j + 1) else fds j

def compressFrom (fds : Nat → PollFd) (nfds i : Nat) : (Nat → PollFd) × Nat :=
  if i < nfds then
    if (fds i).fd = -1 then
      compressFrom (shift fds nfds i) (nfds - 1) (i + 1)
    else
      compressFrom fds nfds (i + 1)
  else
    (fds, nfds)
termination_by nfds - i

def scan (listenSd : Int) (s : PollServer) (i currentSize : Nat) : PollServer :=
  if i < currentSize then
    let slot := s.fds i
    if slot.revents = 0 then
      { s with pc := .scan (i + 1) currentSize }
    else if slot.revents &&& pollIn = 0 then
      let fd := if slot.fd > 0 then -1 else slot.fd
      { s with
        sockets := closeAll s.sockets (closeIfPositive slot.fd)
        fds := Function.update s.fds i { slot with fd, revents := 0 }
        compressArray := true
        pc := .scan (i + 1) currentSize }
    else if slot.fd = listenSd then
      { s with pc := .accept i currentSize }
    else
      { s with pc := .recv i currentSize }
  else
    { s with pc := .compress }

def accept (s : PollServer) (i currentSize : Nat) (newSd : Int) : Option PollServer :=
  if newSd < 0 then
    some { s with pc := .scan (i + 1) currentSize }
  else if s.sockets newSd = none then
    let s := { s with
      sockets := Function.update s.sockets newSd (some (.connection s.nextConnection))
      nextConnection := s.nextConnection + 1 }
    if newSd = 0 then
      some { s with pc := .scan (i + 1) currentSize }
    else
      let slot := { s.fds s.nfds with fd := newSd, events := pollIn }
      some { s with fds := Function.update s.fds s.nfds slot, nfds := s.nfds + 1 }
  else
    none

def closeConn (s : PollServer) (i currentSize : Nat) : PollServer :=
  let slot := s.fds i
  { s with
    sockets := closeAll s.sockets (closeIfPositive slot.fd)
    fds := Function.update s.fds i { slot with fd := -1, revents := 0 }
    compressArray := true
    pc := .scan (i + 1) currentSize }

def recvData (s : PollServer) (i k : Nat) (buffer : RecvBuffer) : PollServer :=
  let fd := (s.fds i).fd
  let (composer, message) := s.composer.onClientDataArrived fd i buffer.data buffer.dataSize
  { s with
    composer
    startedBy :=
      if s.composer.messages fd = none then Function.update s.startedBy fd (some k) else s.startedBy
    qclients := s.qclients ++ message.toList.map (fun msg => ⟨k, msg⟩) }

def recv (s : PollServer) (i currentSize : Nat) : RecvResult → Option PollServer
  | .data buffer =>
    match s.sockets (s.fds i).fd with
    | some (.connection k) => some (recvData s i k buffer)
    | _ => none
  | .closed => some (closeConn s i currentSize)
  | .failed => some (closeConn s i currentSize)
  | .wouldBlock => some { s with pc := .scan (i + 1) currentSize }

def step (listenSd : Int) (s : PollServer) : Label → Option PollServer
  | .poll rc einval revents =>
    match s.pc with
    | .poll =>
      if rc < 0 then
        some { s with pc := .checkClosedSessions rc einval }
      else if Reported s.fds s.nfds revents then
        some { s with fds := setRevents s.fds s.nfds revents, pc := .checkClosedSessions rc einval }
      else
        none
    | _ => none
  | .checkClosedSessions =>
    match s.pc with
    | .checkClosedSessions rc einval =>
      let (fds, closed) := closeSessions s.fds s.qclientsClose
      some { s with
        fds
        sockets := closeAll s.sockets closed
        qclientsClose := []
        compressArray := s.compressArray || (decide (rc < 0) && einval)
        pc := if rc = 0 then .poll else .scan 0 s.nfds }
    | _ => none
  | .scan =>
    match s.pc with
    | .scan i currentSize => some (scan listenSd s i currentSize)
    | _ => none
  | .accept newSd =>
    match s.pc with
    | .accept i currentSize => accept s i currentSize newSd
    | _ => none
  | .recv result =>
    match s.pc with
    | .recv i currentSize => recv s i currentSize result
    | _ => none
  | .compress =>
    match s.pc with
    | .compress =>
      if s.compressArray then
        let (fds, nfds) := compressFrom s.fds s.nfds 0
        some { s with fds, nfds, compressArray := false, pc := .poll }
      else
        some { s with pc := .poll }
    | _ => none
  | .requestClose c => some { s with qclientsClose := s.qclientsClose ++ [c] }

def initial (listenSd : Int) : PollServer where
  fds i :=
    if i = 0 then
      { fd := listenSd, events := pollIn ||| pollOut ||| pollErr ||| pollHup ||| pollNval }
    else
      {}
  sockets n := if n = listenSd then some .listener else none

def machine (listenSd : Int) : Machine PollServer Label where
  init s := s = initial listenSd
  step := step listenSd

end PollServer
