import Mathlib.Data.PNat.Basic
import OpenServer.Dispatcher.Impl.Request

/-!
This module contains one iteration of the loop of `HTTP_Message_Dispatcher::dispatchMessageQueue`,
from the first access to `front()` to the `pop()`, for a thread that nobody disturbs.
-/

-- `accepted n`: the socket has room for `n` bytes, so that `send` takes as many of those it is given.
inductive SendResult where
  | accepted (n : ℕ+)
  | closed
  | wouldBlock
  | failed
  deriving DecidableEq, Repr

inductive SendEnd where
  | complete
  | closed
  | wouldBlock
  | failed
  deriving DecidableEq, Repr

structure SendLoop where
  totalBytes : Nat
  ending : SendEnd
  sent : Bytes
  deriving DecidableEq, Repr

namespace HttpMessageDispatcher

def sendLoop (data : Bytes) (results : Nat → SendResult) (totalBytes : Nat) : SendLoop :=
  if totalBytes < data.length then
    match results 0 with
    | .accepted n =>
      let snd := min n.val (data.length - totalBytes)
      let rest := sendLoop data (fun k => results (k + 1)) (totalBytes + snd)
      { rest with sent := (data.drop totalBytes).take snd ++ rest.sent }
    | .closed => { totalBytes, ending := .closed, sent := [] }
    | .wouldBlock => { totalBytes, ending := .wouldBlock, sent := [] }
    | .failed => { totalBytes, ending := .failed, sent := [] }
  else
    { totalBytes, ending := .complete, sent := [] }
termination_by data.length - totalBytes
decreasing_by
  have := n.pos
  omega

-- `response_data`; `none` where an iterator without an entry would be dereferenced.
def responseData (sh : Shared) (c : ClientSession) : Option Bytes :=
  if c.isCached then
    c.cacheIterator.bind sh.cache
  else
    some c.sendMessage

def endSend (c : ClientSession) : SendEnd → ClientSession
  | .complete => c
  | .wouldBlock => { c with ewouldblockFlag := true }
  | .closed | .failed =>
    if c.isCached then
      { c with sendMessage := [], sendMessageHasMoreBytes := false }
    else
      c

def eraseSent (c : ClientSession) (totalBytes : Nat) : ClientSession :=
  let c := { c with sendMessageIndex := c.sendMessageIndex + totalBytes }
  if !c.isCached then
    { c with sendMessage := c.sendMessage.drop totalBytes }
  else
    c

def isFinished (c : ClientSession) : Bool :=
  c.isCached || (c.sendMessage.length == 0 && !c.sendMessageHasMoreBytes)

def rotate (queue : List (Queued τ)) : List (Queued τ) :=
  match queue with
  | [] => []
  | front :: rest =>
    if front.session.ewouldblockFlag && decide (queue.length > 1) then
      rest ++ [front]
    else
      queue

structure Input where
  disk : Disk
  indeterminate : Bool
  results : Nat → SendResult

def serveFront (qt : Qt) (inp : Input) (sh : Shared) (c : ClientSession)
    : Option (Shared × ClientSession × SendLoop) := do
  let (sh, c) ← onClientRequest qt inp.disk inp.indeterminate sh c
  let data ← responseData sh c
  let loop := sendLoop data inp.results 0
  some (sh, eraseSent (endSend c loop.ending) loop.totalBytes, loop)

def closeRequest (c : ClientSession) : Option ClientSession :=
  if !c.keepAlive then some c else none

structure Iteration (τ : Type) where
  shared : Shared
  queue : List (Queued τ)
  worked : τ
  loop : SendLoop
  popped : Bool
  close : Option ClientSession

def iterate (qt : Qt) (inp : Input) (sh : Shared) (queue : List (Queued τ))
    : Option (Iteration τ) :=
  match rotate queue with
  | [] => none
  | front :: rest => do
    let (sh, c, loop) ← serveFront qt inp sh front.session
    if isFinished c then
      some { shared := sh, queue := rest, worked := front.tag, loop, popped := true,
             close := closeRequest c }
    else
      some { shared := sh, queue := { front with session := c } :: rest, worked := front.tag, loop,
             popped := false, close := none }

end HttpMessageDispatcher
