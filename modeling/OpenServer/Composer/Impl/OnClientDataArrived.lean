import Mathlib.Logic.Function.Basic
import OpenServer.Http.ClientSession

/-!
This module contains `HTML_MessageComposer`. Its methods also answer the message that they hand to
`onNewClientMessage`, if any.
-/

def recvBufferSize : Nat := 65535

-- The buffer after a `recv` that returned `dataSize`: behind the received bytes stands whatever
-- earlier calls have left there.
structure RecvBuffer where
  data : Bytes
  dataSize : Nat
  length_eq : data.length = recvBufferSize
  dataSize_pos : 0 < dataSize
  dataSize_le : dataSize ≤ recvBufferSize

def RecvBuffer.received (b : RecvBuffer) : Bytes :=
  b.data.take b.dataSize

structure HtmlMessageComposer where
  messages : Int → Option ClientSession := fun _ => none

namespace HtmlMessageComposer

def isComplete (requestHeader : Bytes) : Bool :=
  match requestHeader.reverse with
  | 10 :: 13 :: 10 :: 13 :: _ => true
  | _ => false

def verifyMessageComplete (c : HtmlMessageComposer) (socket : Int)
    : HtmlMessageComposer × Option ClientSession :=
  match c.messages socket with
  | some msg =>
    if isComplete msg.request.requestHeader then
      ({ c with messages := Function.update c.messages socket none }, some msg)
    else
      (c, none)
  | none => (c, none)

def storeData (c : HtmlMessageComposer) (socket : Int) (fdsIndex : Nat) (data : Bytes)
    (dataSize : Nat) : ClientSession :=
  match c.messages socket with
  | none => { socket, fdsIndex, request := { requestHeader := data.take dataSize } }
  | some stored =>
    -- the merge takes the whole buffer, not its first `dataSize` bytes
    { stored with
      request := { stored.request with requestHeader := stored.request.requestHeader ++ data } }

def onClientDataArrived (c : HtmlMessageComposer) (socket : Int) (fdsIndex : Nat) (data : Bytes)
    (dataSize : Nat) : HtmlMessageComposer × Option ClientSession :=
  let msg := c.storeData socket fdsIndex data dataSize
  verifyMessageComplete { c with messages := Function.update c.messages socket (some msg) } socket

end HtmlMessageComposer
