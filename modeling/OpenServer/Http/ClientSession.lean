import OpenServer.Http.HeaderParser

/-!
This module contains `ClientSession`, the record that travels from the composer through the processor
to a dispatcher. The iterator into the response cache is the key of its entry, `none` for `end()`.
-/

structure ClientSession where
  socket : Int
  fdsIndex : Nat := 0
  keepAlive : Bool := true
  ewouldblockFlag : Bool := false
  sendMessage : Bytes := []
  sendMessageHasMoreBytes : Bool := false
  sendMessageIndex : Int := 0
  sendMessageHeaderSize : Int := 0
  request : HttpHeaderParser := {}
  cacheIterator : Option QString := none
  isCached : Bool := false
  deriving DecidableEq, Repr

namespace ClientSession

def ofRequest (socket : Int) (fdsIndex : Nat) (requestHeader : Bytes) : ClientSession :=
  { socket, fdsIndex, request := { requestHeader } }

structure Fresh (c : ClientSession) : Prop where
  ewouldblockFlag : c.ewouldblockFlag = false
  sendMessageHasMoreBytes : c.sendMessageHasMoreBytes = false
  sendMessageIndex : c.sendMessageIndex = 0
  sendMessageHeaderSize : c.sendMessageHeaderSize = 0
  isCached : c.isCached = false

theorem ofRequest_fresh (socket : Int) (fdsIndex : Nat) (requestHeader : Bytes)
    : (ofRequest socket fdsIndex requestHeader).Fresh := by
  constructor <;> rfl

end ClientSession

-- A session in a queue, with a mark of the development's own that tells sessions apart.
structure Queued (τ : Type) where
  tag : τ
  session : ClientSession
  deriving DecidableEq, Repr
