import OpenServer.PollServer.Impl.Start

/-!
This module contains the indices at which the steps of the serving loop use the array `fds`.
-/

namespace PollServer

-- `struct pollfd fds[100000]`
def fdsSize : Nat := 100000

def shiftIndices (nfds i : Nat) : List Nat :=
  (List.range' i (nfds - i)).flatMap (fun j => [j, j + 1])

def compressIndices (fds : Nat → PollFd) (nfds i : Nat) : List Nat :=
  if i < nfds then
    if (fds i).fd = -1 then
      i :: shiftIndices nfds i ++ compressIndices (shift fds nfds i) (nfds - 1) (i + 1)
    else
      i :: compressIndices fds nfds (i + 1)
  else
    []
termination_by nfds - i

inductive Uses (s : PollServer) : Label → Nat → Prop where
  | poll : j < s.nfds → Uses s (.poll rc einval revents) j
  | checkClosedSessions : s.pc = .checkClosedSessions rc einval → c ∈ s.qclientsClose
      → Uses s .checkClosedSessions c.fdsIndex
  | scan : s.pc = .scan i currentSize → i < currentSize → Uses s .scan i
  | accept : s.pc = .accept i currentSize → 0 < newSd → Uses s (.accept newSd) s.nfds
  | recv : s.pc = .recv i currentSize → Uses s (.recv result) i
  | compress : s.pc = .compress → s.compressArray → j ∈ compressIndices s.fds s.nfds 0
      → Uses s .compress j

end PollServer
