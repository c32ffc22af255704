import OpenServer.Dispatcher.Impl.Iteration
import OpenServer.Transition.Basic

/-!
This module contains the dispatcher threads side by side. An iteration of `dispatchMessageQueue` is
cut at everything that another thread can see or change: `cache_`, the working directory, the file
system and the sockets.
-/

namespace HttpMessageDispatcher

-- Where a thread stands in its iteration. `entered` is the directory that the thread's own
-- `setCurrent` entered, a record of the development's own.
inductive Pc where
  | outside
  | request
  | readFile
  | setCurrent
  | entryInfoList (entered : Option QString)
  | currentPath (entered : Option QString) (list : List QFileInfo)
  | store (should : Bool) (entered : Option QString)
  | select
  | send (totalBytes bytesleft : Nat)
  | finish (ending : SendEnd) (totalBytes : Nat)
  deriving DecidableEq, Repr

structure Thread (τ : Type) where
  pc : Pc := .outside
  queue : List (Queued τ) := []

structure StepInput where
  disk : Disk
  indeterminate : Bool
  result : SendResult

inductive Effect (τ : Type) where
  | quiet
  | sent (e : Queued τ) (bytes : Bytes)
  | close (e : Queued τ)

-- `send` reads `bytesleft` bytes of the buffer as it is now: undefined is a read behind its end.
def sendOnce (result : SendResult) (data : Bytes) (totalBytes bytesleft : Nat)
    : Option (Pc × Bytes) :=
  if totalBytes < data.length then
    match result with
    | .accepted n =>
      if 0 < bytesleft ∧ totalBytes + bytesleft ≤ data.length then
        let snd := min n.val bytesleft
        some (.send (totalBytes + snd) (bytesleft - snd), (data.drop totalBytes).take snd)
      else
        none
    | .closed => some (.finish .closed totalBytes, [])
    | .wouldBlock => some (.finish .wouldBlock totalBytes, [])
    | .failed => some (.finish .failed totalBytes, [])
  else
    some (.finish .complete totalBytes, [])

def serveStep (qt : Qt) (x : StepInput) (sh : Shared) (c : ClientSession)
    : Pc → Option (Shared × ClientSession × Pc × Bytes)
  | .outside => none
  | .request =>
    if c.ewouldblockFlag then
      some (sh, { c with ewouldblockFlag := false }, .select, [])
    else do
      let c ← parseRequest qt c
      match lookup qt x.disk sh c with
      | (.cached, c) => some (sh, c, .select, [])
      | (.file, c) => some (sh, c, .readFile, [])
      | (.directory, c) => some (sh, c, .setCurrent, [])
  | .readFile => do
    let (c, response) ← HttpMessageDispatcher.readFile qt x.disk sh.cwd c
    some (sh, compose c response, .store true none, [])
  | .setCurrent =>
    let entered := changeDir qt x.disk sh.cwd c
    some ({ sh with cwd := entered.getD sh.cwd }, c, .entryInfoList entered, [])
  | .entryInfoList entered =>
    some (sh, c, .currentPath entered (x.disk.entryInfoList sh.cwd), [])
  | .currentPath entered list =>
    some (sh, compose c (directoryResponse list sh.cwd), .store x.indeterminate entered, [])
  | .store should _ =>
    let (sh, c) := HttpMessageDispatcher.store should sh c
    some (sh, c, .select, [])
  | .select => do
    let data ← responseData sh c
    some (sh, c, .send 0 data.length, [])
  | .send totalBytes bytesleft => do
    let data ← responseData sh c
    let (pc, bytes) ← sendOnce x.result data totalBytes bytesleft
    some (sh, c, pc, bytes)
  | .finish _ _ => none

namespace Thread

def step (qt : Qt) (x : StepInput) (sh : Shared) (t : Thread τ)
    : Option (Shared × Thread τ × Effect τ) :=
  match t.pc, t.queue with
  | _, [] => none
  | .outside, queue => some (sh, { pc := .request, queue := rotate queue }, .quiet)
  | .finish ending totalBytes, front :: rest =>
    let c := eraseSent (endSend front.session ending) totalBytes
    let front := { front with session := c }
    if isFinished c then
      some (sh, { pc := .outside, queue := rest }, if c.keepAlive then .quiet else .close front)
    else
      some (sh, { pc := .outside, queue := front :: rest }, .quiet)
  | pc, front :: rest => do
    let (sh, c, pc, bytes) ← serveStep qt x sh front.session pc
    let front := { front with session := c }
    some (sh, { pc, queue := front :: rest }, if bytes = [] then .quiet else .sent front bytes)

end Thread

structure Threads (ι τ : Type) where
  shared : Shared
  threads : ι → Thread τ := fun _ => {}

namespace Threads

inductive Label (ι τ : Type) where
  | arrive (i : ι) (e : Queued τ)
  | run (i : ι) (x : StepInput)

variable [DecidableEq ι]

-- `onNewMessageArrived`: the mutex of the dispatcher keeps it out of an iteration.
def arrive (s : Threads ι τ) (i : ι) (e : Queued τ) : Option (Threads ι τ) :=
  match (s.threads i).pc with
  | .outside =>
    let t := { s.threads i with queue := (s.threads i).queue ++ [e] }
    some { s with threads := Function.update s.threads i t }
  | _ => none

def runStep (qt : Qt) (s : Threads ι τ) (i : ι) (x : StepInput)
    : Option (Threads ι τ × Effect τ) := do
  let (shared, t, effect) ← (s.threads i).step qt x s.shared
  some ({ shared, threads := Function.update s.threads i t }, effect)

def step (qt : Qt) (s : Threads ι τ) : Label ι τ → Option (Threads ι τ)
  | .arrive i e => s.arrive i e
  | .run i x => (s.runStep qt i x).map (·.1)

def machine (ι τ : Type) [DecidableEq ι] (qt : Qt) (shared : Shared)
    : Machine (Threads ι τ) (Label ι τ) where
  init s := s = { shared }
  step := step qt

end Threads

end HttpMessageDispatcher
