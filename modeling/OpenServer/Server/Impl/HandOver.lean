import OpenServer.Dispatcher.Impl.Thread
import OpenServer.Processor.Impl.ProcessMessageQueue

/-!
This module contains the hand-over of `processMessageQueue` where no mutex matters: the front of
`qclients_` arrives at the dispatcher that the branch for `worker` calls.
-/

open HttpMessageDispatcher

namespace HtmlMessageProcessor

structure Hands (τ : Type) where
  qclients : List (Queued τ)
  worker : Nat
  threads : Threads Nat τ

def Hands.handOver (h : Hands τ) : Option (Hands τ) :=
  match h.qclients, branch h.worker with
  | e :: qclients, some (i, worker) => do
    let threads ← h.threads.arrive i e
    some { qclients, worker, threads }
  | _, _ => none

theorem Hands.handOver_cases {h t : Hands τ} (ht : h.handOver = some t)
    : ∃ e i, h.qclients = e :: t.qclients ∧ branch h.worker = some (i, t.worker)
        ∧ h.threads.arrive i e = some t.threads := by
  unfold handOver at ht
  split at ht
  . next e qclients i worker hqclients hbranch =>
    obtain ⟨threads, harrive, ht⟩ := Option.bind_eq_some_iff.mp ht
    injection ht with ht
    rw [← ht]
    exact ⟨e, i, hqclients, hbranch, harrive⟩
  . cases ht

end HtmlMessageProcessor
