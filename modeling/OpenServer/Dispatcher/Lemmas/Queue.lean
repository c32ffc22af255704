import OpenServer.Dispatcher.Impl.Queue
import OpenServer.Dispatcher.Lemmas.Delivery

/-!
This module shows when a session whose connection failed leaves the queue for good.
-/

namespace HttpMessageDispatcher

variable {qt : Qt} {inp : Input}

theorem rotate_perm (queue : List (Queued τ)) : (rotate queue).Perm queue := by
  unfold rotate
  split
  . exact .refl _
  . split
    . exact List.perm_append_singleton _ _
    . exact .refl _

theorem tag_ne_front {front : Queued τ} (hnodup : ((front :: rest).map (·.tag)).Nodup)
    (he : e ∈ rest)
    : e.tag ≠ front.tag := by
  rw [List.map_cons, List.nodup_cons] at hnodup
  intro htag
  exact hnodup.1 (htag ▸ List.mem_map_of_mem he)

namespace Iterated

theorem worked_mem {queue : List (Queued τ)} (h : Iterated qt inp sh queue r)
    : r.worked ∈ queue.map (·.tag) := by
  cases h with
  | popped hrotate =>
    rw [← ((rotate_perm queue).map _).mem_iff, hrotate]
    simp
  | kept hrotate =>
    rw [← ((rotate_perm queue).map _).mem_iff, hrotate]
    simp

theorem tags_subset {queue : List (Queued τ)} (h : Iterated qt inp sh queue r)
    : r.queue.map (·.tag) ⊆ queue.map (·.tag) := by
  intro tag htag
  cases h with
  | popped hrotate =>
    rw [← ((rotate_perm queue).map _).mem_iff, hrotate]
    exact List.mem_cons_of_mem _ htag
  | kept hrotate =>
    rw [← ((rotate_perm queue).map _).mem_iff, hrotate]
    exact htag

theorem tags_perm {queue : List (Queued τ)} (h : Iterated qt inp sh queue r)
    : (r.queue.map (·.tag) ++ if r.popped then [r.worked] else []).Perm (queue.map (·.tag)) := by
  cases h with
  | popped hrotate =>
    refine List.Perm.trans ?_ ((rotate_perm queue).map _)
    rw [hrotate]
    exact List.perm_append_singleton _ _
  | kept hrotate =>
    refine List.Perm.trans ?_ ((rotate_perm queue).map _)
    rw [hrotate]
    simp

end Iterated

namespace Queue

def Lacks (tag : τ) (q : Queue τ) : Prop :=
  tag ∉ q.sessions.map (·.tag)

def OthersArrive (tag : τ) (_ : Queue τ) (l : Label τ) : Prop :=
  ∀ e, l = .arrive e → e.tag ≠ tag

theorem Lacks.step {q t : Queue τ} (h : q.Lacks tag) (hg : OthersArrive tag q l)
    (ht : step qt q l = some t)
    : t.Lacks tag := by
  cases l with
  | arrive e =>
    injection ht with ht
    have := hg e rfl
    simp only [Lacks, ← ht, List.map_append, List.map_cons, List.map_nil, List.mem_append,
      List.mem_singleton] at h ⊢
    grind
  | share sh =>
    injection ht with ht
    rw [← ht]
    exact h
  | iterate inp =>
    simp only [Queue.step, Option.bind_eq_bind, Option.bind_eq_some_iff] at ht
    obtain ⟨r, hr, ht⟩ := ht
    injection ht with ht
    rw [← ht]
    intro htag
    exact h ((iterate_cases hr).tags_subset htag)

theorem lacks_of_reachBy (h : q.Lacks tag) (ht : (machine qt q).ReachBy (OthersArrive tag) t)
    : t.Lacks tag := by
  apply Machine.ReachBy.invariant _ _ ht
  . intro s hs
    rwa [hs]
  . intro s l t hs hg ht
    exact hs.step hg ht

end Queue

-- The session under `tag` is gone, `rest` is what stood behind it.
structure Left (qt : Qt) (tag : τ) (rest : List (Queued τ)) (r : Iteration τ) : Prop where
  removed : tag ∉ r.queue.map (·.tag)
  never : ∀ q, (Queue.machine qt { shared := r.shared, sessions := r.queue }).ReachBy
      (Queue.OthersArrive tag) q →
    ∀ inp r', iterate qt inp q.shared q.sessions = some r' → r'.worked ≠ tag
  next : ∀ inp sh arrivals r', iterate qt inp sh (r.queue ++ arrivals) = some r' →
    (rotate (rest ++ arrivals)).head?.map (·.tag) = some r'.worked

theorem Left.of_removed {r : Iteration τ} (hqueue : r.queue = rest)
    (hremoved : tag ∉ rest.map (·.tag))
    : Left qt tag rest r := by
  constructor
  . rwa [hqueue]
  . intro q hq inp r' hr' heq
    have hlacks : q.Lacks tag := by
      apply Queue.lacks_of_reachBy _ hq
      simpa [Queue.Lacks, hqueue] using hremoved
    apply hlacks
    rw [← heq]
    exact (iterate_cases hr').worked_mem
  . intro inp sh arrivals r' hr'
    rw [hqueue] at hr'
    cases iterate_cases hr' with
    | popped hrotate => simp [hrotate]
    | kept hrotate => simp [hrotate]

theorem not_complete_of_failed {e : SendEnd} (h : e = .closed ∨ e = .failed) : e ≠ .complete := by
  rcases h with rfl | rfl <;> simp

-- A failed `send` removes the session exactly when it was answered from `cache_`: the error branches
-- drop the message of a cached session and leave that of any other as it is.
theorem failed_leaves_iff (qt : Qt) (inp : Input) (sh : Shared) (queue rest : List (Queued τ))
    (front : Queued τ) (r : Iteration τ) (htags : (queue.map (·.tag)).Nodup)
    (hrotate : rotate queue = front :: rest) (hr : iterate qt inp sh queue = some r)
    (hfailed : r.loop.ending = .closed ∨ r.loop.ending = .failed)
    : Left qt front.tag rest r
        ↔
      ServedFromCache qt inp.disk inp.indeterminate sh front.session := by
  have hrest : front.tag ∉ rest.map (·.tag) := by
    rw [← ((rotate_perm queue).map _).nodup_iff, hrotate] at htags
    exact (List.nodup_cons.mp htags).1
  cases iterate_cases hr with
  | popped hrotate' hrequest hdata hfinished =>
    obtain ⟨rfl, rfl⟩ : _ ∧ _ := by simpa [hrotate] using hrotate'
    rw [← onClientRequest_isCached_iff hrequest]
    refine ⟨?_, fun _ => Left.of_removed rfl hrest⟩
    intro _
    by_contra hcached
    simp only [Bool.not_eq_true] at hcached
    rw [responseData, hcached] at hdata
    injection hdata with hdata
    rw [← hdata, isFinished_of_own hcached] at hfinished
    rw [← hdata] at hfailed
    exact not_complete_of_failed hfailed hfinished.1
  | kept hrotate' hrequest hdata hfinished =>
    obtain ⟨rfl, rfl⟩ : _ ∧ _ := by simpa [hrotate] using hrotate'
    rw [← onClientRequest_isCached_iff hrequest]
    constructor
    . intro hleft
      exact absurd hleft.removed (by simp)
    . intro hcached
      exact absurd (isFinished_of_cached _ _ hcached) hfinished

theorem failed_leaves_iff_cached
    : ∃ r, iterate Qt.unix (inputOfA (ascii "hi") .closed) (sharedWithA (ascii "hi"))
          [⟨1, blockedForB⟩, ⟨0, requestForA⟩] = some r
        ∧ (rotate r.queue).head?.map (·.tag) = some 1
        ∧ Left Qt.unix 0 [⟨1, blockedForB⟩] r := by
  have hrequest := onClientRequest_cachedForA (ascii "hi") .closed
  have hrotate : rotate [(⟨1, blockedForB⟩ : Queued Nat), ⟨0, requestForA⟩]
      = [⟨0, requestForA⟩, ⟨1, blockedForB⟩] := rfl
  have hr := iterate_of_cached hrotate hrequest rfl (responseData_cachedForA _)
  refine ⟨_, hr, rfl, ?_⟩
  refine (failed_leaves_iff _ _ _ _ _ _ _ (by simp) hrotate hr ?_).mpr ?_
  . rw [sendLoop]
    simp [inputOfA, ascii]
  . exact (onClientRequest_isCached_iff hrequest).mp rfl

def halfSent : ClientSession :=
  { ClientSession.ofRequest 5 1 (ascii "GET / HTTP/1.1\r\n\r\n") with
    ewouldblockFlag := true, sendMessage := ascii "</html>" }

theorem not_failed_leaves
    : ¬ ∀ (qt : Qt) (inp : Input) (sh : Shared) (queue rest : List (Queued Nat))
        (front : Queued Nat) (r : Iteration Nat), (queue.map (·.tag)).Nodup →
        rotate queue = front :: rest → iterate qt inp sh queue = some r →
        (r.loop.ending = .closed ∨ r.loop.ending = .failed) → Left qt front.tag rest r := by
  intro h
  let inp := inputOfA [] .closed
  let c := { halfSent with ewouldblockFlag := false }
  have hloop : sendLoop c.sendMessage inp.results 0 = ⟨0, .closed, []⟩ := by
    rw [sendLoop]
    simp [inp, inputOfA, c, halfSent, ascii]
  have hr : iterate Qt.unix inp { cwd := ascii "/" } [⟨0, halfSent⟩]
      = some { shared := { cwd := ascii "/" }, queue := [⟨0, c⟩], worked := 0,
               loop := ⟨0, .closed, []⟩, popped := false, close := none } := by
    have hdata : responseData { cwd := ascii "/" } c = some c.sendMessage := rfl
    have hrequest : onClientRequest Qt.unix inp.disk inp.indeterminate { cwd := ascii "/" } halfSent
        = some ({ cwd := ascii "/" }, c) := rfl
    have hrotate : rotate [(⟨0, halfSent⟩ : Queued Nat)] = [⟨0, halfSent⟩] := rfl
    simp only [iterate, hrotate, serveFront, hrequest, hdata, hloop, Option.bind_eq_bind,
      Option.bind_some]
    rfl
  have hleft := h _ _ _ _ [] ⟨0, halfSent⟩ _ (by simp) rfl hr (.inl rfl)
  exact hleft.removed (by simp)

end HttpMessageDispatcher
