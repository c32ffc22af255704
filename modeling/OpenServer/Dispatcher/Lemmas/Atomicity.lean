import OpenServer.Dispatcher.Lemmas.Accounts
import OpenServer.Dispatcher.Lemmas.DispatchMessageQueue
import OpenServer.Transition.History

/-!
This module shows that the iterations of the dispatcher threads are atomic unless somebody disturbs
them. Whatever has happened before it, an iteration during which no other thread changes `cache_` or
the working directory, and the file system stays as it is, is one call of `iterate` in the very
environment that the thread has met.
-/

namespace HttpMessageDispatcher

variable {qt : Qt} {sh sh' : Shared}

-- What a thread has met in the iteration it is in: the file system, `cache_` with the working directory
-- and the queue that it began with, what `should_cache_response` held and what `send` has answered. And
-- what `send` has taken.
structure Underway (τ : Type) where
  disk : Disk
  shared : Shared
  queue : List (Queued τ)
  indeterminate : Bool
  results : List SendResult := []
  bytes : Bytes := []

def answers (results : List SendResult) (later : Nat → SendResult) (k : Nat) : SendResult :=
  results[k]?.getD (later (k - results.length))

namespace Underway

def input (u : Underway τ) : Input where
  disk := u.disk
  indeterminate := u.indeterminate
  results := answers u.results (fun _ => .closed)

def extend (u : Underway τ) (pc : Pc) (x : StepInput) (bytes : Bytes) : Underway τ :=
  let u := { u with bytes := u.bytes ++ bytes }
  match pc with
  | .currentPath _ _ => { u with indeterminate := x.indeterminate }
  | .send _ _ => { u with results := u.results ++ [x.result] }
  | _ => u

@[simp]
theorem extend_queue (u : Underway τ) (pc : Pc) (x : StepInput) (bytes : Bytes)
    : (u.extend pc x bytes).queue = u.queue := by
  unfold extend
  split <;> rfl

@[simp]
theorem extend_disk (u : Underway τ) (pc : Pc) (x : StepInput) (bytes : Bytes)
    : (u.extend pc x bytes).disk = u.disk := by
  unfold extend
  split <;> rfl

structure Unsent (u : Underway τ) : Prop where
  results : u.results = []
  bytes : u.bytes = []

end Underway

def Effect.closed : Effect τ → Option ClientSession
  | .close e => some e.session
  | _ => none

-- The loop has come to `totalBytes` with these answers, and goes on with whatever comes later.
def Continues (data : Bytes) (results : List SendResult) (totalBytes : Nat) (bytes : Bytes) : Prop :=
  ∀ later, sendLoop data (answers results later) 0
    = { sendLoop data later totalBytes with sent := bytes ++ (sendLoop data later totalBytes).sent }

def LooksUp (qt : Qt) (u : Underway τ) (found : Lookup) (c₀ c : ClientSession) : Prop :=
  ∃ c₁, ¬ c₀.ewouldblockFlag ∧ parseRequest qt c₀ = some c₁
    ∧ lookup qt u.disk u.shared c₁ = (found, c)

def Enters (qt : Qt) (u : Underway τ) (sh : Shared) (c₀ c : ClientSession) (entered : Option QString)
    : Prop :=
  LooksUp qt u .directory c₀ c ∧ entered = changeDir qt u.disk u.shared.cwd c
    ∧ sh = { u.shared with cwd := entered.getD u.shared.cwd }

def AnswersAs (qt : Qt) (u : Underway τ) (c₀ : ClientSession) (sh : Shared) (c : ClientSession)
    : Prop :=
  onClientRequest qt u.disk u.indeterminate u.shared c₀ = some (sh, c)

-- What an undisturbed iteration has made of the session `c₀` and of the shared state.
def Reaches (qt : Qt) (u : Underway τ) (c₀ : ClientSession) (sh : Shared) (c : ClientSession)
    : Pc → Prop
  | .outside => False
  | .request => c = c₀ ∧ sh = u.shared ∧ u.Unsent
  | .readFile => LooksUp qt u .file c₀ c ∧ sh = u.shared ∧ u.Unsent
  | .setCurrent => LooksUp qt u .directory c₀ c ∧ sh = u.shared ∧ u.Unsent
  | .entryInfoList entered => Enters qt u sh c₀ c entered ∧ u.Unsent
  | .currentPath entered list =>
    Enters qt u sh c₀ c entered ∧ list = u.disk.entryInfoList sh.cwd ∧ u.Unsent
  | .store should _ => AnswersAs qt u c₀ (store should sh c).1 (store should sh c).2 ∧ u.Unsent
  | .select => AnswersAs qt u c₀ sh c ∧ u.Unsent
  | .send totalBytes bytesleft =>
    AnswersAs qt u c₀ sh c ∧ ∃ data, responseData sh c = some data
      ∧ bytesleft = data.length - totalBytes ∧ Continues data u.results totalBytes u.bytes
  | .finish ending totalBytes =>
    AnswersAs qt u c₀ sh c ∧ ∃ data, responseData sh c = some data
      ∧ sendLoop data u.input.results 0 = { totalBytes, ending, sent := u.bytes }

inductive Thread.Follows (qt : Qt) (t : Thread τ) (sh : Shared) : Option (Underway τ) → Prop where
  | outside (hpc : t.pc = .outside) : Follows qt t sh none
  | inside {u : Underway τ} (hrotate : rotate u.queue = front :: rest)
      (hqueue : t.queue = { front with session := c } :: rest)
      (hreaches : Reaches qt u front.session sh c t.pc)
      : Follows qt t sh (some u)

theorem answers_concat (results : List SendResult) (result : SendResult) (later : Nat → SendResult)
    : answers (results ++ [result]) later
        =
      answers results (fun k => if k = 0 then result else later (k - 1)) := by
  funext k
  unfold answers
  rcases Nat.lt_trichotomy k results.length with hlt | rfl | hgt
  . rw [List.getElem?_append_left hlt, List.getElem?_eq_getElem hlt]
    rfl
  . simp
  . rw [List.getElem?_eq_none (by simp; omega), List.getElem?_eq_none (by omega)]
    have hne : k - results.length ≠ 0 := by omega
    simp [hne, Nat.sub_sub]

namespace Continues

theorem nil (data : Bytes) : Continues data [] 0 [] := by
  intro later
  rfl

theorem accepted {data : Bytes} (h : Continues data results totalBytes bytes)
    (hlt : totalBytes < data.length) (n : ℕ+)
    : Continues data (results ++ [.accepted n]) (totalBytes + min n.val (data.length - totalBytes))
        (bytes ++ (data.drop totalBytes).take (min n.val (data.length - totalBytes))) := by
  intro later
  rw [answers_concat, h, sendLoop]
  simp [hlt]

theorem finish {data : Bytes} (h : Continues data results totalBytes bytes)
    (hsend : sendOnce result data totalBytes bytesleft = some (.finish ending totalBytes', sent))
    : sendLoop data (answers (results ++ [result]) (fun _ => .closed)) 0
        =
      { totalBytes := totalBytes', ending, sent := bytes ++ sent } := by
  rw [answers_concat, h, sendLoop]
  obtain ⟨n, -, -, -, hpc, -⟩ | ⟨ending', hpc, rfl, hwhy⟩ := sendOnce_cases hsend
  . cases hpc
  . injection hpc with hpc htotal
    rw [hpc, htotal]
    rcases hwhy with ⟨rfl, hge⟩ | ⟨hlt, ⟨rfl, rfl⟩ | ⟨rfl, rfl⟩ | ⟨rfl, rfl⟩⟩
    . simp [Nat.not_lt.mpr hge]
    . simp [hlt]
    . simp [hlt]
    . simp [hlt]

end Continues

theorem extend_quiet (u : Underway τ) (x : StepInput) (hsend : ∀ total left, pc ≠ .send total left)
    (hpath : ∀ entered list, pc ≠ .currentPath entered list)
    : u.extend pc x [] = u := by
  unfold Underway.extend
  split
  . exact absurd rfl (hpath _ _)
  . exact absurd rfl (hsend _ _)
  . simp

theorem reaches_serve {u : Underway τ} (h : Reaches qt u c₀ sh c pc) (hdisk : x.disk = u.disk)
    (hserve : serveStep qt x sh c pc = some (sh', c', pc', bytes))
    : Reaches qt (u.extend pc x bytes) c₀ sh' c' pc' := by
  cases serveStep_cases hserve with
  | pending hflag =>
    obtain ⟨rfl, rfl, hunsent⟩ := h
    rw [extend_quiet u x (by simp) (by simp)]
    exact ⟨by simp [AnswersAs, onClientRequest, hflag], hunsent⟩
  | cached hflag hparse hlookup =>
    obtain ⟨rfl, rfl, hunsent⟩ := h
    rw [hdisk] at hlookup
    rw [extend_quiet u x (by simp) (by simp)]
    exact ⟨onClientRequest_of_cached (by simpa using hflag) hparse hlookup, hunsent⟩
  | file hflag hparse hlookup =>
    obtain ⟨rfl, rfl, hunsent⟩ := h
    rw [hdisk] at hlookup
    rw [extend_quiet u x (by simp) (by simp)]
    exact ⟨⟨_, hflag, hparse, hlookup⟩, rfl, hunsent⟩
  | directory hflag hparse hlookup =>
    obtain ⟨rfl, rfl, hunsent⟩ := h
    rw [hdisk] at hlookup
    rw [extend_quiet u x (by simp) (by simp)]
    exact ⟨⟨_, hflag, hparse, hlookup⟩, rfl, hunsent⟩
  | read hread =>
    obtain ⟨⟨c₁, hflag, hparse, hlookup⟩, rfl, hunsent⟩ := h
    rw [hdisk] at hread
    rw [extend_quiet u x (by simp) (by simp)]
    exact ⟨onClientRequest_of_file (by simpa using hflag) hparse hlookup hread, hunsent⟩
  | entered hentered =>
    obtain ⟨hlooksUp, rfl, hunsent⟩ := h
    rw [hdisk] at hentered
    rw [extend_quiet u x (by simp) (by simp)]
    exact ⟨⟨hlooksUp, hentered, rfl⟩, hunsent⟩
  | listed =>
    obtain ⟨henters, hunsent⟩ := h
    rw [extend_quiet u x (by simp) (by simp), hdisk]
    exact ⟨henters, rfl, hunsent⟩
  | headed =>
    obtain ⟨⟨⟨c₁, hflag, hparse, hlookup⟩, hentered, rfl⟩, rfl, hunsent⟩ := h
    refine ⟨?_, hunsent.results, by simp [Underway.extend, hunsent.bytes]⟩
    apply onClientRequest_of_directory x.indeterminate (by simpa using hflag) hparse hlookup
    rw [hentered]
  | stored =>
    obtain ⟨hrequested, hunsent⟩ := h
    rw [extend_quiet u x (by simp) (by simp)]
    exact ⟨hrequested, hunsent⟩
  | selected hdata =>
    obtain ⟨hrequested, hresults, hbytes⟩ := h
    rw [extend_quiet u x (by simp) (by simp)]
    refine ⟨hrequested, _, hdata, rfl, ?_⟩
    rw [hresults, hbytes]
    apply Continues.nil
  | sent hdata hsend =>
    obtain ⟨hrequested, data, hdata', rfl, hcontinues⟩ := h
    rw [hdata] at hdata'
    injection hdata' with hdata'
    subst hdata'
    obtain ⟨n, hresult, hlt, -, rfl, rfl⟩ | ⟨ending, rfl, -⟩ := sendOnce_cases hsend
    . refine ⟨hrequested, _, hdata, by omega, ?_⟩
      simp only [Underway.extend, hresult]
      apply hcontinues.accepted hlt
    . exact ⟨hrequested, _, hdata, hcontinues.finish hsend⟩

theorem Thread.Follows.start {t : Thread τ} (hqueue : t.queue ≠ []) (disk : Disk)
    (indeterminate : Bool)
    : Follows qt { pc := .request, queue := rotate t.queue } sh
        (some { disk, shared := sh, queue := t.queue, indeterminate }) := by
  cases hrotate : rotate t.queue with
  | nil => exact absurd (rotate_eq_nil_iff.mp hrotate) hqueue
  | cons front rest => exact .inside hrotate rfl ⟨rfl, rfl, rfl, rfl⟩

theorem Effect.bytes_of_serve (front : Queued τ) (bytes : Bytes)
    : (if bytes = [] then Effect.quiet else .sent front bytes).bytes = bytes := by
  split
  . next hnone =>
    rw [hnone]
    rfl
  . rfl

-- The iteration as one call, with the effect of its last step.
def Underway.Completes (qt : Qt) (u : Underway τ) (queue : List (Queued τ)) (sh : Shared)
    (effect : Effect τ) : Prop :=
  ∃ r, iterate qt u.input u.shared u.queue = some r ∧ queue = r.queue ∧ sh = r.shared
    ∧ u.bytes = r.loop.sent ∧ effect.closed = r.close

theorem completes_of_reaches {u : Underway τ} {front : Queued τ}
    (h : Reaches qt u front.session sh c (.finish ending totalBytes))
    (hrotate : rotate u.queue = front :: rest) (hc : c' = eraseSent (endSend c ending) totalBytes)
    : (isFinished c' → u.Completes qt rest sh
          (if c'.keepAlive then .quiet else .close { front with session := c' }))
        ∧ (¬ isFinished c' → u.Completes qt ({ front with session := c' } :: rest) sh .quiet) := by
  obtain ⟨hrequest, data, hdata, hloop⟩ := h
  have hserve : serveFront qt u.input u.shared front.session
      = some (sh, c', { totalBytes, ending, sent := u.bytes }) := by
    unfold AnswersAs at hrequest
    simp only [serveFront, Underway.input] at hloop ⊢
    simp [hrequest, hdata, hloop, hc]
  constructor
  . intro hfinished
    have hiterate : iterate qt u.input u.shared u.queue
        = some { shared := sh, queue := rest, worked := front.tag,
                 loop := { totalBytes, ending, sent := u.bytes }, popped := true,
                 close := closeRequest c' } := by
      simp [iterate, hrotate, hserve, hfinished]
    refine ⟨_, hiterate, rfl, rfl, rfl, ?_⟩
    unfold closeRequest
    cases c'.keepAlive <;> rfl
  . intro hfinished
    have hiterate : iterate qt u.input u.shared u.queue
        = some { shared := sh, queue := { front with session := c' } :: rest, worked := front.tag,
                 loop := { totalBytes, ending, sent := u.bytes }, popped := false, close := none } := by
      simp [iterate, hrotate, hserve, hfinished]
    exact ⟨_, hiterate, rfl, rfl, rfl, rfl⟩

-- What the history of a thread becomes with its own next step.
def Thread.next (t : Thread τ) (sh : Shared) (x : StepInput) (effect : Effect τ)
    (past : Option (Underway τ)) : Option (Underway τ) :=
  match t.pc with
  | .outside =>
    some { disk := x.disk, shared := sh, queue := t.queue, indeterminate := x.indeterminate }
  | .finish _ _ => none
  | pc => past.map (·.extend pc x effect.bytes)

theorem Thread.Follows.step {t t' : Thread τ} {past : Option (Underway τ)}
    (h : t.Follows qt sh past) (hdisk : ∀ u ∈ past, x.disk = u.disk)
    (hstep : t.step qt x sh = some (sh', t', effect))
    : t'.Follows qt sh' (t.next sh x effect past) := by
  cases Thread.step_cases hstep with
  | start hpc hqueue =>
    simp only [Thread.next, hpc]
    exact .start hqueue x.disk x.indeterminate
  | serve hqueue hserve =>
    cases h with
    | outside hpc =>
      rw [hpc] at hserve
      cases hserve
    | @inside _ _ _ u hrotate hqueue' hreaches =>
      rw [hqueue'] at hqueue
      obtain ⟨rfl, rfl⟩ := List.cons.inj hqueue
      have hnext := reaches_serve hreaches (hdisk u rfl) hserve
      unfold Thread.next
      rw [Effect.bytes_of_serve]
      split
      . next hpc =>
        rw [hpc] at hreaches
        exact hreaches.elim
      . next hpc =>
        rw [hpc] at hserve
        cases hserve
      . rw [← Underway.extend_queue u t.pc x _] at hrotate
        exact .inside hrotate rfl hnext
  | popped hpc =>
    simp only [Thread.next, hpc]
    exact .outside rfl
  | kept hpc =>
    simp only [Thread.next, hpc]
    exact .outside rfl

theorem Thread.Follows.completes {t t' : Thread τ} {past : Option (Underway τ)}
    (h : t.Follows qt sh past) (hpc : t.pc = .finish ending totalBytes)
    (hstep : t.step qt x sh = some (sh', t', effect))
    : ∃ u ∈ past, u.Completes qt t'.queue sh' effect := by
  cases h with
  | outside houtside =>
    rw [houtside] at hpc
    cases hpc
  | @inside _ _ _ u hrotate hqueue hreaches =>
    rw [hpc] at hreaches
    refine ⟨u, rfl, ?_⟩
    cases Thread.step_cases hstep with
    | start houtside =>
      rw [houtside] at hpc
      cases hpc
    | serve _ hserve =>
      rw [hpc] at hserve
      cases hserve
    | popped hpc' hqueue' hc hfinished =>
      rw [hqueue] at hqueue'
      obtain ⟨rfl, rfl⟩ := List.cons.inj hqueue'
      rw [hpc] at hpc'
      injection hpc' with hending htotal
      rw [← hending, ← htotal] at hc
      exact (completes_of_reaches hreaches hrotate hc).1 hfinished
    | kept hpc' hqueue' hc hfinished =>
      rw [hqueue] at hqueue'
      obtain ⟨rfl, rfl⟩ := List.cons.inj hqueue'
      rw [hpc] at hpc'
      injection hpc' with hending htotal
      rw [← hending, ← htotal] at hc
      exact (completes_of_reaches hreaches hrotate hc).2 hfinished

namespace Threads

variable {ι : Type} [DecidableEq ι] {s t : Threads ι τ} {i : ι}

def underway (qt : Qt) (i : ι) : History (Threads ι τ) (Label ι τ) (Option (Underway τ)) where
  start := none
  extend past s l _ :=
    match l with
    | .arrive _ _ => past
    | .run j x =>
      if j = i then
        match s.runStep qt i x with
        | some (_, effect) => (s.threads i).next s.shared x effect past
        | none => past
      else
        past

-- While thread `i` is inside an iteration the file system answers as it did at its start, and the
-- other threads leave `cache_` and the working directory alone.
structure Undisturbed (qt : Qt) (i : ι) (p : Threads ι τ × Option (Underway τ)) (a : Label ι τ)
    : Prop where
  disk : ∀ x, a = .run i x → ∀ u ∈ p.2, x.disk = u.disk
  others : ∀ j ≠ i, ∀ x t effect, a = .run j x → p.2 ≠ none →
    p.1.runStep qt j x = some (t, effect) → t.shared = p.1.shared

theorem follows_step {past : Option (Underway τ)} (h : (s.threads i).Follows qt s.shared past)
    (hg : Undisturbed qt i (s, past) l) (ht : Threads.step qt s l = some t)
    : (t.threads i).Follows qt t.shared ((underway qt i).extend past s l t) := by
  cases l with
  | arrive j e =>
    obtain ⟨hpc, rfl⟩ := arrive_cases ht
    by_cases hj : i = j
    . subst hj
      cases h with
      | outside houtside => exact .outside (by simpa using houtside)
      | inside _ _ hreaches =>
        rw [hpc] at hreaches
        exact hreaches.elim
    . simpa [underway, Function.update_of_ne hj] using h
  | run j x =>
    obtain ⟨⟨u, effect⟩, hrun, rfl⟩ := Option.map_eq_some_iff.mp ht
    by_cases hj : j = i
    . subst hj
      obtain ⟨sh, t', hstep, rfl⟩ := runStep_eq_some_iff.mp hrun
      simp only [underway, hrun, ↓reduceIte, Function.update_self]
      exact h.step (hg.disk x rfl) hstep
    . obtain ⟨sh, t', hstep, rfl⟩ := runStep_eq_some_iff.mp hrun
      simp only [underway, if_neg hj, Function.update_of_ne (Ne.symm hj)]
      cases h with
      | outside houtside => exact .outside houtside
      | inside hrotate hqueue hreaches =>
        have hsame : sh = s.shared := hg.others j hj x _ effect rfl (by simp) hrun
        rw [hsame]
        exact .inside hrotate hqueue hreaches

def machineFrom (qt : Qt) (s₀ : Threads ι τ) : Machine (Threads ι τ) (Label ι τ) where
  init s := s = s₀
  step := Threads.step qt

theorem iterations_atomic (ι τ : Type) [DecidableEq ι] (qt : Qt) (i : ι) (s₀ : Threads ι τ)
    (houtside : (s₀.threads i).pc = .outside)
    : ∀ s past, ((machineFrom qt s₀).withHistory (underway qt i)).ReachBy (Undisturbed qt i)
          (s, past) →
        ∀ ending totalBytes, (s.threads i).pc = .finish ending totalBytes →
          ∀ x t effect, s.runStep qt i x = some (t, effect) →
            ∃ u ∈ past, u.Completes qt (t.threads i).queue t.shared effect := by
  intro s past h ending totalBytes hpc x t effect hrun
  have hfollows : (s.threads i).Follows qt s.shared past := by
    apply Machine.ReachBy.history_invariant
      (I := fun s past => (s.threads i).Follows qt s.shared past) _ _ h
    . rintro s rfl
      exact .outside houtside
    . intro s past l t hs hg ht
      exact follows_step hs hg ht
  obtain ⟨sh, t', hstep, rfl⟩ := runStep_eq_some_iff.mp hrun
  simpa using hfollows.completes hpc hstep

theorem next_disk {t : Thread τ} {past : Option (Underway τ)} (h : ∀ u ∈ past, x.disk = u.disk)
    : ∀ u ∈ t.next sh x effect past, x.disk = u.disk := by
  unfold Thread.next
  split
  . simp
  . simp
  . intro u hu
    obtain ⟨before, hbefore, rfl⟩ := Option.map_eq_some_iff.mp hu
    rw [Underway.extend_disk]
    exact h before hbefore

theorem reachBy_own {p q : Threads ι τ × Option (Underway τ)}
    (hp : ((machineFrom qt s₀).withHistory (underway qt i)).ReachBy (Undisturbed qt i) p)
    (hdisk : ∀ u ∈ p.2, x.disk = u.disk) (n : Nat)
    (h : ((machineFrom qt s₀).withHistory (underway qt i)).run p (List.replicate n (.run i x))
      = some q)
    : ((machineFrom qt s₀).withHistory (underway qt i)).ReachBy (Undisturbed qt i) q
        ∧ ∀ u ∈ q.2, x.disk = u.disk := by
  induction n generalizing p with
  | zero =>
    obtain rfl : p = q := by simpa using h
    exact ⟨hp, hdisk⟩
  | succ n ih =>
    rw [List.replicate_succ, Machine.run_cons] at h
    obtain ⟨⟨t, past⟩, hstep, h⟩ := Option.bind_eq_some_iff.mp h
    refine ih (.step hp ?_ hstep) ?_ h
    . constructor
      . rintro x' heq
        injection heq with _ hx
        rwa [← hx]
      . rintro j hj x' _ _ heq
        injection heq with hi
        exact absurd hi.symm hj
    . obtain ⟨ht, hpast⟩ := Machine.withHistory_step_iff.mp hstep
      obtain ⟨⟨u, effect⟩, hrun, -⟩ := Option.map_eq_some_iff.mp ht
      dsimp only at hpast
      rw [hpast]
      simp only [underway, hrun, ↓reduceIte]
      exact next_disk hdisk

theorem reachBy_others {p q : Threads ι τ × Option (Underway τ)}
    (hp : ((machineFrom qt s₀).withHistory (underway qt i)).ReachBy (Undisturbed qt i) p)
    (hpast : p.2 = none) (labels : List (Label ι τ)) (hlabels : ∀ a ∈ labels, ∀ x, a ≠ .run i x)
    (h : ((machineFrom qt s₀).withHistory (underway qt i)).run p labels = some q)
    : ((machineFrom qt s₀).withHistory (underway qt i)).ReachBy (Undisturbed qt i) q := by
  apply hp.run_invariant (I := fun p => p.2 = none) labels hpast _ h
  rintro a ha ⟨s, past⟩ hnone
  dsimp only at hnone
  constructor
  . constructor
    . rintro x rfl
      exact absurd rfl (hlabels _ ha x)
    . intro _ _ _ _ _ _ hinside
      exact absurd hnone hinside
  . rintro ⟨t, past'⟩ ht
    have hpast := (Machine.withHistory_step_iff.mp ht).2
    dsimp only at hpast ⊢
    rw [hpast, hnone]
    cases a with
    | arrive => rfl
    | run j x =>
      have hj : j ≠ i := by
        rintro rfl
        exact hlabels _ ha x rfl
      simp [underway, hj]

def takesPage : StepInput :=
  { onTwoDirs with result := .accepted ⟨1000, by decide⟩ }

def pageBegun : List (Label Bool Nat) :=
  [.arrive false ⟨0, get "/a"⟩, .arrive true ⟨1, get "/b"⟩] ++ List.replicate 7 (.run true takesPage)

def listingBegun : List (Label Bool Nat) :=
  List.replicate 4 (.run false takesPage)

def pageEnded : List (Label Bool Nat) :=
  List.replicate 5 (.run false takesPage)

def watched : Machine (Threads Bool Nat × Option (Underway Nat)) (Label Bool Nat) :=
  (machineFrom Qt.unix { shared := { cwd := ascii "/" } }).withHistory (underway Qt.unix false)

theorem undisturbed_send {s : Threads Bool Nat} (past : Option (Underway Nat))
    (hpc : (s.threads true).pc = .send totalBytes bytesleft)
    : Undisturbed Qt.unix false (s, past) (.run true x) := by
  constructor
  . simp
  . rintro j _ x' t effect heq - hrun
    injection heq with hj
    subst hj
    obtain ⟨sh, t', hstep, rfl⟩ := runStep_eq_some_iff.mp hrun
    cases Thread.step_cases hstep with
    | serve _ hserve =>
      rw [hpc] at hserve
      cases serveStep_cases hserve with
      | sent => rfl
    | _ => rfl

-- The second thread sends its page while the first one is listing its directory.
theorem iterations_atomic_pageBegun
    : ∃ p u t effect, watched.run ({ shared := { cwd := ascii "/" } }, none)
          (pageBegun ++ (listingBegun ++ (.run true takesPage :: pageEnded))) = some p
        ∧ p.1.runStep Qt.unix false takesPage = some (t, effect)
        ∧ u ∈ p.2 ∧ u.bytes.length = 188
        ∧ u.Completes Qt.unix (t.threads false).queue t.shared effect := by
  have hrun : (watched.run ({ shared := { cwd := ascii "/" } }, none) pageBegun).any (fun p =>
      p.2.isNone && (watched.run p listingBegun).any (fun q =>
        (q.1.threads true).pc == .send 0 163 && (watched.run q (.run true takesPage :: pageEnded)).any
          (fun r => (r.1.threads false).pc == .finish .complete 188
            && r.2.map (·.bytes.length) == some 188
            && (r.1.runStep Qt.unix false takesPage).isSome))) := by
    decide +kernel
  obtain ⟨p, hp, hrun⟩ := (Option.any_eq_true _ _).mp hrun
  rw [Bool.and_eq_true, Option.isNone_iff_eq_none] at hrun
  obtain ⟨q, hq, hrest⟩ := (Option.any_eq_true _ _).mp hrun.2
  rw [Bool.and_eq_true, beq_iff_eq] at hrest
  obtain ⟨r, hr, hend⟩ := (Option.any_eq_true _ _).mp hrest.2
  simp only [Bool.and_eq_true, beq_iff_eq, Option.isSome_iff_exists, Prod.exists] at hend
  obtain ⟨⟨hpc, hbytes⟩, t, effect, ht⟩ := hend
  obtain ⟨u, hu, hlength⟩ := Option.map_eq_some_iff.mp hbytes
  have hreach : watched.ReachBy (Undisturbed Qt.unix false) p := by
    apply reachBy_others (p := ({ shared := { cwd := ascii "/" } }, none)) (.init ⟨rfl, rfl⟩) rfl
      pageBegun _ hp
    simp [pageBegun]
  obtain ⟨hreach, hdisk⟩ := reachBy_own hreach (by simp [hrun.1]) 4 hq
  have hwhole : watched.run ({ shared := { cwd := ascii "/" } }, none)
      (pageBegun ++ (listingBegun ++ (.run true takesPage :: pageEnded))) = some r := by
    rw [Machine.run_append, hp, Option.bind_some, Machine.run_append, hq, Option.bind_some, hr]
  rw [Machine.run_cons] at hr
  obtain ⟨⟨s, past⟩, hsent, hr⟩ := Option.bind_eq_some_iff.mp hr
  have hreach := hreach.step (undisturbed_send q.2 hrest.1) hsent
  have hpast : past = q.2 := (Machine.withHistory_step_iff.mp hsent).2
  obtain ⟨hreach, -⟩ := reachBy_own hreach (by rwa [hpast]) 5 hr
  obtain ⟨u', hu', hcompletes⟩ :=
    iterations_atomic Bool Nat Qt.unix false _ rfl r.1 r.2 hreach .complete 188 hpc takesPage t
      effect ht
  obtain rfl : u = u' := Option.mem_unique hu hu'
  exact ⟨r, u, t, effect, hwhole, ht, hu, hlength, hcompletes⟩

end Threads

end HttpMessageDispatcher
