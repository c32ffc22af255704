import OpenServer.Dispatcher.Lemmas.Thread

/-!
This module connects the two models of an iteration: a dispatcher thread that nobody disturbs does
what `iterate` says.
-/

namespace HttpMessageDispatcher

variable {qt : Qt} {sh : Shared}

def Effect.bytes : Effect τ → Bytes
  | .sent _ bytes => bytes
  | _ => []

def Thread.runs (qt : Qt) (sh : Shared) (t : Thread τ)
    : List StepInput → Option (Shared × Thread τ × Bytes)
  | [] => some (sh, t, [])
  | x :: xs => do
    let (sh, t, effect) ← t.step qt x sh
    let (sh, t, bytes) ← t.runs qt sh xs
    some (sh, t, effect.bytes ++ bytes)

namespace Thread

theorem runs_cons {t : Thread τ} (h : t.step qt x sh = some (sh', t', effect))
    (hrest : t'.runs qt sh' xs = some (sh'', t'', bytes))
    : t.runs qt sh (x :: xs) = some (sh'', t'', effect.bytes ++ bytes) := by
  simp [runs, h, hrest]

theorem runs_append {t : Thread τ} (h : t.runs qt sh xs = some (sh', t', bytes))
    (hrest : t'.runs qt sh' ys = some (sh'', t'', bytes'))
    : t.runs qt sh (xs ++ ys) = some (sh'', t'', bytes ++ bytes') := by
  induction xs generalizing t sh bytes with
  | nil =>
    simp only [runs, Option.some.injEq, Prod.mk.injEq] at h
    obtain ⟨rfl, rfl, rfl⟩ := h
    simpa using hrest
  | cons x xs ih =>
    simp only [runs, Option.bind_eq_bind, Option.bind_eq_some_iff, Option.some.injEq,
      Prod.mk.injEq] at h
    obtain ⟨⟨sh₁, t₁, effect⟩, hstep, ⟨sh₂, t₂, bytes₂⟩, hruns, rfl, rfl, rfl⟩ := h
    rw [List.cons_append, runs_cons hstep (ih hruns), List.append_assoc]

end Thread

def Alone (qt : Qt) (disk : Disk) (sh : Shared) (t : Thread τ) (sh' : Shared) (t' : Thread τ)
    (bytes : Bytes) : Prop :=
  ∃ xs, (∀ x ∈ xs, x.disk = disk) ∧ t.runs qt sh xs = some (sh', t', bytes)

namespace Alone

variable {disk : Disk} {t t' t'' : Thread τ}

theorem trans (h : Alone qt disk sh t sh' t' bytes) (h' : Alone qt disk sh' t' sh'' t'' bytes')
    : Alone qt disk sh t sh'' t'' (bytes ++ bytes') := by
  obtain ⟨xs, hxs, hruns⟩ := h
  obtain ⟨ys, hys, hruns'⟩ := h'
  refine ⟨xs ++ ys, ?_, Thread.runs_append hruns hruns'⟩
  intro x hx
  cases List.mem_append.mp hx with
  | inl hx => exact hxs x hx
  | inr hx => exact hys x hx

theorem of_step {x : StepInput} (h : t.step qt x sh = some (sh', t', effect))
    : Alone qt x.disk sh t sh' t' effect.bytes := by
  refine ⟨[x], by simp, ?_⟩
  simp [Thread.runs, h]

end Alone

def Thread.serving (pc : Pc) (front : Queued τ) (c : ClientSession) (rest : List (Queued τ))
    : Thread τ where
  pc := pc
  queue := { front with session := c } :: rest

theorem Alone.of_serve {x : StepInput} (front : Queued τ) (rest : List (Queued τ))
    (h : serveStep qt x sh c pc = some (sh', c', pc', bytes))
    : Alone qt x.disk sh (.serving pc front c rest) sh' (.serving pc' front c' rest) bytes := by
  have hstep : (Thread.serving pc front c rest).step qt x sh = some (sh', .serving pc' front c' rest,
      if bytes = [] then .quiet else .sent { front with session := c' } bytes) := by
    cases pc with
    | outside => cases h
    | finish => cases h
    | _ => simp [Thread.step, Thread.serving, h]
  have := of_step hstep
  split at this
  . next hbytes => simpa [hbytes, Effect.bytes] using this
  . next hbytes => simpa [Effect.bytes] using this

theorem alone_request {disk : Disk} (front : Queued τ) (rest : List (Queued τ))
    (h : onClientRequest qt disk indeterminate sh c = some (sh', c'))
    : Alone qt disk sh (.serving .request front c rest) sh' (.serving .select front c' rest) [] := by
  let x : StepInput := { disk, indeterminate, result := .closed }
  cases onClientRequest_cases h with
  | pending hflag =>
    apply Alone.of_serve (x := x)
    simp [serveStep, hflag]
  | cached hflag hparse hlookup =>
    apply Alone.of_serve (x := x)
    simp [serveStep, hflag, hparse, hlookup, x]
  | @file c₁ c₂ c₃ r hflag hparse hlookup hread =>
    have hrequest : serveStep qt x sh c .request = some (sh, c₂, .readFile, []) := by
      simp [serveStep, hflag, hparse, hlookup, x]
    have hfile : serveStep qt x sh c₂ .readFile = some (sh, compose c₃ r, .store true none, []) := by
      simp [serveStep, hread, x]
    exact (Alone.of_serve front rest hrequest).trans
      ((Alone.of_serve front rest hfile).trans (Alone.of_serve (x := x) front rest rfl))
  | @directory c₁ c₂ cwd r hflag hparse hlookup hcwd hr =>
    have hrequest : serveStep qt x sh c .request = some (sh, c₂, .setCurrent, []) := by
      simp [serveStep, hflag, hparse, hlookup, x]
    have henter : serveStep qt x sh c₂ .setCurrent
        = some ({ sh with cwd }, c₂, .entryInfoList (changeDir qt disk sh.cwd c₂), []) := by
      rw [hcwd]
      rfl
    have hlist : serveStep qt x { sh with cwd } c₂ (.entryInfoList (changeDir qt disk sh.cwd c₂))
        = some ({ sh with cwd }, c₂,
            .currentPath (changeDir qt disk sh.cwd c₂) (disk.entryInfoList cwd), []) := by
      rfl
    have hhead : serveStep qt x { sh with cwd } c₂
        (.currentPath (changeDir qt disk sh.cwd c₂) (disk.entryInfoList cwd))
        = some ({ sh with cwd }, compose c₂ r,
            .store indeterminate (changeDir qt disk sh.cwd c₂), []) := by
      rw [hr]
      rfl
    exact (Alone.of_serve front rest hrequest).trans ((Alone.of_serve front rest henter).trans
      ((Alone.of_serve front rest hlist).trans ((Alone.of_serve front rest hhead).trans
        (Alone.of_serve (x := x) front rest rfl))))

theorem alone_sendLoop {disk : Disk} (front : Queued τ) (rest : List (Queued τ))
    (hdata : responseData sh c = some data) (results : Nat → SendResult) (totalBytes : Nat)
    (hle : totalBytes ≤ data.length)
    : Alone qt disk sh (.serving (.send totalBytes (data.length - totalBytes)) front c rest) sh
        (.serving (.finish (sendLoop data results totalBytes).ending
          (sendLoop data results totalBytes).totalBytes) front c rest)
        (sendLoop data results totalBytes).sent := by
  fun_induction sendLoop data results totalBytes with
  | case1 results totalBytes hlt n hres snd loop ih =>
    have hsend : serveStep qt { disk, indeterminate := false, result := .accepted n } sh c
        (.send totalBytes (data.length - totalBytes))
        = some (sh, c, .send (totalBytes + snd) (data.length - totalBytes - snd),
            (data.drop totalBytes).take snd) := by
      have : totalBytes + (data.length - totalBytes) ≤ data.length := by omega
      simp [serveStep, hdata, sendOnce, hlt, this, snd]
    refine (Alone.of_serve front rest hsend).trans ?_
    rw [Nat.sub_sub]
    exact ih (by omega)
  | case2 results totalBytes hlt hres =>
    apply Alone.of_serve (x := { disk, indeterminate := false, result := .closed })
    simp [serveStep, hdata, sendOnce, hlt]
  | case3 results totalBytes hlt hres =>
    apply Alone.of_serve (x := { disk, indeterminate := false, result := .wouldBlock })
    simp [serveStep, hdata, sendOnce, hlt]
  | case4 results totalBytes hlt hres =>
    apply Alone.of_serve (x := { disk, indeterminate := false, result := .failed })
    simp [serveStep, hdata, sendOnce, hlt]
  | case5 results totalBytes hge =>
    apply Alone.of_serve (x := { disk, indeterminate := false, result := .closed })
    simp [serveStep, hdata, sendOnce, hge]

theorem alone_popped {disk : Disk} {loop : SendLoop} (front : Queued τ) (rest : List (Queued τ))
    (hfinished : isFinished (eraseSent (endSend c loop.ending) loop.totalBytes))
    : Alone qt disk sh (.serving (.finish loop.ending loop.totalBytes) front c rest) sh
        { queue := rest } [] := by
  let x : StepInput := { disk, indeterminate := false, result := .closed }
  let c' := eraseSent (endSend c loop.ending) loop.totalBytes
  have hstep : (Thread.serving (.finish loop.ending loop.totalBytes) front c rest).step qt x sh
      = some (sh, { queue := rest },
          if c'.keepAlive then .quiet else .close { front with session := c' }) := by
    simp [Thread.step, Thread.serving, hfinished, c']
  have := Alone.of_step hstep
  split at this <;> exact this

theorem alone_kept {disk : Disk} {loop : SendLoop} (front : Queued τ) (rest : List (Queued τ))
    (hfinished : ¬ isFinished (eraseSent (endSend c loop.ending) loop.totalBytes))
    : Alone qt disk sh (.serving (.finish loop.ending loop.totalBytes) front c rest) sh
        { queue := { front with
            session := eraseSent (endSend c loop.ending) loop.totalBytes } :: rest } [] := by
  let x : StepInput := { disk, indeterminate := false, result := .closed }
  let c' := eraseSent (endSend c loop.ending) loop.totalBytes
  have hstep : (Thread.serving (.finish loop.ending loop.totalBytes) front c rest).step qt x sh
      = some (sh, { queue := { front with session := c' } :: rest }, .quiet) := by
    simp [Thread.step, Thread.serving, hfinished, c']
  exact Alone.of_step hstep

theorem alone_iterate {queue : List (Queued τ)} (h : iterate qt inp sh queue = some r)
    : Alone qt inp.disk sh { queue } r.shared { queue := r.queue } r.loop.sent := by
  let x : StepInput := { disk := inp.disk, indeterminate := inp.indeterminate, result := .closed }
  have hloop : ∀ {front rest sh' c data}, rotate queue = front :: rest →
      onClientRequest qt inp.disk inp.indeterminate sh front.session = some (sh', c) →
      responseData sh' c = some data →
      Alone qt inp.disk sh { queue } sh' (.serving (.finish (sendLoop data inp.results 0).ending
        (sendLoop data inp.results 0).totalBytes) front c rest)
        (sendLoop data inp.results 0).sent := by
    intro front rest sh' c data hrotate hrequest hdata
    have hstart : ({ queue } : Thread τ).step qt x sh
        = some (sh, .serving .request front front.session rest, .quiet) := by
      cases queue with
      | nil => cases hrotate
      | cons first others => simp [Thread.step, Thread.serving, hrotate]
    have hselect : serveStep qt x sh' c .select = some (sh', c, .send 0 data.length, []) := by
      simp [serveStep, hdata]
    refine (Alone.of_step hstart).trans ?_
    refine (alone_request front rest hrequest).trans ?_
    refine (Alone.of_serve front rest hselect).trans ?_
    exact alone_sendLoop front rest hdata inp.results 0 (Nat.zero_le _)
  cases iterate_cases h with
  | popped hrotate hrequest hdata hfinished =>
    have := (hloop hrotate hrequest hdata).trans (alone_popped _ _ hfinished)
    rwa [List.append_nil] at this
  | kept hrotate hrequest hdata hfinished =>
    have := (hloop hrotate hrequest hdata).trans (alone_kept _ _ hfinished)
    rwa [List.append_nil] at this

end HttpMessageDispatcher
