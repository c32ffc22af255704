import OpenServer.Dispatcher.Impl.Thread
import OpenServer.Dispatcher.Lemmas.History

/-!
This module contains the case analysis of one step of a dispatcher thread, and shows when directory
requests that are served side by side do not mix.
-/

namespace HttpMessageDispatcher

variable {qt : Qt}

inductive Thread.Stepped (qt : Qt) (x : StepInput) (sh : Shared) (t : Thread τ)
    : Shared → Thread τ → Effect τ → Prop where
  | start (hpc : t.pc = .outside) (hqueue : t.queue ≠ [])
      : Stepped qt x sh t sh { pc := .request, queue := rotate t.queue } .quiet
  | serve (hqueue : t.queue = front :: rest)
      (hserve : serveStep qt x sh front.session t.pc = some (sh', c, pc', bytes))
      : Stepped qt x sh t sh' { pc := pc', queue := { front with session := c } :: rest }
          (if bytes = [] then .quiet else .sent { front with session := c } bytes)
  | popped (hpc : t.pc = .finish ending totalBytes) (hqueue : t.queue = front :: rest)
      (hc : c = eraseSent (endSend front.session ending) totalBytes) (hfinished : isFinished c)
      : Stepped qt x sh t sh { pc := .outside, queue := rest }
          (if c.keepAlive then .quiet else .close { front with session := c })
  | kept (hpc : t.pc = .finish ending totalBytes) (hqueue : t.queue = front :: rest)
      (hc : c = eraseSent (endSend front.session ending) totalBytes) (hfinished : ¬ isFinished c)
      : Stepped qt x sh t sh { pc := .outside, queue := { front with session := c } :: rest } .quiet

theorem Thread.step_cases {t : Thread τ} (h : t.step qt x sh = some (sh', t', effect))
    : Stepped qt x sh t sh' t' effect := by
  unfold step at h
  split at h
  . cases h
  . next hpc hne =>
    simp only [Option.some.injEq, Prod.mk.injEq] at h
    obtain ⟨rfl, rfl, rfl⟩ := h
    exact .start hpc hne
  . next ending totalBytes front rest hpc hqueue =>
    dsimp only at h
    split at h
    . next hfinished =>
      simp only [Option.some.injEq, Prod.mk.injEq] at h
      obtain ⟨rfl, rfl, rfl⟩ := h
      exact .popped hpc hqueue rfl hfinished
    . next hfinished =>
      simp only [Option.some.injEq, Prod.mk.injEq] at h
      obtain ⟨rfl, rfl, rfl⟩ := h
      exact .kept hpc hqueue rfl hfinished
  . next hqueue _ _ =>
    simp only [Option.bind_eq_bind, Option.bind_eq_some_iff] at h
    obtain ⟨⟨sh₁, c, pc', bytes⟩, hserve, h⟩ := h
    simp only [Option.some.injEq, Prod.mk.injEq] at h
    obtain ⟨rfl, rfl, rfl⟩ := h
    exact .serve hqueue hserve

inductive Served (qt : Qt) (x : StepInput) (sh : Shared) (c : ClientSession)
    : Pc → Shared → ClientSession → Pc → Bytes → Prop where
  | pending (hflag : c.ewouldblockFlag)
      : Served qt x sh c .request sh { c with ewouldblockFlag := false } .select []
  | cached (hflag : ¬ c.ewouldblockFlag) (hparse : parseRequest qt c = some c₁)
      (hlookup : lookup qt x.disk sh c₁ = (.cached, c₂))
      : Served qt x sh c .request sh c₂ .select []
  | file (hflag : ¬ c.ewouldblockFlag) (hparse : parseRequest qt c = some c₁)
      (hlookup : lookup qt x.disk sh c₁ = (.file, c₂))
      : Served qt x sh c .request sh c₂ .readFile []
  | directory (hflag : ¬ c.ewouldblockFlag) (hparse : parseRequest qt c = some c₁)
      (hlookup : lookup qt x.disk sh c₁ = (.directory, c₂))
      : Served qt x sh c .request sh c₂ .setCurrent []
  | read (hread : readFile qt x.disk sh.cwd c = some (c', r))
      : Served qt x sh c .readFile sh (compose c' r) (.store true none) []
  | entered (hentered : entered = changeDir qt x.disk sh.cwd c)
      : Served qt x sh c .setCurrent { sh with cwd := entered.getD sh.cwd } c
          (.entryInfoList entered) []
  | listed : Served qt x sh c (.entryInfoList entered) sh c
      (.currentPath entered (x.disk.entryInfoList sh.cwd)) []
  | headed : Served qt x sh c (.currentPath entered list) sh
      (compose c (directoryResponse list sh.cwd)) (.store x.indeterminate entered) []
  | stored : Served qt x sh c (.store should entered) (store should sh c).1 (store should sh c).2
      .select []
  | selected (hdata : responseData sh c = some data)
      : Served qt x sh c .select sh c (.send 0 data.length) []
  | sent (hdata : responseData sh c = some data)
      (hsend : sendOnce x.result data totalBytes bytesleft = some (pc, bytes))
      : Served qt x sh c (.send totalBytes bytesleft) sh c pc bytes

theorem serveStep_cases (h : serveStep qt x sh c pc = some (sh', c', pc', bytes))
    : Served qt x sh c pc sh' c' pc' bytes := by
  cases pc with
  | outside => cases h
  | finish => cases h
  | request =>
    simp only [serveStep] at h
    split at h
    . next hflag =>
      simp only [Option.some.injEq, Prod.mk.injEq] at h
      obtain ⟨rfl, rfl, rfl, rfl⟩ := h
      exact .pending hflag
    . next hflag =>
      simp only [Option.bind_eq_bind, Option.bind_eq_some_iff] at h
      obtain ⟨c₁, hparse, h⟩ := h
      split at h
      . next c₂ hlookup =>
        simp only [Option.some.injEq, Prod.mk.injEq] at h
        obtain ⟨rfl, rfl, rfl, rfl⟩ := h
        exact .cached hflag hparse hlookup
      . next c₂ hlookup =>
        simp only [Option.some.injEq, Prod.mk.injEq] at h
        obtain ⟨rfl, rfl, rfl, rfl⟩ := h
        exact .file hflag hparse hlookup
      . next c₂ hlookup =>
        simp only [Option.some.injEq, Prod.mk.injEq] at h
        obtain ⟨rfl, rfl, rfl, rfl⟩ := h
        exact .directory hflag hparse hlookup
  | readFile =>
    simp only [serveStep, Option.bind_eq_bind, Option.bind_eq_some_iff, Option.some.injEq,
      Prod.mk.injEq] at h
    obtain ⟨⟨c', r⟩, hread, rfl, rfl, rfl, rfl⟩ := h
    exact .read hread
  | setCurrent =>
    simp only [serveStep, Option.some.injEq, Prod.mk.injEq] at h
    obtain ⟨rfl, rfl, rfl, rfl⟩ := h
    exact .entered rfl
  | entryInfoList entered =>
    simp only [serveStep, Option.some.injEq, Prod.mk.injEq] at h
    obtain ⟨rfl, rfl, rfl, rfl⟩ := h
    exact .listed
  | currentPath entered list =>
    simp only [serveStep, Option.some.injEq, Prod.mk.injEq] at h
    obtain ⟨rfl, rfl, rfl, rfl⟩ := h
    exact .headed
  | store should entered =>
    simp only [serveStep, Option.some.injEq, Prod.mk.injEq] at h
    obtain ⟨rfl, rfl, rfl, rfl⟩ := h
    exact .stored
  | select =>
    simp only [serveStep, Option.bind_eq_bind, Option.bind_eq_some_iff, Option.some.injEq,
      Prod.mk.injEq] at h
    obtain ⟨data, hdata, rfl, rfl, rfl, rfl⟩ := h
    exact .selected hdata
  | send totalBytes bytesleft =>
    simp only [serveStep, Option.bind_eq_bind, Option.bind_eq_some_iff, Option.some.injEq,
      Prod.mk.injEq] at h
    obtain ⟨data, hdata, ⟨pc, bytes⟩, hsend, rfl, rfl, rfl, rfl⟩ := h
    exact .sent hdata hsend

theorem sendOnce_cases (h : sendOnce result data totalBytes bytesleft = some (pc, bytes))
    : (∃ n, result = .accepted n ∧ totalBytes < data.length
          ∧ totalBytes + bytesleft ≤ data.length
          ∧ pc = .send (totalBytes + min n.val bytesleft) (bytesleft - min n.val bytesleft)
          ∧ bytes = (data.drop totalBytes).take (min n.val bytesleft))
        ∨ ∃ ending, pc = .finish ending totalBytes ∧ bytes = []
          ∧ (ending = .complete ∧ data.length ≤ totalBytes
            ∨ totalBytes < data.length
              ∧ (ending = .closed ∧ result = .closed
                ∨ ending = .wouldBlock ∧ result = .wouldBlock
                ∨ ending = .failed ∧ result = .failed)) := by
  unfold sendOnce at h
  split at h
  . next hlt =>
    split at h
    . next n =>
      split at h
      . next hfits =>
        injection h with h
        simp only [Prod.mk.injEq] at h
        exact .inl ⟨n, rfl, hlt, hfits.2, h.1.symm, h.2.symm⟩
      . cases h
    all_goals
      injection h with h
      simp only [Prod.mk.injEq] at h
      exact .inr ⟨_, h.1.symm, h.2.symm, .inr ⟨hlt, by simp⟩⟩
  . next hge =>
    injection h with h
    simp only [Prod.mk.injEq] at h
    exact .inr ⟨_, h.1.symm, h.2.symm, .inl ⟨rfl, by omega⟩⟩

theorem sendOnce_pc (h : sendOnce result data totalBytes bytesleft = some (pc, bytes))
    : (∃ total left, pc = .send total left) ∨ ∃ ending total, pc = .finish ending total := by
  obtain ⟨n, -, -, -, hpc, -⟩ | ⟨ending, hpc, -⟩ := sendOnce_cases h
  . exact .inl ⟨_, _, hpc⟩
  . exact .inr ⟨_, _, hpc⟩

theorem serveStep_sameConnection (h : serveStep qt x sh c pc = some (sh', c', pc', bytes))
    : SameConnection c c' := by
  cases serveStep_cases h with
  | pending => constructor <;> rfl
  | cached hflag hparse hlookup =>
    exact (parseRequest_sameConnection hparse).trans (lookup_sameConnection hlookup)
  | file hflag hparse hlookup =>
    exact (parseRequest_sameConnection hparse).trans (lookup_sameConnection hlookup)
  | directory hflag hparse hlookup =>
    exact (parseRequest_sameConnection hparse).trans (lookup_sameConnection hlookup)
  | read hread => exact (readFile_sameConnection hread).trans (compose_sameConnection _ _)
  | headed => exact compose_sameConnection _ _
  | stored => exact store_sameConnection _ _ _
  | entered => constructor <;> rfl
  | listed => constructor <;> rfl
  | selected => constructor <;> rfl
  | sent => constructor <;> rfl

theorem serveStep_ewouldblockFlag (h : serveStep qt x sh c pc = some (sh', c', pc', bytes))
    (hflag : pc ≠ .request → c.ewouldblockFlag = false)
    : c'.ewouldblockFlag = false := by
  cases serveStep_cases h with
  | pending => rfl
  | cached hunflagged hparse hlookup =>
    obtain ⟨_, _, -, -, -, rfl⟩ := parsed_cached hparse hlookup
    simpa using hunflagged
  | file hunflagged hparse hlookup =>
    obtain ⟨_, -, -, rfl⟩ := parsed_file hparse hlookup
    simpa using hunflagged
  | directory hunflagged hparse hlookup =>
    obtain ⟨_, -, -, rfl⟩ := parsed_directory hparse hlookup
    simpa using hunflagged
  | @read c₁ r hread =>
    obtain ⟨_, rfl⟩ := readFile_eq hread
    obtain ⟨_, _, hc⟩ := compose_eq _ r
    rw [hc]
    exact hflag (by simp)
  | headed =>
    obtain ⟨_, _, hc⟩ := compose_eq c (directoryResponse _ sh.cwd)
    rw [hc]
    exact hflag (by simp)
  | stored =>
    unfold store
    split
    . exact hflag (by simp)
    . exact hflag (by simp)
  | entered => exact hflag (by simp)
  | listed => exact hflag (by simp)
  | selected => exact hflag (by simp)
  | sent => exact hflag (by simp)

theorem eraseSent_endSend_ewouldblockFlag (c : ClientSession) (ending : SendEnd) (totalBytes : Nat)
    : (eraseSent (endSend c ending) totalBytes).ewouldblockFlag
        =
      (c.ewouldblockFlag || decide (ending = .wouldBlock)) := by
  unfold eraseSent endSend
  cases ending <;> dsimp only <;> repeat' split
  all_goals simp

theorem eraseSent_endSend_sameConnection (c : ClientSession) (ending : SendEnd) (totalBytes : Nat)
    : SameConnection c (eraseSent (endSend c ending) totalBytes) := by
  unfold eraseSent endSend
  cases ending <;> dsimp only <;> repeat' split
  all_goals constructor <;> rfl

def SameOrigin (e e' : Queued τ) : Prop :=
  e'.tag = e.tag ∧ e'.session.socket = e.session.socket

theorem Thread.step_sameConnection {t t' : Thread τ} (h : t.step qt x sh = some (sh', t', effect))
    : ∀ e' ∈ t'.queue, ∃ e ∈ t.queue, e'.tag = e.tag ∧ SameConnection e.session e'.session := by
  have hsame : ∀ e : Queued τ, e.tag = e.tag ∧ SameConnection e.session e.session :=
    fun e => ⟨rfl, rfl, rfl, rfl⟩
  intro e' he'
  cases Thread.step_cases h with
  | start hpc hqueue => exact ⟨e', (rotate_perm _).mem_iff.mp he', hsame e'⟩
  | serve hqueue hserve =>
    rw [hqueue]
    cases he' with
    | head => exact ⟨_, List.mem_cons_self, rfl, serveStep_sameConnection hserve⟩
    | tail _ he' => exact ⟨e', List.mem_cons_of_mem _ he', hsame e'⟩
  | popped hpc hqueue hc hfinished =>
    rw [hqueue]
    exact ⟨e', List.mem_cons_of_mem _ he', hsame e'⟩
  | kept hpc hqueue hc hfinished =>
    rw [hqueue]
    cases he' with
    | head =>
      rw [hc]
      exact ⟨_, List.mem_cons_self, rfl, eraseSent_endSend_sameConnection _ _ _⟩
    | tail _ he' => exact ⟨e', List.mem_cons_of_mem _ he', hsame e'⟩

theorem Thread.step_close {t t' : Thread τ} (h : t.step qt x sh = some (sh', t', .close e'))
    : ∃ e ∈ t.queue, e.session.keepAlive = false := by
  generalize heffect : Effect.close e' = effect at h
  cases Thread.step_cases h with
  | start => cases heffect
  | kept => cases heffect
  | serve => split at heffect <;> cases heffect
  | popped hpc hqueue hc hfinished =>
    split at heffect
    . cases heffect
    . next hkeep =>
      rw [hc, (eraseSent_endSend_sameConnection _ _ _).keepAlive] at hkeep
      rw [hqueue]
      exact ⟨_, List.mem_cons_self, by simpa using hkeep⟩

theorem Thread.step_sent {t t' : Thread τ} (h : t.step qt x sh = some (sh', t', .sent e' bytes))
    : ∃ e ∈ t.queue, SameOrigin e e' := by
  generalize heffect : Effect.sent e' bytes = effect at h
  cases Thread.step_cases h with
  | start => cases heffect
  | kept => cases heffect
  | popped => split at heffect <;> cases heffect
  | serve hqueue hserve =>
    split at heffect
    . cases heffect
    . injection heffect with he'
      rw [he', hqueue]
      exact ⟨_, List.mem_cons_self, rfl, (serveStep_sameConnection hserve).socket⟩

def Requests (qt : Qt) (disk : Disk) (c : ClientSession) (d : QString) : Prop :=
  ∃ cwd, changeDir qt disk cwd c = some d

theorem Requests.compose (h : Requests qt disk c d) (r : Response)
    : Requests qt disk (compose c r) d := by
  obtain ⟨message, size, hc⟩ := compose_eq c r
  rw [hc]
  exact h

-- Between `setCurrent` and `currentPath` the process stands where the thread has brought it.
structure Thread.Faithful (qt : Qt) (disk : Disk) (cwd : QString) (t : Thread τ) : Prop where
  listing : ∀ d front, t.pc = .entryInfoList (some d) → t.queue.head? = some front →
    cwd = d ∧ Requests qt disk front.session d
  heading : ∀ d list front, t.pc = .currentPath (some d) list → t.queue.head? = some front →
    cwd = d ∧ list = disk.entryInfoList d ∧ Requests qt disk front.session d
  built : ∀ should d front, t.pc = .store should (some d) → t.queue.head? = some front →
    front.session.sendMessage = directoryAnswer disk d ∧ Requests qt disk front.session d

namespace Thread.Faithful

theorem of_pc {t : Thread τ} (hlisting : ∀ d, t.pc ≠ .entryInfoList (some d))
    (hheading : ∀ d list, t.pc ≠ .currentPath (some d) list)
    (hbuilt : ∀ should d, t.pc ≠ .store should (some d))
    : Faithful qt disk cwd t := by
  constructor
  . intro d _ hpc
    exact absurd hpc (hlisting d)
  . intro d list _ hpc
    exact absurd hpc (hheading d list)
  . intro should d _ hpc
    exact absurd hpc (hbuilt should d)

theorem serve {t : Thread τ} (h : Faithful qt x.disk sh.cwd t) (hqueue : t.queue = front :: rest)
    (hserve : serveStep qt x sh front.session t.pc = some (sh', c, pc', bytes))
    : Faithful qt x.disk sh'.cwd
        { pc := pc', queue := { front with session := c } :: rest : Thread τ } := by
  have hfront : t.queue.head? = some front := by simp [hqueue]
  have hstep := serveStep_cases hserve
  generalize hpc : t.pc = pc at hstep
  cases hstep with
  | pending => apply of_pc <;> simp
  | cached => apply of_pc <;> simp
  | file => apply of_pc <;> simp
  | directory => apply of_pc <;> simp
  | read => apply of_pc <;> simp
  | stored => apply of_pc <;> simp
  | selected => apply of_pc <;> simp
  | sent hdata hsend =>
    rcases sendOnce_pc hsend with ⟨_, _, rfl⟩ | ⟨_, _, rfl⟩
    . apply of_pc <;> simp
    . apply of_pc <;> simp
  | entered hentered =>
    constructor
    . rintro d _ hd hfront
      injection hd with hd
      injection hfront with hfront
      rw [hd, ← hfront]
      exact ⟨rfl, sh.cwd, hentered ▸ hd⟩
    . simp
    . simp
  | listed =>
    constructor
    . simp
    . rintro d list _ hd hfront'
      injection hd with hd hlist
      injection hfront' with hfront'
      obtain ⟨hcwd, hrequests⟩ := h.listing d front (by rw [hpc, hd]) hfront
      rw [← hlist, ← hfront', hcwd]
      exact ⟨rfl, rfl, hrequests⟩
    . simp
  | headed =>
    constructor
    . simp
    . simp
    . rintro should d _ hd hfront'
      injection hd with hshould hd
      injection hfront' with hfront'
      obtain ⟨hcwd, hlist, hrequests⟩ := h.heading d _ front (by rw [hpc, hd]) hfront
      rw [← hfront', hlist, hcwd]
      refine ⟨?_, hrequests.compose _⟩
      simp [compose, directoryResponse, directoryAnswer]

theorem step {t t' : Thread τ} (h : Faithful qt x.disk sh.cwd t)
    (hstep : t.step qt x sh = some (sh', t', effect))
    : Faithful qt x.disk sh'.cwd t' := by
  cases Thread.step_cases hstep with
  | start => apply of_pc <;> simp
  | serve hqueue hserve => exact h.serve hqueue hserve
  | popped => apply of_pc <;> simp
  | kept => apply of_pc <;> simp

end Thread.Faithful

def Thread.Between (t : Thread τ) (d : QString) : Prop :=
  t.pc = .entryInfoList (some d) ∨ ∃ list, t.pc = .currentPath (some d) list

theorem Thread.Faithful.of_cwd {t : Thread τ} (h : Faithful qt disk cwd t)
    (hcwd : ∀ d, t.Between d → cwd = d → cwd' = d)
    : Faithful qt disk cwd' t := by
  constructor
  . intro d front hpc hfront
    obtain ⟨heq, hrequests⟩ := h.listing d front hpc hfront
    exact ⟨hcwd d (.inl hpc) heq, hrequests⟩
  . intro d list front hpc hfront
    obtain ⟨heq, hlist, hrequests⟩ := h.heading d list front hpc hfront
    exact ⟨hcwd d (.inr ⟨list, hpc⟩) heq, hlist, hrequests⟩
  . exact h.built

theorem Thread.step_cwd {t : Thread τ} (h : t.step qt x sh = some (sh', t', effect))
    : sh'.cwd = sh.cwd
        ∨ ∃ front d, t.pc = .setCurrent ∧ t.queue.head? = some front
          ∧ changeDir qt x.disk sh.cwd front.session = some d ∧ sh'.cwd = d := by
  cases Thread.step_cases h with
  | start => exact .inl rfl
  | popped => exact .inl rfl
  | kept => exact .inl rfl
  | serve hqueue hserve =>
    have hstep := serveStep_cases hserve
    generalize hpc : t.pc = pc at hstep
    cases hstep with
    | @entered entered hentered =>
      cases entered with
      | none => exact .inl rfl
      | some d => exact .inr ⟨_, d, rfl, by rw [hqueue]; rfl, hentered.symm, rfl⟩
    | stored =>
      left
      unfold store
      split <;> rfl
    | _ => exact .inl rfl

namespace Threads

variable [DecidableEq ι]

-- The file system stays as it is, and no thread moves the process away from the directory of a
-- thread that is between its `setCurrent` and its `currentPath`.
def KeepsDirectory (qt : Qt) (disk : Disk) (s : Threads ι τ) (l : Label ι τ) : Prop :=
  ∀ i x, l = .run i x → x.disk = disk ∧
    ∀ front d, (s.threads i).pc = .setCurrent → (s.threads i).queue.head? = some front →
      changeDir qt disk s.shared.cwd front.session = some d →
      ∀ j ≠ i, ∀ d', (s.threads j).Between d' → d = d'

def Faithful (qt : Qt) (disk : Disk) (s : Threads ι τ) : Prop :=
  ∀ i, (s.threads i).Faithful qt disk s.shared.cwd

theorem runStep_eq_some_iff {s t : Threads ι τ}
    : s.runStep qt i x = some (t, effect)
        ↔
      ∃ sh t', (s.threads i).step qt x s.shared = some (sh, t', effect)
        ∧ t = { shared := sh, threads := Function.update s.threads i t' } := by
  simp only [runStep, Option.bind_eq_bind, Option.bind_eq_some_iff, Option.some.injEq,
    Prod.mk.injEq]
  constructor
  . rintro ⟨⟨sh, t', effect⟩, hstep, rfl, rfl⟩
    exact ⟨sh, t', hstep, rfl⟩
  . rintro ⟨sh, t', hstep, rfl⟩
    exact ⟨(sh, t', effect), hstep, rfl, rfl⟩

theorem step_run {s t : Threads ι τ} (h : step qt s (.run i x) = some t)
    : ∃ sh t' effect, (s.threads i).step qt x s.shared = some (sh, t', effect)
        ∧ t = { shared := sh, threads := Function.update s.threads i t' } := by
  obtain ⟨⟨_, effect⟩, hrun, rfl⟩ := Option.map_eq_some_iff.mp h
  obtain ⟨sh, t', hstep, rfl⟩ := runStep_eq_some_iff.mp hrun
  exact ⟨sh, t', effect, hstep, rfl⟩

theorem arrive_cases {s t : Threads ι τ} (h : s.arrive i e = some t)
    : (s.threads i).pc = .outside
        ∧ t = { s with
            threads := Function.update s.threads i
              ({ s.threads i with queue := (s.threads i).queue ++ [e] }) } := by
  unfold arrive at h
  split at h
  . next hpc =>
    injection h with h
    exact ⟨hpc, h.symm⟩
  . cases h

theorem Faithful.step {s t : Threads ι τ} (h : s.Faithful qt disk)
    (hg : KeepsDirectory qt disk s l) (ht : Threads.step qt s l = some t)
    : t.Faithful qt disk := by
  cases l with
  | arrive i e =>
    obtain ⟨hpc, rfl⟩ := arrive_cases ht
    intro j
    by_cases hj : j = i
    . subst hj
      simp only [Function.update_self]
      apply Thread.Faithful.of_pc <;> simp [hpc]
    . simpa [Function.update_of_ne hj] using h j
  | run i x =>
    obtain ⟨sh, t', effect, hstep, rfl⟩ := step_run ht
    obtain ⟨rfl, hkeeps⟩ := hg i x rfl
    intro j
    by_cases hj : j = i
    . subst hj
      simpa using (h j).step hstep
    . simp only [Function.update_of_ne hj]
      apply (h j).of_cwd
      intro d hbetween hcwd
      obtain hsame | ⟨front, d', hpc, hfront, hd', hmoved⟩ := Thread.step_cwd hstep
      . rw [hsame, hcwd]
      . rw [hmoved]
        exact hkeeps front d' hpc hfront hd' j hj d hbetween

theorem page_of_requested (ι τ : Type) [DecidableEq ι] (qt : Qt) (disk : Disk) (sh : Shared)
    (s : Threads ι τ) (h : (machine ι τ qt sh).ReachBy (KeepsDirectory qt disk) s) (i : ι)
    (should : Bool) (d : QString) (front : Queued τ) (rest : List (Queued τ))
    (hpc : (s.threads i).pc = .store should (some d)) (hqueue : (s.threads i).queue = front :: rest)
    : front.session.sendMessage = directoryAnswer disk d ∧ Requests qt disk front.session d := by
  have hfaithful : s.Faithful qt disk := by
    apply Machine.ReachBy.invariant _ _ h
    . intro s hs i
      rw [hs]
      apply Thread.Faithful.of_pc <;> simp
    . intro s l t hs hg ht
      exact hs.step hg ht
  exact (hfaithful i).built should d front hpc (by simp [hqueue])

def onTwoDirs : StepInput where
  disk := twoDirs
  indeterminate := false
  result := .closed

def oneByte : SendResult :=
  .accepted (Nat.succPNat 0)

-- Both threads ask for one directory, and the second one enters it again while the first is there.
def pagesOfA : List (Label Bool Nat) :=
  [.arrive false ⟨0, get "/a"⟩, .arrive true ⟨1, get "/a"⟩, .run false onTwoDirs,
    .run false onTwoDirs, .run true onTwoDirs, .run true onTwoDirs, .run false onTwoDirs,
    .run true onTwoDirs, .run false onTwoDirs, .run false onTwoDirs]

def entersA (s : Threads Bool Nat) : Label Bool Nat → Bool
  | .arrive _ _ => true
  | .run i _ =>
    (s.threads i).pc != .setCurrent
      || (s.threads i).queue.head?.map (fun e => changeDir Qt.unix twoDirs s.shared.cwd e.session)
          == some (some (ascii "/a"))
        && ((s.threads !i).pc == .setCurrent
          || (s.threads !i).pc == .entryInfoList (some (ascii "/a")))

theorem keepsDirectory_of_entersA {s : Threads Bool Nat} (hl : l ∈ pagesOfA) (h : entersA s l)
    : KeepsDirectory Qt.unix twoDirs s l := by
  rintro i x rfl
  constructor
  . obtain rfl : x = onTwoDirs := by
      simp [pagesOfA] at hl
      grind
    rfl
  . intro front d hpc hfront hd j hj d' hbetween
    obtain rfl : j = !i := Bool.eq_not.mpr hj
    simp only [entersA, hpc, hfront, hd, bne_self_eq_false, Bool.false_or, Option.map_some,
      Bool.and_eq_true, Bool.or_eq_true, beq_iff_eq, Option.some.injEq] at h
    rw [h.1]
    rcases hbetween with hpc' | ⟨list, hpc'⟩
    . have hd' : d' = ascii "/a" := by simpa [hpc'] using h.2
      rw [hd']
    . simp [hpc'] at h

theorem page_of_requested_twice
    : ∃ s front rest, (machine Bool Nat Qt.unix { cwd := ascii "/" }).run
          { shared := { cwd := ascii "/" } } pagesOfA = some s
        ∧ (s.threads true).pc = .entryInfoList (some (ascii "/a"))
        ∧ (s.threads false).queue = front :: rest
        ∧ front.session.sendMessage = directoryAnswer twoDirs (ascii "/a") := by
  have hrun : ((machine Bool Nat Qt.unix { cwd := ascii "/" }).runGuarded (fun s l => entersA s l)
      { shared := { cwd := ascii "/" } } pagesOfA).any (fun s =>
        (s.threads false).pc == .store false (some (ascii "/a"))
          && (s.threads true).pc == .entryInfoList (some (ascii "/a"))
          && (s.threads false).queue.head?.isSome) := by
    decide +kernel
  obtain ⟨s, hguarded, hstate⟩ := (Option.any_eq_true _ _).mp hrun
  simp only [Bool.and_eq_true, beq_iff_eq, Option.isSome_iff_exists, List.head?_eq_some_iff] at hstate
  obtain ⟨⟨hpc, hlisting⟩, front, rest, hqueue⟩ := hstate
  obtain ⟨hs, hreach⟩ := Machine.reachBy_of_runGuarded hguarded (.init rfl)
    (fun _ hl _ h => keepsDirectory_of_entersA hl h)
  refine ⟨s, front, rest, hs, hlisting, hqueue, ?_⟩
  exact (page_of_requested Bool Nat Qt.unix twoDirs _ s hreach false _ _ front rest hpc hqueue).1

-- The second thread enters its directory before the first has listed its own.
def pagesMixed : List (Label Bool Nat) :=
  [.arrive false ⟨0, get "/a"⟩, .arrive true ⟨1, get "/b"⟩, .run false onTwoDirs,
    .run false onTwoDirs, .run true onTwoDirs, .run true onTwoDirs, .run false onTwoDirs,
    .run true onTwoDirs, .run false onTwoDirs, .run false onTwoDirs]

theorem not_page_of_requested
    : ¬ ∀ (qt : Qt) (disk : Disk) (sh : Shared) (s : Threads Bool Nat),
        (machine Bool Nat qt sh).ReachBy (fun _ l => ∀ i x, l = .run i x → x.disk = disk) s →
        ∀ i should d front rest, (s.threads i).pc = .store should (some d) →
          (s.threads i).queue = front :: rest →
          front.session.sendMessage = directoryAnswer disk d := by
  intro h
  have hrun : ∃ s, (machine Bool Nat Qt.unix { cwd := ascii "/" }).run
      { shared := { cwd := ascii "/" } } pagesMixed = some s
      ∧ (s.threads false).pc = .store false (some (ascii "/a"))
      ∧ ∃ front rest, (s.threads false).queue = front :: rest
        ∧ front.session.sendMessage = directoryAnswer twoDirs (ascii "/b") :=
    ⟨_, rfl, rfl, _, _, rfl, rfl⟩
  obtain ⟨s, hs, hpc, front, rest, hqueue, hpage⟩ := hrun
  have hreach : (machine Bool Nat Qt.unix { cwd := ascii "/" }).ReachBy
      (fun _ l => ∀ i x, l = .run i x → x.disk = twoDirs) s := by
    refine Machine.ReachBy.run (.init rfl) pagesMixed ?_ hs
    rintro l hl _ i x rfl
    obtain rfl : x = onTwoDirs := by
      simp [pagesMixed] at hl
      grind
    rfl
  have := h Qt.unix twoDirs _ s hreach false false _ front rest hpc hqueue
  rw [hpage] at this
  exact absurd (directoryAnswer_inj this (by decide) (by decide)) (by decide)

end Threads

end HttpMessageDispatcher
