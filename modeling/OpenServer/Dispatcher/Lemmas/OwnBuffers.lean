import OpenServer.Dispatcher.Lemmas.Accounts
import OpenServer.Transition.History

/-!
This module shows that a response which stays in the buffer of its session is delivered once: the
sessions of a dispatcher whose requests are for directories.
-/

namespace HttpMessageDispatcher

variable {qt : Qt} {l l' : Ledger τ UInt8} {sh sh' : Shared} {t t' : Thread τ}

namespace Threads

def ledgers (ι τ : Type) [DecidableEq ι] [DecidableEq τ] (qt : Qt)
    : History (Threads ι τ) (Label ι τ) (ι → Ledger τ UInt8) where
  start _ := {}
  extend past s l t :=
    match l with
    | .arrive i e => Function.update past i ((past i).arrive e.tag)
    | .run i x =>
      match s.runStep qt i x with
      | some (_, effect) =>
        Function.update past i ((s.threads i).record t.shared (t.threads i) effect (past i))
      | none => past

end Threads

def Pc.totalBytes : Pc → Nat
  | .send totalBytes _ => totalBytes
  | .finish _ totalBytes => totalBytes
  | _ => 0

-- What is left of `send_message`: the send loop erases what it has sent when it ends.
def Thread.unsent [DecidableEq τ] (t : Thread τ) (e : Queued τ) : Bytes :=
  if t.queue.head?.map (·.tag) = some e.tag then
    e.session.sendMessage.drop t.pc.totalBytes
  else
    e.session.sendMessage

-- The uninitialised local reads false, and a new request is for no file.
structure Thread.AsksDirectory (qt : Qt) (x : StepInput) (sh : Shared) (t : Thread τ) : Prop where
  indeterminate : x.indeterminate = false
  result : x.result.Transient
  directory : ∀ front request, t.pc = .request → t.queue.head? = some front →
    ¬ front.session.ewouldblockFlag → front.session.request.parse qt = some request →
    ¬ (x.disk.pathExists (qt.absolutePath sh.cwd request.requestPath)
      ∧ x.disk.isFile (qt.absolutePath sh.cwd request.requestPath))

structure Thread.Own (t : Thread τ) : Prop where
  sessions : ∀ e ∈ t.queue, e.session.isCached = false
  readFile : t.pc ≠ .readFile
  store : ∀ entered, t.pc ≠ .store true entered

-- Every session that arrived is still queued or has left, and left when nothing was owed any more.
structure Thread.Books (l : Ledger τ UInt8) (t : Thread τ) : Prop where
  perm : (t.queue.map (·.tag) ++ l.left).Perm l.arrived
  nodup : l.arrived.Nodup
  unknown : ∀ tag ∉ l.arrived, l.Untouched tag
  settled : ∀ tag ∈ l.left, l.Settled tag

theorem Thread.Own.serve {front : Queued τ} (h : t.Own) (hasks : t.AsksDirectory qt x sh)
    (hfront : t.queue.head? = some front)
    (hserve : serveStep qt x sh front.session t.pc = some (sh', c, pc', bytes))
    : c.isCached = false ∧ pc' ≠ .readFile ∧ ∀ entered, pc' ≠ .store true entered := by
  have hown : front.session.isCached = false := h.sessions front (List.mem_of_head? hfront)
  have hstep := serveStep_cases hserve
  generalize hpc : t.pc = pc at hstep
  cases hstep with
  | pending => simp [hown]
  | cached hflag hparse hlookup =>
    obtain ⟨request, data, hrequest, hfile, -⟩ := parsed_cached hparse hlookup
    exact absurd hfile (hasks.directory front request hpc hfront hflag hrequest)
  | file hflag hparse hlookup =>
    obtain ⟨request, hrequest, hfile, -⟩ := parsed_file hparse hlookup
    exact absurd hfile (hasks.directory front request hpc hfront hflag hrequest)
  | directory hflag hparse hlookup =>
    obtain ⟨request, -, -, rfl⟩ := parsed_directory hparse hlookup
    simp [hown]
  | read => exact absurd hpc h.readFile
  | entered => simp [hown]
  | listed => simp [hown]
  | headed =>
    refine ⟨?_, by simp, by simp [hasks.indeterminate]⟩
    rw [compose_isCached, hown]
  | @stored should entered =>
    cases should with
    | true => exact absurd hpc (h.store entered)
    | false => exact ⟨by rw [store_isCached, hown]; rfl, by simp, by simp⟩
  | selected => simp [hown]
  | sent hdata hsend =>
    rcases sendOnce_pc hsend with ⟨_, _, rfl⟩ | ⟨_, _, rfl⟩
    . simp [hown]
    . simp [hown]

theorem Thread.Own.step (h : t.Own) (hasks : t.AsksDirectory qt x sh)
    (hstep : t.step qt x sh = some (sh', t', effect))
    : t'.Own := by
  cases Thread.step_cases hstep with
  | start hpc hqueue =>
    refine ⟨?_, by simp, by simp⟩
    intro e he
    exact h.sessions e ((rotate_perm t.queue).mem_iff.mp he)
  | @serve front rest sh' c pc' bytes hqueue hserve =>
    obtain ⟨hown, hfile, hstore⟩ := h.serve hasks (by rw [hqueue]; rfl) hserve
    refine ⟨?_, hfile, hstore⟩
    intro e he
    cases he with
    | head => exact hown
    | tail _ he => exact h.sessions e (by rw [hqueue]; exact List.mem_cons_of_mem _ he)
  | popped hpc hqueue hc hfinished =>
    refine ⟨?_, by simp, by simp⟩
    intro e he
    exact h.sessions e (by rw [hqueue]; exact List.mem_cons_of_mem _ he)
  | @kept ending totalBytes front rest c hpc hqueue hc hfinished =>
    refine ⟨?_, by simp, by simp⟩
    intro e he
    cases he with
    | head => simpa [hc] using h.sessions front (by rw [hqueue]; exact List.mem_cons_self)
    | tail _ he => exact h.sessions e (by rw [hqueue]; exact List.mem_cons_of_mem _ he)

theorem InService.owes_unsent (h : InService l sh e pc) (hown : e.session.isCached = false)
    : l.Untouched e.tag ∨ l.Owes e.tag (e.session.sendMessage.drop pc.totalBytes) := by
  have hsending : ∀ data n, Sending l e data (data.drop n) →
      l.Owes e.tag (e.session.sendMessage.drop n) := by
    intro data n h
    rw [← (h.own hown).1]
    exact h.owes
  have hwaiting : Waiting l e →
      l.Untouched e.tag ∨ l.Owes e.tag (e.session.sendMessage.drop 0) := by
    intro h
    cases h with
    | new h => exact .inl h.untouched
    | blocked _ _ _ _ howes => exact .inr (by rwa [List.drop_zero])
  cases pc with
  | outside => exact hwaiting h
  | request => exact hwaiting h
  | readFile => exact .inl h.untouched
  | setCurrent => exact .inl h.untouched
  | entryInfoList => exact .inl h.untouched
  | currentPath => exact .inl h.untouched
  | store => exact .inr h.2.2.2
  | select =>
    obtain ⟨data, -, h⟩ := h
    exact .inr (hsending data 0 h)
  | send =>
    obtain ⟨data, -, -, h⟩ := h
    exact .inr (hsending data _ h)
  | finish =>
    obtain ⟨data, -, -, -, h⟩ := h
    exact .inr (hsending data _ h)

-- Nothing is left undefined: `send` is given a part of the buffer as it is.
theorem InService.serves (qt : Qt) (x : StepInput) (h : InService l sh e pc) (houtside : pc ≠ .outside)
    (hfinish : ∀ ending totalBytes, pc ≠ .finish ending totalBytes) (hfile : pc ≠ .readFile)
    (hparse : pc = .request → (e.session.request.parse qt).isSome)
    : (serveStep qt x sh e.session pc).isSome := by
  cases pc with
  | outside => exact absurd rfl houtside
  | finish => exact absurd rfl (hfinish _ _)
  | readFile => exact absurd rfl hfile
  | request =>
    obtain ⟨request, hrequest⟩ := Option.isSome_iff_exists.mp (hparse rfl)
    simp only [serveStep, parseRequest_of_parse hrequest, Option.bind_eq_bind, Option.bind_some]
    split
    . rfl
    . split <;> rfl
  | select =>
    obtain ⟨data, hchosen, -⟩ := h
    simp [serveStep, hchosen]
  | send totalBytes bytesleft =>
    obtain ⟨data, hchosen, hlength, -⟩ := h
    simp only [serveStep, hchosen, Option.bind_eq_bind, Option.bind_some, sendOnce]
    split
    . split
      . have : 0 < bytesleft ∧ totalBytes + bytesleft ≤ data.length := by omega
        simp [this]
      all_goals rfl
    . rfl
  | _ => rfl

theorem Thread.Accounts.steps (h : t.Accounts l sh) (hown : t.Own) (hqueue : t.queue ≠ [])
    (hparse : ∀ front, t.pc = .request → t.queue.head? = some front →
      (front.session.request.parse qt).isSome)
    : (t.step qt x sh).isSome := by
  obtain ⟨front, rest, hqueue⟩ := List.exists_cons_of_ne_nil hqueue
  have hserves := InService.serves qt x (h.serving front rest hqueue)
  have hfile := hown.readFile
  have hparse := hparse front
  unfold Thread.step
  rw [hqueue] at hparse ⊢
  cases hpc : t.pc with
  | outside => rfl
  | finish =>
    dsimp only
    split <;> rfl
  | _ =>
    rw [hpc] at hserves hfile hparse
    have := hserves (by simp) (by simp) hfile (fun h => hparse h rfl)
    obtain ⟨served, hserved⟩ := Option.isSome_iff_exists.mp this
    simp [hserved]

theorem Pc.record_clients [DecidableEq τ] (pc : Pc) (e : Queued τ) (bytes : Bytes)
    : (pc.record sh e bytes l).arrived = l.arrived ∧ (pc.record sh e bytes l).left = l.left := by
  cases pc with
  | request =>
    simp only [Pc.record]
    split
    . exact ⟨rfl, rfl⟩
    . exact ⟨rfl, rfl⟩
  | _ => exact ⟨rfl, rfl⟩

namespace Thread.Books

theorem mem_arrived (h : t.Books l) (he : e ∈ t.queue) : e.tag ∈ l.arrived := by
  apply h.perm.mem_iff.mp
  exact List.mem_append_left _ (List.mem_map_of_mem he)

theorem notMem_left (h : t.Books l) (he : e ∈ t.queue) : e.tag ∉ l.left := by
  have := h.perm.nodup_iff.mpr h.nodup
  rw [List.nodup_append] at this
  intro hleft
  exact this.2.2 _ (List.mem_map_of_mem he) _ hleft rfl

theorem of_agrees {e : Queued τ} (h : t.Books l) (he : e ∈ t.queue)
    (hl : ∀ tag ≠ e.tag, l.Agrees l' tag) (harrived : l'.arrived = l.arrived)
    (hleft : l'.left = l.left) (hqueue : (t'.queue.map (·.tag)).Perm (t.queue.map (·.tag)))
    : t'.Books l' := by
  constructor
  . rw [harrived, hleft]
    exact (hqueue.append_right _).trans h.perm
  . rw [harrived]
    exact h.nodup
  . intro tag htag
    rw [harrived] at htag
    apply (hl tag _).untouched (h.unknown tag htag)
    rintro rfl
    exact htag (h.mem_arrived he)
  . intro tag htag
    rw [hleft] at htag
    apply (hl tag _).settled (h.settled tag htag)
    rintro rfl
    exact h.notMem_left he htag

theorem step [DecidableEq τ] (h : t.Books l) (haccounts : t.Accounts l sh) (hown : t.Own)
    (hstep : t.step qt x sh = some (sh', t', effect))
    : t'.Books (t.record sh' t' effect l) := by
  cases Thread.step_cases hstep with
  | start hpc hqueue =>
    obtain ⟨e, he⟩ := List.exists_mem_of_ne_nil _ hqueue
    have hrecord : t.record sh { pc := .request, queue := rotate t.queue } .quiet l = l := by
      simp [record, hpc]
    rw [hrecord]
    exact h.of_agrees he (fun tag _ => .refl l tag) rfl rfl ((rotate_perm t.queue).map _)
  | @serve front rest sh' c pc' bytes hqueue hserve =>
    rw [record_serve hserve]
    apply h.of_agrees (e := front)
    . simp [hqueue]
    . intro tag htag
      exact Pc.agrees_record htag
    . exact (Pc.record_clients _ _ _).1
    . exact (Pc.record_clients _ _ _).2
    . simp [hqueue]
  | @popped ending totalBytes front rest c hpc hqueue hc hfinished =>
    rw [record_popped hpc hqueue]
    constructor
    . have := h.perm
      rw [hqueue] at this
      change (rest.map _ ++ (l.left ++ [front.tag])).Perm l.arrived
      rw [← List.append_assoc]
      exact (List.perm_append_singleton _ _).trans this
    . exact h.nodup
    . exact h.unknown
    . intro tag htag
      rcases List.mem_append.mp htag with htag | htag
      . exact h.settled tag htag
      . obtain rfl : tag = front.tag := by simpa using htag
        obtain ⟨left, howes, hleft⟩ := (haccounts.finish hpc hqueue hc).1 hfinished
        rw [hleft (hown.sessions front (by simp [hqueue]))] at howes
        exact Ledger.owes_nil_iff.mp howes
  | @kept ending totalBytes front rest c hpc hqueue hc hfinished =>
    rw [record_kept hpc hqueue]
    apply h.of_agrees (e := front)
    . simp [hqueue]
    . intro tag _
      exact .refl l tag
    . rfl
    . rfl
    . simp [hqueue]

theorem arrive {e : Queued τ} (h : t.Books l) (htag : e.tag ∉ l.arrived)
    : Books (l.arrive e.tag) { t with queue := t.queue ++ [e] } := by
  constructor
  . rw [List.map_append, List.append_assoc]
    apply (List.perm_append_comm.append_left _).trans
    rw [← List.append_assoc]
    exact h.perm.append_right _
  . change (l.arrived ++ [e.tag]).Nodup
    rw [← List.concat_eq_append]
    exact h.nodup.concat htag
  . intro tag hmem
    exact h.unknown tag (fun h => hmem (List.mem_append_left _ h))
  . exact h.settled

end Thread.Books

namespace Threads

variable [DecidableEq ι] [DecidableEq τ] {s t : Threads ι τ} {past : ι → Ledger τ UInt8}

theorem ledgers_run (hstep : (s.threads i).step qt x s.shared = some (sh, t', effect))
    : (ledgers ι τ qt).extend past s (.run i x)
          { shared := sh, threads := Function.update s.threads i t' }
        =
      Function.update past i ((s.threads i).record sh t' effect (past i)) := by
  simp [ledgers, runStep, hstep]

-- Fresh sessions arrive at dispatcher `i`, under new marks, and ask for directories. The other
-- dispatchers do what they like.
structure DirectoryRequests (qt : Qt) (i : ι) (p : Threads ι τ × (ι → Ledger τ UInt8))
    (a : Label ι τ) : Prop where
  arrive : ∀ e, a = .arrive i e → e.session.Fresh ∧ e.tag ∉ (p.2 i).arrived
  run : ∀ x, a = .run i x → (p.1.threads i).AsksDirectory qt x p.1.shared

structure Delivers (s : Threads ι τ) (past : ι → Ledger τ UInt8) (i : ι) : Prop where
  accounts : (s.threads i).Accounts (past i) s.shared
  own : (s.threads i).Own
  books : (s.threads i).Books (past i)

theorem Delivers.init (qt : Qt) (sh : Shared) (i : ι)
    : Delivers { shared := sh } (ledgers ι τ qt).start i := by
  constructor
  . constructor
    . simp
    . intro _ _ hqueue
      cases hqueue
    . intro _ _ hqueue
      cases hqueue
  . constructor <;> simp
  . constructor
    . exact .refl _
    . simp [ledgers]
    . intro _ _
      constructor <;> rfl
    . simp [ledgers]

omit [DecidableEq τ] in
theorem Delivers.arrive {e : Queued τ} (h : s.Delivers past i) (hpc : (s.threads i).pc = .outside)
    (hfresh : e.session.Fresh) (htag : e.tag ∉ (past i).arrived)
    : Delivers
        { s with
          threads := Function.update s.threads i
            ({ s.threads i with queue := (s.threads i).queue ++ [e] }) }
        (Function.update past i ((past i).arrive e.tag)) i := by
  constructor
  . simp only [Function.update_self]
    apply h.accounts.arrive hpc hfresh _ (h.books.unknown _ htag)
    intro hmem
    obtain ⟨e', he', heq⟩ := List.mem_map.mp hmem
    exact htag (heq ▸ h.books.mem_arrived he')
  . simp only [Function.update_self]
    refine ⟨?_, h.own.readFile, h.own.store⟩
    intro e' he'
    rcases List.mem_append.mp he' with he' | he'
    . exact h.own.sessions e' he'
    . obtain rfl : e' = e := by simpa using he'
      exact hfresh.isCached
  . simp only [Function.update_self]
    exact h.books.arrive htag

theorem Delivers.run (h : s.Delivers past i) (hasks : (s.threads i).AsksDirectory qt x s.shared)
    (hstep : (s.threads i).step qt x s.shared = some (sh, t', effect))
    : Delivers { shared := sh, threads := Function.update s.threads i t' }
        (Function.update past i ((s.threads i).record sh t' effect (past i))) i := by
  constructor
  . simpa using h.accounts.step hasks.result hstep
  . simpa using h.own.step hasks hstep
  . simpa using h.books.step h.accounts h.own hstep

omit [DecidableEq τ] in
theorem Delivers.of_ne {j : ι} (h : s.Delivers past i) (hij : i ≠ j) (sh : Shared) (t' : Thread τ)
    (l' : Ledger τ UInt8)
    : Delivers { shared := sh, threads := Function.update s.threads j t' }
        (Function.update past j l') i := by
  constructor
  . simp only [Function.update_of_ne hij]
    apply h.accounts.of_agrees (fun e _ => .refl _ e.tag)
    intro front rest hqueue _
    have hown := h.own.sessions front (by simp [hqueue])
    rw [responseData_of_own hown, responseData_of_own hown]
  . simpa [Function.update_of_ne hij] using h.own
  . simpa [Function.update_of_ne hij] using h.books

theorem Delivers.step (h : s.Delivers past i) (hg : DirectoryRequests qt i (s, past) a)
    (ht : Threads.step qt s a = some t)
    : t.Delivers ((ledgers ι τ qt).extend past s a t) i := by
  cases a with
  | arrive j e =>
    obtain ⟨hpc, rfl⟩ := arrive_cases ht
    by_cases hij : i = j
    . subst hij
      obtain ⟨hfresh, htag⟩ := hg.arrive e rfl
      exact h.arrive hpc hfresh htag
    . exact h.of_ne hij _ _ _
  | run j x =>
    obtain ⟨sh, t', effect, hstep, rfl⟩ := step_run ht
    rw [ledgers_run hstep]
    by_cases hij : i = j
    . subst hij
      exact h.run (hg.run x rfl) hstep
    . exact h.of_ne hij _ _ _

omit [DecidableEq ι] in
theorem Delivers.owes_unsent (h : s.Delivers past i) (he : e ∈ (s.threads i).queue)
    : (past i).Untouched e.tag ∨ (past i).Owes e.tag ((s.threads i).unsent e) := by
  have hown := h.own.sessions e he
  cases hqueue : (s.threads i).queue with
  | nil => simp [hqueue] at he
  | cons front rest =>
    have hserving := h.accounts.serving front rest hqueue
    have hnodup := h.accounts.nodup
    unfold Thread.unsent
    rw [hqueue] at he hnodup ⊢
    cases he with
    | head =>
      simp only [List.head?_cons, Option.map_some, ↓reduceIte]
      exact hserving.owes_unsent hown
    | tail _ he =>
      have htag := (tag_ne_front hnodup he).symm
      simp only [List.head?_cons, Option.map_some, Option.some.injEq, htag, ↓reduceIte]
      cases h.accounts.waiting front rest hqueue e he with
      | new h => exact .inl h.untouched
      | blocked _ _ _ _ howes => exact .inr howes

theorem delivered_once (ι τ : Type) [DecidableEq ι] [DecidableEq τ] (qt : Qt) (sh : Shared) (i : ι)
    (s : Threads ι τ) (past : ι → Ledger τ UInt8)
    (h : ((machine ι τ qt sh).withHistory (ledgers ι τ qt)).ReachBy (DirectoryRequests qt i)
      (s, past))
    : ((s.threads i).queue.map (·.tag) ++ (past i).left).Perm (past i).arrived
        ∧ (past i).arrived.Nodup
        ∧ (∀ e ∈ (s.threads i).queue,
            (past i).Untouched e.tag ∨ (past i).Owes e.tag ((s.threads i).unsent e))
        ∧ (∀ tag ∈ (past i).left, (past i).Settled tag)
        ∧ ((s.threads i).pc = .outside → ∀ tag ∈ (past i).arrived,
            tag ∈ (past i).left ↔ (past i).Settled tag)
        ∧ ∀ x, (s.threads i).queue ≠ [] →
            (∀ front, (s.threads i).pc = .request → (s.threads i).queue.head? = some front →
              (front.session.request.parse qt).isSome) →
            (s.runStep qt i x).isSome := by
  have hdelivers : s.Delivers past i := by
    apply Machine.ReachBy.history_invariant (I := fun s past => Delivers s past i) _ _ h
    . rintro s rfl
      exact Delivers.init qt sh i
    . intro s past a t hs hg ht
      exact hs.step hg ht
  refine ⟨hdelivers.books.perm, hdelivers.books.nodup, fun e => hdelivers.owes_unsent,
    hdelivers.books.settled, ?_, ?_⟩
  . intro hpc tag htag
    refine ⟨hdelivers.books.settled tag, ?_⟩
    intro hsettled
    rcases List.mem_append.mp (hdelivers.books.perm.mem_iff.mpr htag) with hqueued | hleft
    . obtain ⟨e, he, rfl⟩ := List.mem_map.mp hqueued
      exact absurd hsettled (hdelivers.accounts.waiting_of_outside hpc e he).not_settled
    . exact hleft
  . intro x hqueue hparse
    obtain ⟨⟨sh', t', effect⟩, hstep⟩ := Option.isSome_iff_exists.mp
      (hdelivers.accounts.steps (x := x) hdelivers.own hqueue hparse)
    rw [runStep_eq_some_iff.mpr ⟨sh', t', hstep, rfl⟩]
    rfl

def onTwoDirsWith (result : SendResult) : StepInput :=
  { onTwoDirs with result }

def oneByteThenBlocked : List (Label Unit Nat) :=
  [.run () (onTwoDirsWith oneByte), .run () (onTwoDirsWith .wouldBlock),
    .run () (onTwoDirsWith .wouldBlock)]

-- One byte of each page is taken before the socket would block, and then another one of the first.
def bothBlockedTwice : List (Label Unit Nat) :=
  List.replicate 7 (.run () (onTwoDirsWith oneByte)) ++ oneByteThenBlocked
    ++ List.replicate 7 (.run () (onTwoDirsWith oneByte)) ++ oneByteThenBlocked
    ++ List.replicate 3 (.run () (onTwoDirsWith oneByte)) ++ oneByteThenBlocked

theorem directoryRequests_bothBlockedTwice (p : Threads Unit Nat × (Unit → Ledger Nat UInt8))
    (ha : a ∈ bothBlockedTwice)
    : DirectoryRequests Qt.unix () p a := by
  obtain ⟨result, hresult, rfl⟩ : ∃ result : SendResult, result.Transient
      ∧ a = .run () (onTwoDirsWith result) := by
    have hlabel : a = .run () (onTwoDirsWith oneByte) ∨ a = .run () (onTwoDirsWith .wouldBlock) := by
      simp [bothBlockedTwice, oneByteThenBlocked] at ha
      grind
    rcases hlabel with rfl | rfl
    . exact ⟨oneByte, .inl ⟨_, rfl⟩, rfl⟩
    . exact ⟨.wouldBlock, .inr rfl, rfl⟩
  constructor
  . simp
  . intro x hx
    injection hx with _ hx
    rw [← hx]
    constructor
    . rfl
    . exact hresult
    . intro front request _ _ _ _
      simp [onTwoDirsWith, onTwoDirs, twoDirs, Disk.ofTree]

def bothArrived : Threads Unit Nat × (Unit → Ledger Nat UInt8) :=
  ({ shared := { cwd := ascii "/" }, threads := fun _ => { queue := [⟨0, get "/a"⟩, ⟨1, get "/b"⟩] } },
    fun _ => { arrived := [0, 1] })

theorem directoryRequests_arrive (p : Threads Unit Nat × (Unit → Ledger Nat UInt8)) (tag : Nat)
    (path : String) (htag : tag ∉ (p.2 ()).arrived)
    : DirectoryRequests Qt.unix () p (.arrive () ⟨tag, get path⟩) := by
  constructor
  . intro e he
    injection he with _ he
    rw [← he]
    exact ⟨ClientSession.ofRequest_fresh _ _ _, htag⟩
  . simp

theorem reachBy_bothArrived
    : ((machine Unit Nat Qt.unix { cwd := ascii "/" }).withHistory
          (ledgers Unit Nat Qt.unix)).ReachBy (DirectoryRequests Qt.unix ()) bothArrived := by
  have hempty : ((machine Unit Nat Qt.unix { cwd := ascii "/" }).withHistory
      (ledgers Unit Nat Qt.unix)).ReachBy (DirectoryRequests Qt.unix ())
        ({ shared := { cwd := ascii "/" } }, fun _ => {}) :=
    .init ⟨rfl, rfl⟩
  have hfirst := hempty.step (directoryRequests_arrive _ 0 "/a" (by simp)) rfl
  exact hfirst.step (directoryRequests_arrive _ 1 "/b" (by decide)) rfl

theorem delivered_once_bothBlockedTwice
    : ∃ s past, ((machine Unit Nat Qt.unix { cwd := ascii "/" }).withHistory
          (ledgers Unit Nat Qt.unix)).run bothArrived bothBlockedTwice = some (s, past)
        ∧ (past ()).sent 0 = ascii "HT" ∧ (past ()).sent 1 = ascii "H"
        ∧ (s.threads ()).queue.map (·.tag) = [0, 1]
        ∧ ∀ e ∈ (s.threads ()).queue,
            (past ()).Untouched e.tag ∨ (past ()).Owes e.tag ((s.threads ()).unsent e) := by
  have hrun : (((machine Unit Nat Qt.unix { cwd := ascii "/" }).withHistory
      (ledgers Unit Nat Qt.unix)).run bothArrived bothBlockedTwice).any
        (fun p => decide ((p.2 ()).sent 0 = ascii "HT" ∧ (p.2 ()).sent 1 = ascii "H"
          ∧ (p.1.threads ()).queue.map (·.tag) = [0, 1])) := by
    decide +kernel
  obtain ⟨⟨s, past⟩, hrun, hstate⟩ := (Option.any_eq_true _ _).mp hrun
  obtain ⟨hfirst, hsecond, hqueue⟩ := of_decide_eq_true hstate
  refine ⟨s, past, hrun, hfirst, hsecond, hqueue, ?_⟩
  have hreach := reachBy_bothArrived.run bothBlockedTwice
    (fun a ha p => directoryRequests_bothBlockedTwice p ha) hrun
  exact (delivered_once Unit Nat Qt.unix { cwd := ascii "/" } () s past hreach).2.2.1

end Threads

end HttpMessageDispatcher
