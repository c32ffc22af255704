import OpenServer.Dispatcher.Lemmas.Undisturbed
import OpenServer.Transition.Ledger

/-!
This module keeps the books of a dispatcher thread: the responses its requests get and the bytes that
`send` has taken of them. At every step what a session still owes is what the thread will send next.
-/

namespace HttpMessageDispatcher

variable {qt : Qt} {l l' : Ledger τ UInt8} {sh sh' : Shared} {t t' : Thread τ}

-- A response is settled when it is composed or found in `cache_`. `e` is the session after the step.
def Pc.record [DecidableEq τ] (sh : Shared) (e : Queued τ) (bytes : Bytes) (l : Ledger τ UInt8)
    : Pc → Ledger τ UInt8
  | .request =>
    if e.session.isCached then
      l.answer e.tag ((responseData sh e.session).getD [])
    else
      l
  | .readFile | .currentPath _ _ => l.answer e.tag e.session.sendMessage
  | .send _ _ => l.send e.tag bytes
  | _ => l

def Thread.record [DecidableEq τ] (sh : Shared) (t t' : Thread τ) (effect : Effect τ)
    (l : Ledger τ UInt8)
    : Ledger τ UInt8 :=
  match t.pc, t.queue, t'.queue with
  | .outside, _, _ => l
  | .finish _ _, front :: rest, queue =>
    if queue.length = rest.length then l.leave front.tag else l
  | pc, _, front :: _ => pc.record sh front effect.bytes l
  | _, _, _ => l

structure New (l : Ledger τ UInt8) (e : Queued τ) : Prop where
  ewouldblockFlag : e.session.ewouldblockFlag = false
  isCached : e.session.isCached = false
  sendMessageHasMoreBytes : e.session.sendMessageHasMoreBytes = false
  untouched : l.Untouched e.tag

-- Between two iterations on it. A session that was blocked keeps what it owes in `send_message`.
inductive Waiting (l : Ledger τ UInt8) (e : Queued τ) : Prop where
  | new (h : New l e)
  | blocked (hflag : e.session.ewouldblockFlag) (hown : e.session.isCached = false)
      (hmore : e.session.sendMessageHasMoreBytes = false) (hleft : e.session.sendMessage ≠ [])
      (howes : l.Owes e.tag e.session.sendMessage)

-- The send loop works on `data`, and `rest` is what has not been sent of it.
structure Sending (l : Ledger τ UInt8) (e : Queued τ) (data rest : Bytes) : Prop where
  ewouldblockFlag : e.session.ewouldblockFlag = false
  own : e.session.isCached = false →
    data = e.session.sendMessage ∧ e.session.sendMessageHasMoreBytes = false
  owes : l.Owes e.tag rest

-- Where `response_data` is going to be read.
def Pc.Reads : Pc → Prop
  | .select | .send _ _ => True
  | _ => False

def InService (l : Ledger τ UInt8) (sh : Shared) (e : Queued τ) : Pc → Prop
  | .outside | .request => Waiting l e
  | .readFile | .setCurrent | .entryInfoList _ | .currentPath _ _ => New l e
  | .store should _ =>
    e.session.ewouldblockFlag = false ∧ e.session.isCached = false
      ∧ (should = false → e.session.sendMessageHasMoreBytes = false)
      ∧ l.Owes e.tag e.session.sendMessage
  | .select => ∃ data, responseData sh e.session = some data ∧ Sending l e data data
  | .send totalBytes bytesleft =>
    ∃ data, responseData sh e.session = some data ∧ totalBytes + bytesleft = data.length
      ∧ Sending l e data (data.drop totalBytes)
  | .finish ending totalBytes =>
    ∃ data, totalBytes ≤ data.length ∧ (ending = .complete ↔ totalBytes = data.length)
      ∧ (ending = .complete ∨ ending = .wouldBlock) ∧ Sending l e data (data.drop totalBytes)

structure Thread.Accounts (l : Ledger τ UInt8) (sh : Shared) (t : Thread τ) : Prop where
  nodup : (t.queue.map (·.tag)).Nodup
  serving : ∀ front rest, t.queue = front :: rest → InService l sh front t.pc
  waiting : ∀ front rest, t.queue = front :: rest → ∀ e ∈ rest, Waiting l e

theorem New.of_agrees (hl : l.Agrees l' e.tag) (h : New l e) : New l' e :=
  ⟨h.1, h.2, h.3, hl.untouched h.4⟩

theorem Waiting.of_agrees (hl : l.Agrees l' e.tag) (h : Waiting l e) : Waiting l' e := by
  cases h with
  | new h => exact .new (h.of_agrees hl)
  | blocked hflag hown hmore hleft howes => exact .blocked hflag hown hmore hleft (hl.owes howes)

theorem Waiting.not_settled (h : Waiting l e) : ¬ l.Settled e.tag := by
  cases h with
  | new h => exact h.untouched.not_settled
  | blocked hflag hown hmore hleft howes => rwa [howes.settled_iff]

theorem Sending.of_agrees (hl : l.Agrees l' e.tag) (h : Sending l e data rest)
    : Sending l' e data rest :=
  ⟨h.1, h.2, hl.owes h.3⟩

theorem InService.of_agrees {pc : Pc} (hl : l.Agrees l' e.tag)
    (hdata : pc.Reads → responseData sh' e.session = responseData sh e.session)
    (h : InService l sh e pc)
    : InService l' sh' e pc := by
  cases pc with
  | outside => exact Waiting.of_agrees hl h
  | request => exact Waiting.of_agrees hl h
  | readFile => exact New.of_agrees hl h
  | setCurrent => exact New.of_agrees hl h
  | entryInfoList => exact New.of_agrees hl h
  | currentPath => exact New.of_agrees hl h
  | store =>
    obtain ⟨hflag, hown, hmore, howes⟩ := h
    exact ⟨hflag, hown, hmore, hl.owes howes⟩
  | select =>
    obtain ⟨data, hchosen, hsending⟩ := h
    exact ⟨data, by rw [hdata trivial, hchosen], hsending.of_agrees hl⟩
  | send =>
    obtain ⟨data, hchosen, hlength, hsending⟩ := h
    exact ⟨data, by rw [hdata trivial, hchosen], hlength, hsending.of_agrees hl⟩
  | finish =>
    obtain ⟨data, hle, hcomplete, hending, hsending⟩ := h
    exact ⟨data, hle, hcomplete, hending, hsending.of_agrees hl⟩

theorem responseData_of_own (h : c.isCached = false) : responseData sh c = some c.sendMessage := by
  simp [responseData, h]

theorem eraseSent_endSend_of_own (ending : SendEnd) (totalBytes : Nat) (h : c.isCached = false)
    : (eraseSent (endSend c ending) totalBytes).ewouldblockFlag
          = (c.ewouldblockFlag || ending = .wouldBlock)
        ∧ (eraseSent (endSend c ending) totalBytes).sendMessage = c.sendMessage.drop totalBytes
        ∧ (eraseSent (endSend c ending) totalBytes).sendMessageHasMoreBytes
          = c.sendMessageHasMoreBytes := by
  cases ending <;> simp [endSend, eraseSent, h]

theorem Waiting.new_of_unflagged (h : Waiting l e) (hflag : ¬ e.session.ewouldblockFlag)
    : New l e := by
  cases h with
  | new h => exact h
  | blocked hflag' => exact absurd hflag' hflag

variable {e front : Queued τ} {queue rest : List (Queued τ)} {pc pc' : Pc}

namespace Thread.Accounts

theorem waiting_of_outside (h : t.Accounts l sh) (hpc : t.pc = .outside)
    : ∀ e ∈ t.queue, Waiting l e := by
  intro e he
  cases hqueue : t.queue with
  | nil => simp [hqueue] at he
  | cons front rest =>
    rw [hqueue] at he
    cases he with
    | head =>
      have := h.serving e rest hqueue
      rwa [hpc] at this
    | tail _ he => exact h.waiting front rest hqueue e he

theorem of_waiting (hnodup : (queue.map (·.tag)).Nodup) (hwaits : ∀ e ∈ queue, Waiting l e)
    (hpc : pc = .outside ∨ pc = .request)
    : Accounts l sh { pc, queue } := by
  constructor
  . exact hnodup
  . rintro front rest rfl
    rcases hpc with rfl | rfl
    . exact hwaits front (by simp)
    . exact hwaits front (by simp)
  . rintro front rest rfl e he
    exact hwaits e (by simp [he])

-- What the thread is done with: a session from `cache_` leaves the queue however much was sent.
theorem finish (h : t.Accounts l sh) (hpc : t.pc = .finish ending totalBytes)
    (hqueue : t.queue = front :: rest)
    (hc : c = eraseSent (endSend front.session ending) totalBytes)
    : (isFinished c → ∃ left, l.Owes front.tag left ∧ (front.session.isCached = false → left = []))
        ∧ (¬ isFinished c → Waiting l { front with session := c }) := by
  have hfront := h.serving front rest hqueue
  rw [hpc] at hfront
  obtain ⟨data, hle, hcomplete, hending, hsending⟩ := hfront
  have hcached : c.isCached = front.session.isCached := by simp [hc]
  cases hown : front.session.isCached with
  | true =>
    rw [hown] at hcached
    constructor
    . intro _
      exact ⟨_, hsending.owes, by simp⟩
    . intro hfinished
      simp [isFinished, hcached] at hfinished
  | false =>
    obtain ⟨rfl, hnone⟩ := hsending.own hown
    obtain ⟨hflag, hmessage, hmore⟩ := eraseSent_endSend_of_own ending totalBytes hown
    rw [← hc] at hflag hmessage hmore
    rw [hnone] at hmore
    rw [← hmessage] at hsending
    have hfinished : isFinished c ↔ c.sendMessage = [] := by
      simp [isFinished, hcached, hown, hmore]
    constructor
    . intro h
      exact ⟨_, hsending.owes, fun _ => hfinished.mp h⟩
    . intro h
      rw [hfinished] at h
      apply Waiting.blocked
      . rw [hflag]
        simp only [Bool.or_eq_true, decide_eq_true_eq]
        right
        apply hending.resolve_left
        rw [hcomplete]
        rintro rfl
        simp [hmessage] at h
      . rw [hcached, hown]
      . exact hmore
      . exact h
      . exact hsending.owes

theorem arrive (h : t.Accounts l sh) (hpc : t.pc = .outside) (hfresh : e.session.Fresh)
    (htag : e.tag ∉ t.queue.map (·.tag)) (huntouched : l.Untouched e.tag)
    : Accounts (l.arrive e.tag) sh { t with queue := t.queue ++ [e] } := by
  rw [hpc]
  apply of_waiting _ _ (.inl rfl)
  . rw [List.map_append, List.map_singleton, ← List.concat_eq_append]
    exact h.nodup.concat htag
  . intro e' he'
    cases List.mem_append.mp he' with
    | inl he' => exact (h.waiting_of_outside hpc e' he').of_agrees (Ledger.agrees_arrive _ _ _)
    | inr he' =>
      obtain rfl : e' = e := by simpa using he'
      exact .new ⟨hfresh.1, hfresh.5, hfresh.2, huntouched⟩

theorem of_agrees (h : t.Accounts l sh) (hl : ∀ e ∈ t.queue, l.Agrees l' e.tag)
    (hdata : ∀ front rest, t.queue = front :: rest → t.pc.Reads →
      responseData sh' front.session = responseData sh front.session)
    : t.Accounts l' sh' := by
  constructor
  . exact h.nodup
  . intro front rest hqueue
    apply (h.serving front rest hqueue).of_agrees _ (hdata front rest hqueue)
    exact hl front (by simp [hqueue])
  . intro front rest hqueue e he
    apply (h.waiting front rest hqueue e he).of_agrees
    exact hl e (by simp [hqueue, he])

end Thread.Accounts

variable [DecidableEq τ]

-- What a step writes into the books: nothing that is owed changes, a response is settled for a
-- session that had none, or `send` takes a part of what is owed.
inductive Thread.Booked (l : Ledger τ UInt8) (t : Thread τ) : Ledger τ UInt8 → Effect τ → Prop where
  | silent (hl : ∀ tag, l.Agrees after tag) (heffect : ∀ e bytes, effect ≠ .sent e bytes)
      : Booked l t after effect
  | answer (htag : tag ∈ t.queue.map (·.tag)) (huntouched : l.Untouched tag)
      : Booked l t (l.answer tag bytes) .quiet
  | send {worked : Queued τ} (htag : worked.tag ∈ t.queue.map (·.tag))
      (howes : l.Owes worked.tag (bytes ++ left))
      : Booked l t (l.send worked.tag bytes) (.sent worked bytes)

theorem Thread.Booked.agrees (h : t.Booked l l' effect) (htag : tag ∉ t.queue.map (·.tag))
    : l.Agrees l' tag := by
  cases h with
  | silent hl heffect => apply hl
  | answer hmem huntouched =>
    apply Ledger.agrees_answer
    rintro rfl
    apply htag hmem
  | send hmem howes =>
    apply Ledger.agrees_send
    rintro rfl
    apply htag hmem

-- What is settled is not touched again.
theorem Thread.Booked.settled (h : t.Booked l l' effect) (hl : l.Settled tag) : l'.Settled tag := by
  cases h with
  | silent hagrees heffect => apply (hagrees tag).settled hl
  | @answer tag' bytes hmem huntouched =>
    have hne : tag ≠ tag' := by
      rintro rfl
      apply huntouched.not_settled hl
    apply (Ledger.agrees_answer hne).settled hl
  | @send bytes left worked hmem howes =>
    by_cases heq : tag = worked.tag
    . -- nothing is owed any more, so that `send` took no bytes
      subst heq
      obtain ⟨rfl, -⟩ := List.append_eq_nil_iff.mp (howes.settled_iff.mp hl)
      rwa [Ledger.send_nil]
    . apply (Ledger.agrees_send heq).settled hl

theorem Pc.record_request_of_own (hown : e.session.isCached = false)
    : Pc.record sh e bytes l .request = l := by
  simp [Pc.record, hown]

omit [DecidableEq τ] in
theorem InService.select_eq (h : InService l sh e .select)
    (hdata : responseData sh e.session = some data)
    : Sending l e data data := by
  obtain ⟨data', hchosen, hsending⟩ := h
  rw [hdata] at hchosen
  injection hchosen with hchosen
  rwa [hchosen]

omit [DecidableEq τ] in
theorem InService.send_eq (h : InService l sh e (.send totalBytes bytesleft))
    (hdata : responseData sh e.session = some data)
    : totalBytes + bytesleft = data.length ∧ Sending l e data (data.drop totalBytes) := by
  obtain ⟨data', hchosen, hlength, hsending⟩ := h
  rw [hdata] at hchosen
  injection hchosen with hchosen
  rw [hchosen]
  exact ⟨hlength, hsending⟩

theorem InService.of_sendOnce (h : InService l sh e (.send totalBytes bytesleft))
    (hresult : result.Transient) (hdata : responseData sh e.session = some data)
    (hsend : sendOnce result data totalBytes bytesleft = some (pc, bytes))
    : InService (l.send e.tag bytes) sh e pc := by
  obtain ⟨hlength, hsending⟩ := h.send_eq hdata
  obtain ⟨n, -, hlt, hle, rfl, rfl⟩ | ⟨ending, rfl, rfl, hend⟩ := sendOnce_cases hsend
  . refine ⟨data, hdata, by omega, hsending.1, hsending.2, ?_⟩
    apply Ledger.Owes.send
    rw [← List.drop_drop, List.take_append_drop]
    exact hsending.owes
  . have hending : (ending = .complete ↔ totalBytes = data.length)
        ∧ (ending = .complete ∨ ending = .wouldBlock) := by
      rcases hend with ⟨rfl, hge⟩ | ⟨hlt, ⟨rfl, hclosed⟩ | ⟨rfl, -⟩ | ⟨rfl, hfailed⟩⟩
      . simp
        omega
      . simp [SendResult.Transient, SendResult.IsAccepted, hclosed] at hresult
      . simp
        omega
      . simp [SendResult.Transient, SendResult.IsAccepted, hfailed] at hresult
    rw [Ledger.send_nil]
    exact ⟨data, by omega, hending.1, hending.2, hsending⟩

theorem InService.serve {pc pc' : Pc} (h : InService l sh front pc)
    (hresult : x.result.Transient)
    (hserve : serveStep qt x sh front.session pc = some (sh', c, pc', bytes))
    : InService (pc.record sh' { front with session := c } bytes l) sh'
        { front with session := c } pc' := by
  cases serveStep_cases hserve with
  | pending hflag =>
    cases h with
    | new h => simp [h.ewouldblockFlag] at hflag
    | blocked _ hown hmore hleft howes =>
      refine ⟨front.session.sendMessage, responseData_of_own (by exact hown), ?_⟩
      rw [Pc.record_request_of_own (by exact hown)]
      exact ⟨rfl, fun _ => ⟨rfl, hmore⟩, howes⟩
  | cached hflag hparse hlookup =>
    have hnew := Waiting.new_of_unflagged h hflag
    obtain ⟨request, data, -, -, hdata, rfl⟩ := parsed_cached hparse hlookup
    have hchosen : responseData sh { front.session with
        request, cacheIterator := some request.requestPath, isCached := true } = some data := by
      simpa [responseData] using hdata
    refine ⟨data, hchosen, ?_⟩
    simp only [Pc.record, ↓reduceIte, hchosen, Option.getD_some]
    exact ⟨hnew.ewouldblockFlag, by simp, hnew.untouched.answer data⟩
  | file hflag hparse hlookup =>
    have hnew := Waiting.new_of_unflagged h hflag
    obtain ⟨request, -, -, rfl⟩ := parsed_file hparse hlookup
    rw [Pc.record_request_of_own (by exact hnew.isCached)]
    exact ⟨hnew.1, hnew.2, hnew.3, hnew.4⟩
  | directory hflag hparse hlookup =>
    have hnew := Waiting.new_of_unflagged h hflag
    obtain ⟨request, -, -, rfl⟩ := parsed_directory hparse hlookup
    rw [Pc.record_request_of_own (by exact hnew.isCached)]
    exact ⟨hnew.1, hnew.2, hnew.3, hnew.4⟩
  | read hread =>
    have hnew : New l front := h
    obtain ⟨more, rfl⟩ := readFile_eq hread
    obtain ⟨message, size, hc⟩ := compose_eq { front.session with sendMessageHasMoreBytes := more } _
    rw [hc]
    exact ⟨hnew.ewouldblockFlag, hnew.isCached, by simp, hnew.untouched.answer message⟩
  | entered hentered => exact h
  | listed => exact h
  | headed =>
    have hnew : New l front := h
    obtain ⟨message, size, hc⟩ := compose_eq front.session (directoryResponse _ sh.cwd)
    rw [hc]
    exact ⟨hnew.ewouldblockFlag, hnew.isCached, fun _ => hnew.sendMessageHasMoreBytes,
      hnew.untouched.answer message⟩
  | @stored should entered =>
    obtain ⟨hflag, hown, hmore, howes⟩ := h
    refine ⟨front.session.sendMessage, ?_⟩
    cases should with
    | true => exact ⟨store_true_responseData sh front.session, hflag, by simp [store], howes⟩
    | false => exact ⟨responseData_of_own hown, hflag, fun _ => ⟨rfl, hmore rfl⟩, howes⟩
  | selected hdata =>
    refine ⟨_, hdata, Nat.zero_add _, ?_⟩
    rw [List.drop_zero]
    exact h.select_eq hdata
  | sent hdata hsend => exact h.of_sendOnce hresult hdata hsend

theorem Pc.agrees_record (h : tag ≠ e.tag) : l.Agrees (pc.record sh e bytes l) tag := by
  cases pc with
  | request =>
    simp only [Pc.record]
    split
    . exact Ledger.agrees_answer h
    . exact .refl l tag
  | readFile => exact Ledger.agrees_answer h
  | currentPath => exact Ledger.agrees_answer h
  | send => exact Ledger.agrees_send h
  | _ => exact .refl l tag

namespace Thread

theorem record_serve (hserve : serveStep qt x sh front.session t.pc = some (sh', c, pc', bytes))
    : t.record sh' { pc := pc', queue := { front with session := c } :: rest }
          (if bytes = [] then .quiet else .sent { front with session := c } bytes) l
        =
      t.pc.record sh' { front with session := c } bytes l := by
  have hbytes : Effect.bytes (τ := τ)
      (if bytes = [] then .quiet else .sent { front with session := c } bytes) = bytes := by
    split
    . next h => rw [h]; rfl
    . rfl
  unfold record
  rw [hbytes]
  generalize t.pc = pc at hserve
  cases pc with
  | outside => cases hserve
  | finish => cases hserve
  | _ => rfl

theorem record_popped (hpc : t.pc = .finish ending totalBytes) (hqueue : t.queue = front :: rest)
    (effect : Effect τ)
    : t.record sh { pc := .outside, queue := rest } effect l = l.leave front.tag := by
  simp [record, hpc, hqueue]

theorem record_kept (hpc : t.pc = .finish ending totalBytes) (hqueue : t.queue = front :: rest)
    (e : Queued τ) (effect : Effect τ)
    : t.record sh { pc := .outside, queue := e :: rest } effect l = l := by
  simp [record, hpc, hqueue]

namespace Accounts

theorem booked_serve (h : t.Accounts l sh) (hqueue : t.queue = front :: rest)
    (hserve : serveStep qt x sh front.session t.pc = some (sh', c, pc', bytes))
    : t.Booked l (t.pc.record sh' { front with session := c } bytes l)
        (if bytes = [] then .quiet else .sent { front with session := c } bytes) := by
  have hserving := h.serving front rest hqueue
  have htag : front.tag ∈ t.queue.map (·.tag) := by simp [hqueue]
  have hsilent : t.Booked l l .quiet := .silent (Ledger.Agrees.refl l) (by simp)
  have hstep := serveStep_cases hserve
  -- at its lookup a session that was not blocked gets a response from `cache_`, or none yet
  have hrequest : New l front →
      t.Booked l (Pc.record sh' { front with session := c } bytes l .request) .quiet := by
    intro hnew
    simp only [Pc.record]
    split
    . apply Booked.answer htag hnew.untouched
    . apply hsilent
  generalize t.pc = pc at hserving hstep
  cases hstep with
  | pending hflag =>
    cases hserving with
    | new hnew => apply hrequest hnew
    | blocked _ hown =>
      rw [Pc.record_request_of_own (by exact hown)]
      apply hsilent
  | cached hflag => apply hrequest (Waiting.new_of_unflagged hserving hflag)
  | file hflag => apply hrequest (Waiting.new_of_unflagged hserving hflag)
  | directory hflag => apply hrequest (Waiting.new_of_unflagged hserving hflag)
  | read =>
    have hnew : New l front := hserving
    apply Booked.answer htag hnew.untouched
  | headed =>
    have hnew : New l front := hserving
    apply Booked.answer htag hnew.untouched
  | entered => apply hsilent
  | listed => apply hsilent
  | stored => apply hsilent
  | selected => apply hsilent
  | @sent data totalBytes bytesleft pc bytes hdata hsend =>
    obtain ⟨-, hsending⟩ := hserving.send_eq hdata
    split
    . next hnone =>
      rw [hnone, Pc.record, Ledger.send_nil]
      apply hsilent
    . next hnone =>
      obtain ⟨n, -, -, -, -, hbytes⟩ | ⟨ending, -, hbytes, -⟩ := sendOnce_cases hsend
      . have howes : l.Owes front.tag (bytes ++ data.drop (totalBytes + min n.val bytesleft)) := by
          rw [hbytes, ← List.drop_drop, List.take_append_drop]
          apply hsending.owes
        apply Booked.send htag howes
      . apply absurd hbytes hnone

theorem booked (h : t.Accounts l sh) (hstep : t.step qt x sh = some (sh', t', effect))
    : t.Booked l (t.record sh' t' effect l) effect := by
  cases Thread.step_cases hstep with
  | start hpc hqueue =>
    apply Booked.silent
    . simp [record, hpc, Ledger.Agrees]
    . simp
  | serve hqueue hserve =>
    rw [record_serve hserve]
    apply h.booked_serve hqueue hserve
  | popped hpc hqueue hc hfinished =>
    rw [record_popped hpc hqueue]
    apply Booked.silent
    . apply Ledger.agrees_leave
    . intro e bytes
      split <;> simp
  | kept hpc hqueue hc hfinished =>
    rw [record_kept hpc hqueue]
    apply Booked.silent
    . apply Ledger.Agrees.refl
    . simp

theorem step (h : t.Accounts l sh) (hresult : x.result.Transient)
    (hstep : t.step qt x sh = some (sh', t', effect))
    : t'.Accounts (t.record sh' t' effect l) sh' := by
  cases Thread.step_cases hstep with
  | start hpc hqueue =>
    have hrecord : t.record sh { pc := .request, queue := rotate t.queue } .quiet l = l := by
      simp [record, hpc]
    rw [hrecord]
    apply of_waiting _ _ (.inr rfl)
    . exact ((rotate_perm t.queue).map _).nodup_iff.mpr h.nodup
    . intro e he
      exact h.waiting_of_outside hpc e ((rotate_perm t.queue).mem_iff.mp he)
  | @serve front rest sh' c pc' bytes hqueue hserve =>
    rw [record_serve hserve]
    have hnodup := h.nodup
    rw [hqueue] at hnodup
    constructor
    . simpa using hnodup
    . rintro front' rest' hqueue'
      injection hqueue' with hfront' hrest'
      rw [← hfront']
      exact (h.serving front rest hqueue).serve hresult hserve
    . rintro front' rest' hqueue' e he
      injection hqueue' with hfront' hrest'
      rw [← hrest'] at he
      apply (h.waiting front rest hqueue e he).of_agrees
      apply Pc.agrees_record
      exact tag_ne_front hnodup he
  | @popped ending totalBytes front rest c hpc hqueue hc hfinished =>
    rw [record_popped hpc hqueue]
    have hnodup := h.nodup
    rw [hqueue] at hnodup
    apply of_waiting hnodup.tail _ (.inl rfl)
    intro e he
    exact (h.waiting front rest hqueue e he).of_agrees (Ledger.agrees_leave _ _ _)
  | @kept ending totalBytes front rest c hpc hqueue hc hfinished =>
    rw [record_kept hpc hqueue]
    have hnodup := h.nodup
    rw [hqueue] at hnodup
    apply of_waiting _ _ (.inl rfl)
    . simpa using hnodup
    . intro e he
      cases he with
      | head => exact (h.finish hpc hqueue hc).2 hfinished
      | tail _ he => exact h.waiting front rest hqueue e he

end Accounts

end Thread

end HttpMessageDispatcher
