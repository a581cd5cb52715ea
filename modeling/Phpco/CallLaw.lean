import Phpco.Bounds

/-!
# The PHP functions that `aio_invoke` calls

A pending slot names the call of its registration.  `aio_event_free` keeps the
function name and the object, so that an `aio_invoke` on a slot whose wait is
over calls the function once more, without arguments.
-/

namespace Phpco
open Except EventTable

def requestedCall (q : StoreArgs) : Option PhpCall :=
  q.functionName.map fun f => ⟨q.object, f, q.arguments.getD []⟩

theorem invokeCall_of_request {s : State} {a : Action} {q : StoreArgs} {addOk : Bool}
    (h : ioRequest s a = some (q, addOk)) (ev : AioEvent) :
    invokeCall (recordWaiter ev q) = requestedCall q := by
  cases a <;> simp only [ioRequest, Option.map_eq_some_iff, Option.bind_eq_some_iff] at h
  case socketAccept =>
    obtain ⟨zfd, _, h⟩ := h
    cases h
    simp [invokeCall, recordWaiter, storeFunction, requestedCall]
  case socketRead =>
    obtain ⟨zfd, _, h⟩ := h
    split_ifs at h
    cases h
    simp [invokeCall, recordWaiter, storeFunction, requestedCall]
  case socketWrite =>
    obtain ⟨zfd, _, h⟩ := h
    split_ifs at h
    cases h
    simp [invokeCall, recordWaiter, storeFunction, requestedCall]
  case prepare =>
    split_ifs at h
    cases h
    simp [invokeCall, recordWaiter, storeObject, requestedCall]
  case fetchAll =>
    split_ifs at h
    cases h
    simp [invokeCall, recordWaiter, storeObject, requestedCall]
  case sleep =>
    split_ifs at h
    all_goals
      cases h
      simp [invokeCall, recordWaiter, storeTimer, requestedCall]
  all_goals cases h

def TableEvent.invokes (c : Ptr) : TableEvent → Bool
  | .invoked _ _ (some context) => context = c
  | _ => false

def invocations (log : List TableEvent) (c : Ptr) : ℕ := log.countP (TableEvent.invokes c)

theorem invocations_aioEventFree (r : EventTable) (fd : ℤ) (c : Ptr) :
    invocations (aioEventFree r fd).log c = invocations r.log c := by
  obtain ⟨es, hlog, hes⟩ := log_aioEventFree_releases r fd
  have h0 : es.countP (TableEvent.invokes c) = 0 := by
    rw [List.countP_eq_zero]
    intro e he
    have hr := hes e he
    cases e <;> simp [TableEvent.isRelease, TableEvent.invokes] at hr ⊢
  rw [invocations, hlog, List.countP_append, h0, Nat.zero_add, invocations]

theorem invocations_invokeTable (r : EventTable) (fd : ℤ) (c : Ptr) :
    invocations (invokeTable r fd).log c =
      invocations r.log c + if r.waiter fd = some c then 1 else 0 := by
  cases hslot : r.aioEventFds fd with
  | none => simp [invokeTable, waiter, hslot]
  | some ev =>
    have hlog : (invokeTable r fd).log =
        .invoked fd (invokeCall ev) ev.phpContext :: (aioEventFree r fd).log := by
      simp [invokeTable, hslot]
    have hw : r.waiter fd = ev.phpContext := by simp [waiter, hslot]
    rw [hlog, hw, invocations, List.countP_cons]
    change invocations _ c + _ = _
    rw [invocations_aioEventFree]
    cases ev.phpContext <;> simp [TableEvent.invokes]

/-- A pending slot holds the call of its registration, and its context is pending
nowhere else and was not taken out yet. -/
structure Pending (s : State) : Prop where
  held : ∀ fd ev c, s.rg.aioEventFds fd = some ev → ev.phpContext = some c →
    ∃ q, .registered q ∈ s.rg.log ∧ q.fd = fd ∧ q.context = c ∧ invokeCall ev = requestedCall q
  distinct : ∀ fd fd' c, s.rg.waiter fd = some c → s.rg.waiter fd' = some c → fd = fd'
  fresh : ∀ c, s.next ≤ c → invocations s.rg.log c = 0
  pending : ∀ fd c, s.rg.waiter fd = some c → invocations s.rg.log c = 0
  once : ∀ c, invocations s.rg.log c ≤ 1

theorem Pending.mono {s s' : State} (h : Pending s) (hnext : s.next ≤ s'.next)
    (hslot : ∀ fd ev c, s'.rg.aioEventFds fd = some ev → ev.phpContext = some c →
      s.rg.aioEventFds fd = some ev)
    (hreg : ∀ q, .registered q ∈ s.rg.log → .registered q ∈ s'.rg.log)
    (hinv : ∀ c, invocations s'.rg.log c = invocations s.rg.log c) : Pending s' := by
  have hwait : ∀ fd c, s'.rg.waiter fd = some c → s.rg.waiter fd = some c := by
    intro fd c hc
    obtain ⟨ev, hev, hctx⟩ := waiter_eq_some.mp hc
    exact waiter_eq_some.mpr ⟨ev, hslot fd ev c hev hctx, hctx⟩
  refine ⟨?_, ?_, ?_, ?_, ?_⟩
  · intro fd ev c hev hc
    obtain ⟨q, hq, hrest⟩ := h.held fd ev c (hslot fd ev c hev hc) hc
    exact ⟨q, hreg q hq, hrest⟩
  · exact fun fd fd' c hc hc' => h.distinct fd fd' c (hwait fd c hc) (hwait fd' c hc')
  · exact fun c hc => (hinv c).trans (h.fresh c (hnext.trans hc))
  · exact fun fd c hc => (hinv c).trans (h.pending fd c (hwait fd c hc))
  · exact fun c => (hinv c).le.trans (h.once c)

theorem Pending.congr {s s' : State} (h : Pending s) (hnext : s.next ≤ s'.next)
    (hslots : s'.rg.aioEventFds = s.rg.aioEventFds) (hlog : s'.rg.log = s.rg.log) : Pending s' :=
  h.mono hnext (fun fd ev c hev _ => by rwa [hslots] at hev) (fun q hq => by rwa [hlog])
    fun c => by rw [hlog]

theorem Pending.register {s s' : State} {a : Action} {q : StoreArgs} {addOk : Bool}
    {r : EventTable} {ev : AioEvent} (h : Pending s) (hw : Waiting s)
    (hq : ioRequest s a = some (q, addOk)) (hsame : SameSlots s.rg r) (hlt : s.next < q.context)
    (hlt' : q.context < s'.next) (hrg : s'.rg = registerSlot r ev q) : Pending s' := by
  -- only the slot of the request has a new waiter, and no other slot has this one
  have hwait : ∀ fd c, s'.rg.waiter fd = some c →
      fd = q.fd ∧ c = q.context ∨ fd ≠ q.fd ∧ s.rg.waiter fd = some c := by
    intro fd c hc
    rw [hrg, waiter_registerSlot] at hc
    split_ifs at hc with hfd
    · exact .inl ⟨hfd, (Option.some.inj hc).symm⟩
    · exact .inr ⟨hfd, hsame.waiter fd ▸ hc⟩
  have hold : ∀ fd, s.rg.waiter fd ≠ some q.context := fun fd hc =>
    absurd (hw.fresh fd _ hc) (not_lt.mpr hlt.le)
  have hinv : ∀ c, invocations s'.rg.log c = invocations s.rg.log c := by
    intro c
    rw [hrg, registerSlot, hsame.log]
    simp [invocations, TableEvent.invokes]
  refine ⟨?_, ?_, ?_, ?_, ?_⟩
  · intro fd ev' c hev hc
    rw [hrg] at hev ⊢
    -- the request itself is the record of the new waiter
    by_cases hfd : fd = q.fd
    · simp only [registerSlot, hfd, Function.update_self, Option.some.injEq] at hev
      subst hev
      exact ⟨q, List.mem_cons_self, hfd.symm, Option.some.inj hc, invokeCall_of_request hq ev⟩
    · simp only [registerSlot, Function.update_of_ne hfd, hsame.slots] at hev
      obtain ⟨q', hq', hrest⟩ := h.held fd ev' c hev hc
      exact ⟨q', List.mem_cons_of_mem _ (hsame.log ▸ hq'), hrest⟩
  · intro fd fd' c hc hc'
    rcases hwait fd c hc with ⟨hfd, rfl⟩ | ⟨_, hc⟩
    · rcases hwait fd' _ hc' with ⟨hfd', _⟩ | ⟨_, hc'⟩
      · exact hfd.trans hfd'.symm
      · exact absurd hc' (hold fd')
    · rcases hwait fd' c hc' with ⟨_, rfl⟩ | ⟨_, hc'⟩
      · exact absurd hc (hold fd)
      · exact h.distinct fd fd' c hc hc'
  · exact fun c hc => (hinv c).trans (h.fresh c ((hlt.trans hlt').le.trans hc))
  · intro fd c hc
    rcases hwait fd c hc with ⟨_, rfl⟩ | ⟨_, hc⟩
    · exact (hinv _).trans (h.fresh _ hlt.le)
    · exact (hinv c).trans (h.pending fd c hc)
  · exact fun c => (hinv c).le.trans (h.once c)

theorem Pending.invoke {s s' : State} {fd : ℤ} (h : Pending s) (hw : Waiting s)
    (hnext : s.next ≤ s'.next) (hrg : s'.rg = invokeTable s.rg fd) : Pending s' := by
  have hinv : ∀ c, invocations s'.rg.log c =
      invocations s.rg.log c + if s.rg.waiter fd = some c then 1 else 0 := by
    intro c
    rw [hrg, invocations_invokeTable]
  -- the invoked slot is free again, so the count and the waiter change together
  have hwait : ∀ fd' c, s'.rg.waiter fd' = some c → fd' ≠ fd ∧ s.rg.waiter fd' = some c := by
    intro fd' c hc
    rw [hrg, waiter_invokeTable] at hc
    split_ifs at hc with hfd
    exact ⟨hfd, hc⟩
  refine ⟨?_, ?_, ?_, ?_, ?_⟩
  · intro fd' ev c hev hc
    rw [hrg, aioEventFds_invokeTable] at hev
    obtain ⟨q, hq, hrest⟩ := h.held fd' ev c (slot_of_pending_aioEventFree hev hc) hc
    refine ⟨q, ?_, hrest⟩
    rw [hrg, invokeTable]
    obtain ⟨es, hlog, _⟩ := log_aioEventFree_releases s.rg fd
    cases s.rg.aioEventFds fd with
    | none => exact hq
    | some ev₀ =>
      simp only [hlog]
      exact List.mem_cons_of_mem _ (List.mem_append_right _ hq)
  · exact fun fd₁ fd₂ c h₁ h₂ => h.distinct fd₁ fd₂ c (hwait fd₁ c h₁).2 (hwait fd₂ c h₂).2
  · intro c hc
    have hne : s.rg.waiter fd ≠ some c := fun hc' =>
      absurd (hw.fresh fd c hc') (not_lt.mpr (hnext.trans hc))
    rw [hinv, if_neg hne, h.fresh c (hnext.trans hc)]
  · intro fd' c hc
    obtain ⟨hne, hc'⟩ := hwait fd' c hc
    -- no context waits on two descriptors
    have hne' : s.rg.waiter fd ≠ some c := fun hc'' => hne (h.distinct fd' fd c hc' hc'')
    rw [hinv, if_neg hne', h.pending fd' c hc']
  · intro c
    rw [hinv]
    split_ifs with hc
    · rw [h.pending fd c hc]
    · exact h.once c

theorem Pending.free {s s' : State} {r : EventTable} {fd : ℤ} (h : Pending s)
    (hnext : s.next ≤ s'.next) (hslots : r.aioEventFds = s.rg.aioEventFds) (hlog : r.log = s.rg.log)
    (hrg : s'.rg = aioEventFree r fd) : Pending s' := by
  refine h.mono hnext (fun fd' ev c hev hc => ?_) (fun q hq => ?_) fun c => ?_
  · rw [hrg] at hev
    rw [← hslots]
    exact slot_of_pending_aioEventFree hev hc
  · obtain ⟨es, hes, _⟩ := log_aioEventFree_releases r fd
    rw [hrg, hes, hlog]
    exact List.mem_append_right _ hq
  · rw [hrg, invocations_aioEventFree, hlog]

theorem pending_step {s s' : State} {a : Action} (hr : TableWf s.rg) (hb : Bounded s)
    (hw : Waiting s) (h : Pending s) (hstep : step s a = .ok s') : Pending s' := by
  have hnext := (bounded_step hr hb hstep).2.1
  cases tableMove hstep with
  | same hrg _ => exact h.congr hnext (by rw [hrg]) (by rw [hrg])
  | init _ _ _ _ _ hrg => exact h.mono hnext (by simp [hrg]) (by simp [hrg]) (by simp [hrg])
  | store q addOk r r' ret hq hsame hlt hlt' hst hrg _ =>
    -- the slot failed to be armed and is empty, or it is registered, or it was pending and stays
    obtain ⟨_, ⟨_, hw', rfl⟩ | ⟨_, _, _, _, ev, _, _, rfl⟩ | ⟨_, _, rfl⟩⟩ :=
      aioEventStore_cases (hr.congr hsame.slots hsame.interest) hst
    · refine h.mono hnext (fun fd ev c hev _ => ?_) (by simp [hrg, hsame.log])
        (by simp [hrg, hsame.log])
      rw [hrg, aioEventFds_setSlot, Function.update_apply] at hev
      split_ifs at hev
      rwa [hsame.slots] at hev
    · exact h.register hw hq hsame hlt hlt' hrg
    · exact h.congr hnext (by rw [hrg, hsame.slots]) (by rw [hrg, hsame.log])
  | invoke answer fd _ _ _ hrg _ _ => exact h.invoke hw hnext hrg
  | socketClose site io closed retval fd _ _ _ hrg _ =>
    cases closed with
    | true => exact h.free (r := s.rg.dropInterest fd) hnext rfl rfl hrg
    | false => exact h.free (r := s.rg) hnext rfl rfl hrg
  | closeFd fd _ hrg _ => exact h.congr hnext (by rw [hrg]; rfl) (by rw [hrg]; rfl)

theorem pending_of_reached {ok : State → Action → Prop} {s : State} (h : Reached ok s) :
    Pending s := by
  refine h.invariant_of (fun s hs => ?_) fun s a s' hreach hp _ hstep =>
    pending_step (tableWf_of_reached hreach) (bounded_of_reached hreach)
      (waiting_of_reached hreach) hp hstep
  obtain ⟨_, _, _, _, rfl⟩ := hs
  refine ⟨?_, ?_, ?_, ?_, ?_⟩ <;> simp [initial, EventTable.initial, waiter, invocations]

theorem invokeCall_clearEvent (ev : AioEvent) :
    invokeCall (clearEvent ev) = none ↔ invokeCall ev = none := by
  unfold invokeCall clearEvent
  cases ev.object with
  | none => cases ev.functionName <;> simp
  | some o =>
    cases ev.objectName with
    | none => simp
    | some name => cases name <;> cases ev.functionName <;> simp

/-- `aio_invoke` calls a function on a slot exactly if the slot names one. -/
def NamesCall (r : EventTable) : Prop :=
  ∀ fd ev, r.aioEventFds fd = some ev → (invokeCall ev = none ↔ ev.functionName = none)

theorem NamesCall.free {r : EventTable} (h : NamesCall r) (fd : ℤ) :
    NamesCall (aioEventFree r fd) := by
  intro fd' ev hev
  rw [slot_aioEventFree] at hev
  split_ifs at hev with hfd
  · obtain ⟨ev₀, hev₀, rfl⟩ := Option.map_eq_some_iff.mp hev
    exact (invokeCall_clearEvent ev₀).trans (h fd ev₀ hev₀)
  · exact h fd' ev hev

theorem namesCall_step {s s' : State} {a : Action} (hr : TableWf s.rg) (h : NamesCall s.rg)
    (hstep : step s a = .ok s') : NamesCall s'.rg := by
  cases tableMove hstep with
  | same hrg _ =>
    rw [hrg]
    exact h
  | init _ _ _ _ _ hrg =>
    rw [hrg]
    intro fd ev hev
    -- the table of `coro_init` is empty
    cases hev
  | store q addOk r r' ret hq hsame hlt hlt' hst hrg _ =>
    have hr' : NamesCall r := by
      unfold NamesCall
      rw [hsame.slots]
      exact h
    rw [hrg]
    obtain ⟨_, ⟨_, hw', rfl⟩ | ⟨_, _, _, _, ev, _, _, rfl⟩ | ⟨_, _, rfl⟩⟩ :=
      aioEventStore_cases (hr.congr hsame.slots hsame.interest) hst
    · intro fd ev hev
      rw [aioEventFds_setSlot, Function.update_apply] at hev
      split_ifs at hev
      exact hr' fd ev hev
    · intro fd ev' hev
      simp only [registerSlot, Function.update_apply] at hev
      split_ifs at hev with hfd
      · cases hev
        rw [invokeCall_of_request hq, requestedCall, Option.map_eq_none_iff]
        rfl
      · exact hr' fd ev' hev
    · exact hr'
  | invoke answer fd _ _ _ hrg _ _ =>
    rw [hrg, NamesCall, aioEventFds_invokeTable]
    exact h.free fd
  | socketClose site io closed retval fd _ _ _ hrg _ =>
    rw [hrg]
    cases closed with
    | true => exact NamesCall.free (r := s.rg.dropInterest fd) h fd
    | false => exact h.free fd
  | closeFd fd _ hrg _ =>
    rw [hrg]
    exact h

theorem namesCall_of_reached {ok : State → Action → Prop} {s : State} (h : Reached ok s) :
    NamesCall s.rg := by
  refine h.invariant_of (fun s hs => ?_) fun s a s' hreach hn _ hstep =>
    namesCall_step (tableWf_of_reached hreach) hn hstep
  obtain ⟨_, _, _, _, rfl⟩ := hs
  intro fd ev hev
  cases hev

/-- A call that `aio_invoke` made on `fd` while it held `context` is the one that the
registration `q` asked for. -/
structure CallFor (fd : ℤ) (call : PhpCall) (context : Option Ptr) (q : StoreArgs) : Prop where
  fd : q.fd = fd
  context : context = some q.context
  call : requestedCall q = some call

/-- If the `aio_invoke` on `fd` that leads to `s'` calls a PHP function, it does so for a
registration, whose coroutine it then resumes. -/
def CallLawful (s s' : State) (fd : ℤ) : Prop :=
  ∀ call context, s'.rg.log = .invoked fd (some call) context :: (aioEventFree s.rg fd).log →
    ∃ q t act result, .registered q ∈ s.rg.log ∧ CallFor fd call context q ∧
      s'.log = .switched t (.io fd) q.context act result :: s.log

def CallsOnlyPending (r : EventTable) (fd : ℤ) : Prop :=
  ∀ ev, r.aioEventFds fd = some ev → ev.phpContext ≠ none ∨ ev.functionName = none

theorem log_invokeTable {r : EventTable} {fd : ℤ} {ev : AioEvent}
    (h : r.aioEventFds fd = some ev) : (invokeTable r fd).log =
      .invoked fd (invokeCall ev) ev.phpContext :: (aioEventFree r fd).log := by
  simp [invokeTable, h]

theorem callLawful_iff {s s' : State} {answer : Zval} {fd : ℤ} (hp : Pending s)
    (hn : NamesCall s.rg) (hd : dispatchFd s = some fd)
    (h : step s (.loopStep answer) = .ok s') : CallLawful s s' fd ↔ CallsOnlyPending s.rg fd := by
  obtain ⟨hrg, hresumed⟩ := step_dispatch hd h
  constructor
  · intro hlaw ev hev
    by_contra! hne
    obtain ⟨call, hcall⟩ := Option.ne_none_iff_exists'.mp ((hn fd ev hev).not.mpr hne.2)
    obtain ⟨q, _, _, _, _, hfor, _⟩ := hlaw call none (by rw [hrg, log_invokeTable hev, hcall, hne.1])
    cases hfor.context
  · intro hok call context hlog
    cases hev : s.rg.aioEventFds fd with
    | none =>
      have hfree : (aioEventFree s.rg fd).log = s.rg.log := by simp [aioEventFree, hev]
      rw [hrg, hfree] at hlog
      simp [invokeTable, hev] at hlog
    | some ev =>
      rw [hrg, log_invokeTable hev] at hlog
      obtain ⟨⟨hcall, rfl⟩, _⟩ : (invokeCall ev = some call ∧ ev.phpContext = context) ∧ True := by
        simpa using hlog
      have hc : ev.phpContext ≠ none := by
        rcases hok ev hev with hc | hname
        · exact hc
        · simp [(hn fd ev hev).mpr hname] at hcall
      obtain ⟨c, hc⟩ := Option.ne_none_iff_exists'.mp hc
      obtain ⟨q, hq, hfd, rfl, hreq⟩ := hp.held fd ev c hev hc
      obtain ⟨t, act, result, hsw⟩ := hresumed q.context (waiter_eq_some.mpr ⟨ev, hev, hc⟩)
      exact ⟨q, t, act, result, hq, ⟨hfd, hc, hreq ▸ hcall⟩, hsw⟩

/-- Every call made so far belongs to a registration whose coroutine was resumed then. -/
def CallsAccounted (s : State) : Prop :=
  ∀ fd call context, .invoked fd (some call) context ∈ s.rg.log →
    ∃ q t act result, .registered q ∈ s.rg.log ∧ CallFor fd call context q ∧
      .switched t (.io fd) q.context act result ∈ s.log

/-- A step makes at most the call of the `aio_invoke` it is. -/
theorem invoked_step {s s' : State} {a : Action} {fd : ℤ} {call context} (hr : TableWf s.rg)
    (h : step s a = .ok s') (hmem : .invoked fd call context ∈ s'.rg.log) :
    .invoked fd call context ∈ s.rg.log ∨ ∃ answer, a = .loopStep answer ∧
      dispatchFd s = some fd ∧
      s'.rg.log = .invoked fd call context :: (aioEventFree s.rg fd).log := by
  cases tableMove h with
  | same hrg _ => exact .inl (hrg ▸ hmem)
  | init _ _ _ _ _ hrg =>
    rw [hrg] at hmem
    exact .inl hmem
  | store q addOk r r' ret _ hsame _ _ hst hrg _ =>
    rw [hrg] at hmem
    obtain ⟨_, ⟨_, _, rfl⟩ | ⟨_, _, _, _, ev, _, _, rfl⟩ | ⟨_, _, rfl⟩⟩ :=
      aioEventStore_cases (hr.congr hsame.slots hsame.interest) hst
    · exact .inl (hsame.log ▸ hmem)
    · rcases List.mem_cons.mp hmem with hmem | hmem
      · cases hmem
      · exact .inl (hsame.log ▸ hmem)
    · exact .inl (hsame.log ▸ hmem)
  | invoke answer fd' ha hd _ hrg _ _ =>
    cases hev : s.rg.aioEventFds fd' with
    | none =>
      rw [hrg] at hmem
      exact .inl (by simpa [invokeTable, hev] using hmem)
    | some ev =>
      have hlog := log_invokeTable hev
      rw [hrg, hlog] at hmem
      rcases List.mem_cons.mp hmem with hmem | hmem
      · cases hmem
        exact .inr ⟨answer, ha, hd, by rw [hrg, hlog]⟩
      · exact .inl (mem_log_aioEventFree rfl hmem)
  | socketClose site io closed retval fd' _ _ _ hrg _ =>
    rw [hrg] at hmem
    have hmem' := mem_log_aioEventFree rfl hmem
    split_ifs at hmem' <;> exact .inl hmem'
  | closeFd fd' _ hrg _ =>
    rw [hrg] at hmem
    exact .inl hmem

theorem suffix_log_aioEventFree (r : EventTable) (fd : ℤ) : r.log <:+ (aioEventFree r fd).log := by
  obtain ⟨es, hes, _⟩ := log_aioEventFree_releases r fd
  exact ⟨es, hes.symm⟩

theorem tableLog_step {s s' : State} {a : Action} (hr : TableWf s.rg) (h : step s a = .ok s') :
    s.rg.log <:+ s'.rg.log := by
  cases tableMove h with
  | same hrg _ => exact hrg ▸ List.suffix_rfl
  | init _ _ _ _ _ hrg =>
    rw [hrg]
  | store q addOk r r' ret _ hsame _ _ hst hrg _ =>
    rw [hrg, ← hsame.log]
    obtain ⟨_, ⟨_, _, rfl⟩ | ⟨_, _, _, _, ev, _, _, rfl⟩ | ⟨_, _, rfl⟩⟩ :=
      aioEventStore_cases (hr.congr hsame.slots hsame.interest) hst
    · exact List.suffix_rfl
    · exact List.suffix_cons _ _
    · exact List.suffix_rfl
  | invoke answer fd _ _ _ hrg _ _ =>
    rw [hrg]
    cases hev : s.rg.aioEventFds fd with
    | none => simp [invokeTable, hev]
    | some ev =>
      rw [log_invokeTable hev]
      exact (suffix_log_aioEventFree s.rg fd).trans (List.suffix_cons _ _)
  | socketClose site io closed retval fd _ _ _ hrg _ =>
    rw [hrg]
    cases closed with
    | true => exact suffix_log_aioEventFree (s.rg.dropInterest fd) fd
    | false => exact suffix_log_aioEventFree s.rg fd
  | closeFd fd _ hrg _ =>
    rw [hrg]
    exact List.suffix_rfl

/-- Each `aio_invoke` of the run finds its slot empty, pending, or without a function name. -/
def InvokesPending (s : State) (a : Action) : Prop :=
  ∀ answer fd, a = .loopStep answer → dispatchFd s = some fd → CallsOnlyPending s.rg fd

theorem callsAccounted_step {s s' : State} {a : Action} (hr : TableWf s.rg) (hp : Pending s)
    (hn : NamesCall s.rg) (hok : InvokesPending s a) (hacc : CallsAccounted s)
    (h : step s a = .ok s') : CallsAccounted s' := by
  have hgrow := (tableLog_step hr h).subset
  intro fd call context hmem
  rcases invoked_step hr h hmem with hmem | ⟨answer, rfl, hd, hlog⟩
  · obtain ⟨q, t, act, result, hq, hfor, hsw⟩ := hacc fd call context hmem
    exact ⟨q, t, act, result, hgrow hq, hfor, (log_step hr h).subset hsw⟩
  · obtain ⟨q, t, act, result, hq, hfor, hsw⟩ :=
      (callLawful_iff hp hn hd h).mpr (hok answer fd rfl hd) call context hlog
    exact ⟨q, t, act, result, hgrow hq, hfor, hsw ▸ List.mem_cons_self⟩

/-- An `aio_invoke` keeps the law exactly if its slot is empty, pending, or names no
function.  Every context is taken out at most once, and in a run of such invocations every
call was made for a registration. -/
theorem calls_lawful_iff_pending {s : State} (hs : Reached (fun _ _ => True) s) :
    (∀ s' answer fd, dispatchFd s = some fd → step s (.loopStep answer) = .ok s' →
      (CallLawful s s' fd ↔ CallsOnlyPending s.rg fd)) ∧
    (∀ c, invocations s.rg.log c ≤ 1) ∧
    (Reached InvokesPending s → CallsAccounted s) := by
  refine ⟨fun s' answer fd hd h => ?_, (pending_of_reached hs).once, ?_⟩
  · exact callLawful_iff (pending_of_reached hs) (namesCall_of_reached hs) hd h
  · intro hs
    refine hs.invariant_of (fun s h0 => ?_) fun s a s' hs hacc hok h => ?_
    · obtain ⟨_, _, _, _, rfl⟩ := h0
      intro fd call context hmem
      simp [initial, EventTable.initial] at hmem
    · exact callsAccounted_step (tableWf_of_reached hs) (pending_of_reached hs)
        (namesCall_of_reached hs) hok hacc h

def readyRun : List Action := [.socketSetTimeout callSite (.stream (some 3)) 0 10 false,
  createCall 1, readCall 3, .eventLoop callSite, .epollWait [⟨epollIn, 3⟩]]

def expiredRun : List Action := readyRun ++
  [.loopStep (.value 7), .finish, .tick 20 ⟨0, 0⟩, .loopStep .null]

theorem calls_lawful_iff_pending_ready : ∃ s s',
    Transition.runFrom step (initial 0 0) readyRun = .ok s ∧
    step s (.loopStep (.value 7)) = .ok s' ∧ CallLawful s s' 3 ∧
    s'.rg.log.head? = some (.invoked 3
      (some ⟨none, .socketRead, [.stream (some 3), .long 10]⟩) (s.rg.waiter 3)) := by
  obtain ⟨s, hrun, hs, hp⟩ := exists_reached readyRun
    (fun s => dispatchFd s = some 3 ∧ (s.rg.waiter 3).isSome ∧
      isOkAnd (fun s' => s'.rg.log.head? = some (.invoked 3
        (some ⟨none, .socketRead, [.stream (some 3), .long 10]⟩) (s.rg.waiter 3)))
        (step s (.loopStep (.value 7)))) (by decide)
  simp only [decide_eq_true_eq] at hp
  obtain ⟨hd, hw, hstep⟩ := hp
  obtain ⟨s', hs', hhead⟩ := exists_of_isOkAnd hstep
  refine ⟨s, s', hrun, hs', ((calls_lawful_iff_pending hs).1 s' _ 3 hd hs').mpr ?_,
    of_decide_eq_true hhead⟩
  intro ev hev
  left
  intro hc
  simp [waiter, hev, hc] at hw

/-- `socket_read` is called once more, without arguments and for no one. -/
theorem timeout_calls_again : ∃ s s',
    Transition.runFrom step (initial 0 0) expiredRun = .ok s ∧ Reached (fun _ _ => True) s ∧
    dispatchFd s = some 3 ∧ step s (.loopStep .null) = .ok s' ∧ ¬ CallLawful s s' 3 := by
  obtain ⟨s, hrun, hs, hp⟩ := exists_reached expiredRun
    (fun s => dispatchFd s = some 3 ∧ isOkAnd (fun s' => s'.rg.log =
        .invoked 3 (some ⟨none, .socketRead, []⟩) none :: (aioEventFree s.rg 3).log)
        (step s (.loopStep .null))) (by decide)
  simp only [decide_eq_true_eq] at hp
  obtain ⟨s', hs', hlog⟩ := exists_of_isOkAnd hp.2
  refine ⟨s, s', hrun, hs, hp.1, hs', fun hlaw => ?_⟩
  obtain ⟨q, _, _, _, _, hfor, _⟩ := hlaw _ _ (of_decide_eq_true hlog)
  cases hfor.context

end Phpco
