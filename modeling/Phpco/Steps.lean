import Phpco.Coroutine
import Phpco.EventTableInvariant

/-!
# What a step can do

Each function is inverted once; `step_move` then lists the ways a whole step
can go, and the invariants of the later modules are shown for these.
-/

namespace Phpco
open Except

theorem setjmp_eq_ok {s s' : State} {switch : Switch} :
    setjmp s switch = .ok s' ↔ ∃ buf, s.checkPoint = some buf ∧ s.jmpBufs buf ≠ .unallocated ∧
      s' = { s with
        jmpBufs := Function.update s.jmpBufs buf (.set s.next)
        stack := .activation ⟨s.next, s.corog.currentCoro, buf, switch⟩ :: s.stack
        next := s.next + 1 } := by
  simp only [setjmp, bind_eq_ok, deref_eq_ok, check_eq_ok, pure, Except.pure, Except.ok.injEq]
  constructor
  · rintro ⟨buf, hbuf, _, ha, h⟩
    exact ⟨buf, hbuf, ha, h.symm⟩
  · rintro ⟨buf, hbuf, ha, h⟩
    exact ⟨buf, hbuf, (), ha, h.symm⟩

theorem coroClose_eq_ok {s s' : State} :
    coroClose s = .ok s' ↔ ∃ t task retval, s.corog.currentCoro = some t ∧ s.tasks t = some task ∧
      s.corog.allocatedReturnValuePtr = some retval ∧
      s' = { s with
        cids := freeCidmap task.cid s.cids
        tasks := Function.update s.tasks s.eg.vm.stack none
        eg := ⟨s.corog.originVmStack, s.eg.currentExecuteData⟩
        corog := { s.corog with
          currentCoro := none
          coroNum := (s.corog.coroNum + (2 ^ 32 - 1)) % 2 ^ 32 }
        log := .closed t task.cid s.eg.vm.stack retval :: s.log } := by
  simp only [coroClose, bind_eq_ok, deref_eq_ok, pure, Except.pure, Except.ok.injEq]
  constructor
  · rintro ⟨t, ht, task, htask, retval, hr, h⟩
    exact ⟨t, task, retval, ht, htask, hr, h.symm⟩
  · rintro ⟨t, task, retval, ht, htask, hr, h⟩
    exact ⟨t, ht, task, htask, retval, hr, h.symm⟩

/-- `c_coro_create` refuses at once, or the new coroutine runs. -/
theorem cCoroCreate_cases {s s' : State} {slots : ℕ} {switch : Switch} {ret : Option ℤ}
    (h : cCoroCreate s slots switch = .ok (s', ret)) :
    ∃ cid cids, allocCidmap s.cids = some (cid, cids) ∧
      ((s.corog.maxCoroNum ≤ s.corog.coroNum ∧ cid ≠ -1 ∧ ret = some coroLimit ∧
          s' = { s with cids := cids }) ∨
       ((s.corog.coroNum < s.corog.maxCoroNum ∨ cid = -1) ∧ ret = none ∧
          setjmp (startTask { s with cids := cids } cid slots) switch = .ok s')) := by
  unfold cCoroCreate at h
  cases ha : allocCidmap s.cids with
  | none => simp [ha] at h
  | some p =>
    obtain ⟨cid, cids⟩ := p
    simp only [ha] at h
    refine ⟨cid, cids, rfl, ?_⟩
    by_cases hlimit : s.corog.maxCoroNum ≤ s.corog.coroNum ∧ cid ≠ -1
    · rw [if_pos hlimit] at h
      cases h
      exact .inl ⟨hlimit.1, hlimit.2, rfl, rfl⟩
    · rw [if_neg hlimit] at h
      obtain ⟨s₁, hj, h⟩ := bind_eq_ok.mp h
      cases h
      refine .inr ⟨?_, rfl, hj⟩
      by_contra! hn
      exact hlimit hn

def resumed (s : State) (context : Ptr) (ctx : PhpContext) (current : ExecuteData)
    (frames : List ExecuteData) (wait : Wait) (result : Option Zval) : State :=
  { s with
    eg := ⟨freeCallFrame ctx.vm current, frames⟩
    corog := { s.corog with
      currentCoro := ctx.task
      allocatedReturnValuePtr := ctx.allocatedReturnValuePtr
      require := true }
    contexts := Function.update s.contexts context .resumed
    log := .switched ctx.task wait context s.next result :: s.log }

theorem cCoroResume_cases {s s' : State} {context : Ptr} {retval : Option Zval} {wait : Wait}
    {switch : Switch} (h : cCoroResume s context retval wait switch = .ok s') :
    ∃ ctx current frames result, s.contexts context = .saved ctx ∧
      ctx.executeData = current :: frames ∧ frames ≠ [] ∧
      copyResult current.resultUsed retval = .ok result ∧
      setjmp (resumed s context ctx current frames wait result) switch = .ok s' := by
  unfold cCoroResume at h
  cases hc : s.contexts context with
  | free => simp [hc] at h
  | resumed => simp [hc] at h
  | saved ctx =>
    simp only [hc] at h
    match hex : ctx.executeData, h with
    | current :: caller :: rest, h =>
      simp only at h
      obtain ⟨result, hres, h⟩ := bind_eq_ok.mp h
      exact ⟨ctx, current, caller :: rest, result, rfl, hex, by simp, hres, h⟩

/-- Where the registers are once the caller of an activation has returned. -/
def backInCaller (s : State) (frame : InternalCall) (prevCheckpoint : Option Ptr)
    (ctx : PhpContext) (required : Bool) (buf : Ptr) : State :=
  { s with
    eg := ⟨freeCallFrame ctx.vm frame.call, frame.caller⟩
    corog := { s.corog with
      currentCoro := ctx.task
      allocatedReturnValuePtr := ctx.allocatedReturnValuePtr
      require := required }
    checkPoint := prevCheckpoint
    jmpBufs := Function.update s.jmpBufs buf .unallocated
    log := .returned (.bool true) :: s.log }

def SameTasks (f g : Ptr → Option CoroTask) : Prop := ∀ t, (f t).map (·.cid) = (g t).map (·.cid)

theorem SameTasks.refl (f : Ptr → Option CoroTask) : SameTasks f f := fun _ => rfl

theorem setFunction_cases {s s' : State} {callback : Zval} (h : setFunction s callback = .ok s') :
    ∃ tasks, SameTasks tasks s.tasks ∧ s' = { s with tasks := tasks } := by
  unfold setFunction at h
  cases hcur : s.corog.currentCoro with
  | none =>
    simp only [hcur, Except.ok.injEq] at h
    exact ⟨s.tasks, .refl _, h.symm⟩
  | some t =>
    simp only [hcur] at h
    obtain ⟨task, htask, h⟩ := bind_eq_ok.mp h
    cases h
    rw [deref_eq_ok] at htask
    refine ⟨_, fun t' => ?_, rfl⟩
    by_cases ht : t' = t
    · simp [ht, htask]
    · simp [ht]

theorem coroutineCreateTail_cases {s s' : State} {frame : InternalCall}
    {prevCheckpoint : Option Ptr} {ctx : PhpContext} {required : Bool} {callback : Zval} {ret : ℤ}
    (hret : 0 ≤ ret)
    (h : coroutineCreateTail s frame prevCheckpoint ctx required callback ret = .ok s') :
    ∃ buf tasks, s.checkPoint = some buf ∧ SameTasks tasks s.tasks ∧
      s' = backInCaller { s with tasks := tasks } frame prevCheckpoint ctx required buf := by
  unfold coroutineCreateTail at h
  obtain ⟨s₁, hs₁, h⟩ := bind_eq_ok.mp h
  obtain ⟨tasks, hsame, rfl⟩ := setFunction_cases hs₁
  obtain ⟨buf, hbuf, h⟩ := bind_eq_ok.mp h
  rw [if_neg (by omega)] at h
  cases h
  exact ⟨buf, tasks, deref_eq_ok.mp hbuf, hsame, rfl⟩

theorem coroutineResumeTail_cases {s s' : State} {frame : InternalCall}
    {prevCheckpoint : Option Ptr} {context : Ptr} {ctx : PhpContext} {required : Bool}
    (h : coroutineResumeTail s frame prevCheckpoint context ctx required = .ok s') :
    ∃ buf, s.checkPoint = some buf ∧
      s' = backInCaller { s with contexts := Function.update s.contexts context .free }
        frame prevCheckpoint ctx required buf := by
  unfold coroutineResumeTail at h
  obtain ⟨buf, hbuf, h⟩ := bind_eq_ok.mp h
  cases h
  exact ⟨buf, deref_eq_ok.mp hbuf, rfl⟩

theorem aioInvokeTail_cases {s s' : State} {fd : ℤ} {event context : Ptr}
    (h : aioInvokeTail s fd event context = .ok s') :
    (∃ ev, s.rg.aioEventFds fd = some ev ∧ ev.addr = event) ∧
      s' = { s with contexts := Function.update s.contexts context .free } := by
  unfold aioInvokeTail at h
  obtain ⟨ev, hev, h⟩ := bind_eq_ok.mp h
  obtain ⟨_, haddr, h⟩ := bind_eq_ok.mp h
  cases h
  exact ⟨⟨ev, deref_eq_ok.mp hev, check_eq_ok.mp haddr⟩, rfl⟩

theorem coroutineCreate_cases {s s' : State} {frame : InternalCall} {slots : ℕ} {callback : Zval}
    (h : coroutineCreate s frame slots callback = .ok s') :
    ∃ cid cids, allocCidmap (ensureInit s).cids = some (cid, cids) ∧
      (((ensureInit s).corog.maxCoroNum ≤ (ensureInit s).corog.coroNum ∧ cid ≠ -1 ∧
        coroutineCreateTail { newCheckPoint (ensureInit s) with cids := cids } frame
          (ensureInit s).checkPoint (coroSave (ensureInit s)) (ensureInit s).corog.require
          callback coroLimit = .ok s') ∨
       (((ensureInit s).corog.coroNum < (ensureInit s).corog.maxCoroNum ∨ cid = -1) ∧
        setjmp (startTask { newCheckPoint (ensureInit s) with cids := cids } cid slots)
          (.create frame (ensureInit s).checkPoint (coroSave (ensureInit s))
            (ensureInit s).corog.require callback) = .ok s')) := by
  unfold coroutineCreate at h
  obtain ⟨⟨s₁, ret⟩, hc, h⟩ := bind_eq_ok.mp h
  obtain ⟨cid, cids, ha, ⟨hmax, hcid, rfl, rfl⟩ | ⟨hnum, rfl, hj⟩⟩ := cCoroCreate_cases hc
  · exact ⟨cid, cids, ha, .inl ⟨hmax, hcid, h⟩⟩
  · cases h
    exact ⟨cid, cids, ha, .inr ⟨hnum, hj⟩⟩

theorem jumpTarget_eq_ok {s : State} {x : Activation} {stack : List CFrame} :
    jumpTarget s = .ok (x, stack) ↔ ∃ buf act, s.checkPoint = some buf ∧
      s.jmpBufs buf = .set act ∧ unwind act s.stack = some (x, stack) := by
  simp only [jumpTarget, bind_eq_ok, deref_eq_ok]
  constructor
  · rintro ⟨buf, hbuf, h⟩
    cases hj : s.jmpBufs buf with
    | unallocated => simp [hj] at h
    | unset => simp [hj] at h
    | set act => exact ⟨buf, act, hbuf, hj, by simpa [hj] using h⟩
  · rintro ⟨buf, act, hbuf, hj, h⟩
    exact ⟨buf, hbuf, by simpa [hj] using h⟩

theorem coroYield_eq_ok {s s' : State} :
    coroYield s = .ok s' ↔ ∃ x stack, jumpTarget s = .ok (x, stack) ∧
      returnFrom { s with
        eg := ⟨s.corog.originVmStack, s.eg.currentExecuteData⟩
        stack := stack } x.switch coroYielded = .ok s' := by
  simp only [coroYield, bind_eq_ok]
  constructor
  · rintro ⟨⟨x, stack⟩, hj, h⟩
    exact ⟨x, stack, hj, h⟩
  · rintro ⟨x, stack, hj, h⟩
    exact ⟨(x, stack), hj, h⟩

theorem coroutineYield_cases {s s' : State} (h : coroutineYield s = .ok s') :
    ∃ t task, s.corog.currentCoro = some t ∧ s.tasks t = some task ∧ inContextMap task.cid ∧
      s' = { s with
        contexts := Function.update s.contexts s.next (.saved (coroSave s))
        next := s.next + 1
        cidContextMap := Function.update s.cidContextMap task.cid (some s.next)
        log := .suspended (some t) (.yield task.cid) s.next :: s.log } := by
  unfold coroutineYield at h
  obtain ⟨cid, hcid, h⟩ := bind_eq_ok.mp h
  obtain ⟨_, hin, h⟩ := bind_eq_ok.mp h
  cases h
  simp only [getCurrentCid, bind_eq_ok, deref_eq_ok, pure, Except.pure, Except.ok.injEq] at hcid
  obtain ⟨t, ht, task, htask, rfl⟩ := hcid
  exact ⟨t, task, ht, htask, check_eq_ok.mp hin, by rw [ht]⟩

section

variable (s : State)

theorem ensureInit_cases :
    (s.checkPoint ≠ none ∧ ensureInit s = s) ∨ (s.checkPoint = none ∧ ensureInit s = coroInit s) := by
  unfold ensureInit
  split_ifs with h
  · exact .inr ⟨h, rfl⟩
  · exact .inl ⟨h, rfl⟩

theorem ensureInit_of_checkPoint {s : State} (h : s.checkPoint ≠ none) : ensureInit s = s :=
  if_neg h

@[simp] theorem ensureInit_eg : (ensureInit s).eg = s.eg := by
  unfold ensureInit
  split_ifs <;> rfl

@[simp] theorem ensureInit_stack : (ensureInit s).stack = s.stack := by
  unfold ensureInit
  split_ifs <;> rfl

@[simp] theorem ensureInit_contexts : (ensureInit s).contexts = s.contexts := by
  unfold ensureInit
  split_ifs <;> rfl

@[simp] theorem ensureInit_tasks : (ensureInit s).tasks = s.tasks := by
  unfold ensureInit
  split_ifs <;> rfl

@[simp] theorem ensureInit_cidContextMap : (ensureInit s).cidContextMap = s.cidContextMap := by
  unfold ensureInit
  split_ifs <;> rfl

@[simp] theorem ensureInit_cids : (ensureInit s).cids = s.cids := by
  unfold ensureInit
  split_ifs <;> rfl

@[simp] theorem ensureInit_timeouts : (ensureInit s).timeouts = s.timeouts := by
  unfold ensureInit
  split_ifs <;> rfl

@[simp] theorem ensureInit_now : (ensureInit s).now = s.now := by
  unfold ensureInit
  split_ifs <;> rfl

@[simp] theorem ensureInit_clock : (ensureInit s).clock = s.clock := by
  unfold ensureInit
  split_ifs <;> rfl

@[simp] theorem ensureInit_log : (ensureInit s).log = s.log := by
  unfold ensureInit
  split_ifs <;> rfl

theorem checkPoint_ensureInit : (ensureInit s).checkPoint ≠ none := by
  rcases ensureInit_cases s with ⟨hne, he⟩ | ⟨_, he⟩
  · rw [he]
    exact hne
  · rw [he]
    simp [coroInit]

theorem le_next_ensureInit : s.next ≤ (ensureInit s).next := by
  rcases ensureInit_cases s with ⟨_, he⟩ | ⟨_, he⟩
  · rw [he]
  · rw [he]
    exact Nat.le_add_right s.next 2

end

/-- A switch from one coroutine to another changes none of these. -/
structure Unswitched (s s' : State) : Prop where
  rg : s'.rg = s.rg
  epollfd : s'.epollfd = s.epollfd
  timeouts : s'.timeouts = s.timeouts
  now : s'.now = s.now
  clock : s'.clock = s.clock
  cidContextMap : s'.cidContextMap = s.cidContextMap
  cids : s'.cids = s.cids
  coroNum : s'.corog.coroNum = s.corog.coroNum
  maxCoroNum : s'.corog.maxCoroNum = s.corog.maxCoroNum
  tasks : SameTasks s'.tasks s.tasks

theorem unswitched_setjmp {s s' : State} {switch : Switch} (h : setjmp s switch = .ok s') :
    Unswitched s s' := by
  obtain ⟨buf, _, _, rfl⟩ := setjmp_eq_ok.mp h
  exact ⟨rfl, rfl, rfl, rfl, rfl, rfl, rfl, rfl, rfl, .refl _⟩

theorem unswitched_cCoroResume {s s' : State} {context : Ptr} {retval : Option Zval} {wait : Wait}
    {switch : Switch} (h : cCoroResume s context retval wait switch = .ok s') :
    Unswitched s s' := by
  obtain ⟨ctx, current, frames, result, _, _, _, _, hj⟩ := cCoroResume_cases h
  have hu := unswitched_setjmp hj
  exact ⟨hu.rg, hu.epollfd, hu.timeouts, hu.now, hu.clock, hu.cidContextMap, hu.cids, hu.coroNum,
    hu.maxCoroNum, hu.tasks⟩

theorem unswitched_returnFrom {s s' : State} {switch : Switch} {ret : ℤ} (hret : 0 ≤ ret)
    (h : returnFrom s switch ret = .ok s') :
    Unswitched s s' ∧ s'.stack = s.stack ∧ s'.next = s.next := by
  cases switch with
  | create frame prevCheckpoint ctx required callback =>
    -- `coroutine_create` sets the function of the current coroutine
    obtain ⟨buf, tasks, _, hsame, rfl⟩ := coroutineCreateTail_cases hret h
    exact ⟨⟨rfl, rfl, rfl, rfl, rfl, rfl, rfl, rfl, rfl, hsame⟩, rfl, rfl⟩
  | resume frame prevCheckpoint context ctx required =>
    obtain ⟨buf, _, rfl⟩ := coroutineResumeTail_cases h
    exact ⟨⟨rfl, rfl, rfl, rfl, rfl, rfl, rfl, rfl, rfl, .refl _⟩, rfl, rfl⟩
  | invoke fd event context =>
    obtain ⟨_, rfl⟩ := aioInvokeTail_cases h
    exact ⟨⟨rfl, rfl, rfl, rfl, rfl, rfl, rfl, rfl, rfl, .refl _⟩, rfl, rfl⟩

theorem unswitched_coroYield {s s' : State} (h : coroYield s = .ok s') :
    Unswitched s s' ∧ s'.next = s.next := by
  obtain ⟨x, stack, _, hret⟩ := coroYield_eq_ok.mp h
  obtain ⟨hu, _, hnext⟩ := unswitched_returnFrom (by decide) hret
  exact ⟨⟨hu.rg, hu.epollfd, hu.timeouts, hu.now, hu.clock, hu.cidContextMap, hu.cids, hu.coroNum,
    hu.maxCoroNum, hu.tasks⟩, hnext⟩

end Phpco
