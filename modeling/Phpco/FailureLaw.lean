import Phpco.Bounds
import Phpco.Trace

/-!
# Suspending calls that fail

The methods that suspend a coroutine, with the memory that they allocate and
release on the way.  A call that returns FALSE leaves the waiters and the
interest set alone, but none of them releases everything that it allocated.
-/

namespace Phpco
open Except EventTable Trace

/-- What a suspending method allocates, at most one of each kind in a call. -/
inductive Block
  | arguments
  | context
  | itimerspec
  | event
  | epollEvent
  deriving DecidableEq, Repr

inductive MemoryEvent
  | alloc (b : Block)
  | free (b : Block)
  deriving DecidableEq, Repr

abbrev Traced := Trace.Code MemoryEvent Halt

def alloc (b : Block) : Traced Unit := emit (.alloc b)

def free (b : Block) : Traced Unit := emit (.free b)

/-- The first part of `_aio_event_store`: the record of the slot, made if there is none. -/
def slotRecord (r : EventTable) (fd : ℤ) (addr : Ptr) : Traced AioEvent :=
  match r.aioEventFds fd with
  | some ev => return ev
  | none => do
    alloc .event
    alloc .epollEvent
    return freshEvent fd addr

def tracedAioEventStore (r : EventTable) (a : StoreArgs) (addOk : Bool) (addr : Ptr) :
    Traced (EventTable × ℤ) :=
  if ¬ inTable a.fd then throw .outOfBounds
  else do
    let ev ← slotRecord r a.fd addr
    if ev.epEvent.events = 0 then
      let ev := { ev with epEvent := { ev.epEvent with events := a.events } }
      if addOk ∧ r.interest a.fd = none then
        let r := { r with interest := Function.update r.interest a.fd (some ev.epEvent) }
        return (storeWaiter r ev a, cOk)
      else
        free .event
        free .epollEvent
        return (r.setSlot a.fd none, cErr)
    else return (storeWaiter r ev a, cOk)

def tracedStoreAndYield (s : State) (frame : InternalCall) (a : StoreArgs) (addOk : Bool) :
    Traced Outcome := do
  alloc .context
  let (rg, ret) ← tracedAioEventStore s.rg a (addOk && s.epollfd.isSome) (a.context + 1)
  let s := { s with rg := rg, next := a.context + 2 }
  if ret < 0 then
    free .context
    return .returned s frame (.bool false)
  else return .yields { s with
    contexts := Function.update s.contexts a.context (.saved (coroSave s))
    log := .suspended s.corog.currentCoro (.io a.fd) a.context :: s.log }

def tracedSocketAccept (s : State) (frame : InternalCall) (io : IoArgs) : Traced Outcome := do
  alloc .arguments
  let fd ← firstFd io
  tracedStoreAndYield s frame
    (storeFunction s fd .accept (epollIn ||| epollRdhup) .socketAccept io.arguments) io.addOk

/-- `coroutine::socket_read`; it does not free the arguments before it returns FALSE. -/
def tracedSocketRead (s : State) (frame : InternalCall) (io : IoArgs) : Traced Outcome := do
  alloc .arguments
  let fd ← firstFd io
  if fd < 0 then return .returned s frame (.bool false)
  else
    tracedStoreAndYield s frame
      (storeFunction s fd .normal epollIn .socketRead io.arguments) io.addOk

def tracedSocketWrite (s : State) (frame : InternalCall) (io : IoArgs) : Traced Outcome := do
  alloc .arguments
  let fd ← firstFd io
  if fd < 0 then return .returned s frame (.bool false)
  else
    tracedStoreAndYield s frame
      (storeFunction s fd .normal epollOut .socketWrite io.arguments) io.addOk

def tracedCallOrigin (s : State) (frame : InternalCall) (origin : Zval) (objectName : ObjName)
    (functionName : FuncName) (io : IoArgs) : Traced Outcome := do
  alloc .arguments
  let fd := cConvertToFd origin io.garbage
  if fd < 0 then return .returned s frame (.bool false)
  else
    tracedStoreAndYield s frame
      (storeObject s fd origin objectName functionName io.arguments) io.addOk

def tracedSleep (s : State) (frame : InternalCall) (timeout tfd : ℤ) (clockOk addOk : Bool) :
    Traced Outcome :=
  if timeout ≤ 0 then return .returned s frame (.bool true)
  else do
    check (freshDescriptor s tfd) .notHere
    alloc .itimerspec
    let (rg, fd, value) := createTimerfd s.rg tfd (if clockOk then some s.clock else none) timeout
    let s := { s with rg := timerfdSettime rg fd value }
    tracedStoreAndYield s frame (storeTimer s fd) addOk

/-- A step of PHP code; only the suspending methods are traced. -/
def tracedStep (s : State) : Action → Traced Outcome
  | .socketAccept site io => tracedSocketAccept (enterCall s site) (callFrame s site) io
  | .socketRead site io => tracedSocketRead (enterCall s site) (callFrame s site) io
  | .socketWrite site io => tracedSocketWrite (enterCall s site) (callFrame s site) io
  | .prepare site origin io =>
    tracedCallOrigin (enterCall s site) (callFrame s site) origin .pdo .prepare io
  | .fetchAll site origin io =>
    tracedCallOrigin (enterCall s site) (callFrame s site) origin .pdoStatement .fetchAll io
  | .sleep site timeout tfd clockOk addOk =>
    tracedSleep (enterCall s site) (callFrame s site) timeout tfd clockOk addOk
  | a => phpStep s a

variable {s s' : State} {a : Action} {frame : InternalCall} {q : StoreArgs} {addOk : Bool}
  {es : List MemoryEvent} {b : Block}

theorem traces_alloc (b : Block) : Traces (alloc b) (.ok ()) := traces_emit _

theorem traces_free (b : Block) : Traces (free b) (.ok ()) := traces_emit _

theorem traces_slotRecord (r : EventTable) (fd : ℤ) (addr : Ptr) :
    Traces (slotRecord r fd addr) (.ok ((r.aioEventFds fd).getD (freshEvent fd addr))) := by
  unfold slotRecord
  cases r.aioEventFds fd with
  | some ev => exact traces_pure _
  | none => exact (traces_alloc _).bind_ok ((traces_alloc _).bind_ok (traces_pure _))

theorem traces_aioEventStore (r : EventTable) (q : StoreArgs) (addOk : Bool) (addr : Ptr) :
    Traces (tracedAioEventStore r q addOk addr) (aioEventStore r q addOk addr) := by
  unfold tracedAioEventStore aioEventStore
  by_cases hin : inTable q.fd
  · rw [if_neg (not_not.mpr hin), if_neg (not_not.mpr hin)]
    apply (traces_slotRecord r q.fd addr).bind_ok
    simp only
    split_ifs
    · exact traces_pure _
    · exact (traces_free _).bind_ok ((traces_free _).bind_ok (traces_pure _))
    · exact traces_pure _
  · rw [if_pos hin, if_pos hin]
    exact traces_throw _

theorem traces_storeAndYield (s : State) (frame : InternalCall) (q : StoreArgs) (addOk : Bool) :
    Traces (tracedStoreAndYield s frame q addOk) (storeAndYield s frame q addOk) := by
  apply (traces_alloc _).bind_ok
  refine (traces_aioEventStore _ _ _ _).bind fun r => ?_
  simp only
  split_ifs
  · exact (traces_free _).bind_ok (traces_pure _)
  · exact traces_pure _

theorem traces_converted (s : State) (frame : InternalCall) (fd : ℤ) (q : StoreArgs)
    (addOk : Bool) :
    Traces (if fd < 0 then return .returned s frame (.bool false)
        else tracedStoreAndYield s frame q addOk)
      (if fd < 0 then return .returned s frame (.bool false)
        else storeAndYield s frame q addOk) := by
  split_ifs
  · exact traces_pure _
  · exact traces_storeAndYield _ _ _ _

theorem traces_step (s : State) (a : Action) : Traces (tracedStep s a) (phpStep s a) := by
  cases a with
  | socketAccept site io =>
    apply (traces_alloc _).bind_ok
    exact (traces_lift _).bind fun fd => traces_storeAndYield _ _ _ _
  | socketRead site io =>
    apply (traces_alloc _).bind_ok
    exact (traces_lift _).bind fun fd => traces_converted _ _ _ _ _
  | socketWrite site io =>
    apply (traces_alloc _).bind_ok
    exact (traces_lift _).bind fun fd => traces_converted _ _ _ _ _
  | prepare site origin io => exact (traces_alloc _).bind_ok (traces_converted _ _ _ _ _)
  | fetchAll site origin io => exact (traces_alloc _).bind_ok (traces_converted _ _ _ _ _)
  | sleep site timeout tfd clockOk addOk =>
    simp only [tracedStep, phpStep, tracedSleep, coroutineSleep]
    by_cases hle : timeout ≤ 0
    · rw [if_pos hle, if_pos hle]
      exact traces_pure _
    · rw [if_neg hle, if_neg hle]
      refine (traces_lift _).bind fun _ => ?_
      exact (traces_alloc _).bind_ok (traces_storeAndYield _ _ _ _)
  | _ => exact traces_lift _

abbrev Leaves {α : Type} (b : Block) (x : Traced α) : Prop := Emits (· ≠ MemoryEvent.free b) x

theorem leaves_alloc (b' : Block) : Leaves b (alloc b') := emits_emit nofun

theorem leaves_free {b' : Block} (hne : b ≠ b') : Leaves b (free b') := by
  apply emits_emit
  rintro ⟨⟩
  exact hne rfl

theorem leaves_slotRecord (r : EventTable) (fd : ℤ) (addr : Ptr) :
    Leaves b (slotRecord r fd addr) := by
  unfold slotRecord
  cases r.aioEventFds fd with
  | some ev => exact emits_pure _
  | none => exact (leaves_alloc _).bind fun _ => (leaves_alloc _).bind fun _ => emits_pure _

theorem leaves_aioEventStore (hevent : b ≠ .event) (hepoll : b ≠ .epollEvent) (r : EventTable)
    (q : StoreArgs) (addOk : Bool) (addr : Ptr) : Leaves b (tracedAioEventStore r q addOk addr) := by
  unfold tracedAioEventStore
  by_cases hin : inTable q.fd
  · rw [if_neg (not_not.mpr hin)]
    refine (leaves_slotRecord r q.fd addr).bind fun ev => ?_
    simp only
    split_ifs
    · exact emits_pure _
    · exact (leaves_free hevent).bind fun _ => (leaves_free hepoll).bind fun _ => emits_pure _
    · exact emits_pure _
  · rw [if_pos hin]
    exact emits_throw _

theorem leaves_storeAndYield (hcontext : b ≠ .context) (hevent : b ≠ .event)
    (hepoll : b ≠ .epollEvent) (s : State) (frame : InternalCall) (q : StoreArgs) (addOk : Bool) :
    Leaves b (tracedStoreAndYield s frame q addOk) := by
  refine (leaves_alloc _).bind fun _ => (leaves_aioEventStore hevent hepoll _ _ _ _).bind fun r => ?_
  simp only
  split_ifs
  · exact (leaves_free hcontext).bind fun _ => emits_pure _
  · exact emits_pure _

def Released (es : List MemoryEvent) : Prop := ∀ b, .alloc b ∈ es → .free b ∈ es

theorem not_released_of_alloc {α : Type} {x : Traced α} {v : α} (hx : Leaves b x)
    (h : (alloc b >>= fun _ => x).run [] = .ok (v, es)) : ¬ Released es := by
  intro hrel
  obtain ⟨js, rfl, hjs⟩ := hx [.alloc b] v es h
  rcases List.mem_append.mp (hrel b List.mem_cons_self) with hfree | hfree
  · cases List.mem_singleton.mp hfree
  · exact hjs _ hfree rfl

/-- No call that returns FALSE has freed its arguments or its `itimerspec`. -/
theorem not_released_of_false {s₁ : State} (ha : isIo a = true)
    (h : (tracedStep s a).run [] = .ok (.returned s₁ frame (.bool false), es)) : ¬ Released es := by
  have hargs : ∀ s frame q addOk, Leaves .arguments (tracedStoreAndYield s frame q addOk) :=
    leaves_storeAndYield (by decide) (by decide) (by decide)
  have hfd : ∀ (fd : ℤ) s frame q addOk, Leaves .arguments
      (if fd < 0 then return .returned s frame (.bool false)
        else tracedStoreAndYield s frame q addOk) := by
    intro fd s frame q addOk
    split_ifs
    · exact emits_pure _
    · exact hargs _ _ _ _
  cases a with
  | socketAccept site io =>
    exact not_released_of_alloc ((emits_lift _).bind fun fd => hargs _ _ _ _) h
  | socketRead site io =>
    exact not_released_of_alloc ((emits_lift _).bind fun fd => hfd fd _ _ _ _) h
  | socketWrite site io =>
    exact not_released_of_alloc ((emits_lift _).bind fun fd => hfd fd _ _ _ _) h
  | prepare site origin io => exact not_released_of_alloc (hfd _ _ _ _ _) h
  | fetchAll site origin io => exact not_released_of_alloc (hfd _ _ _ _ _) h
  | sleep site timeout tfd clockOk addOk =>
    simp only [tracedStep, tracedSleep] at h
    by_cases hle : timeout ≤ 0
    · rw [if_pos hle] at h
      cases h
    · rw [if_neg hle] at h
      rw [StateT.run_bind] at h
      obtain ⟨⟨_, es₁⟩, hcheck, hrest⟩ := bind_eq_ok.mp h
      obtain ⟨_, rfl⟩ := run_lift.mp hcheck
      have hstore : ∀ s frame q addOk, Leaves .itimerspec (tracedStoreAndYield s frame q addOk) :=
        leaves_storeAndYield (by decide) (by decide) (by decide)
      exact not_released_of_alloc (hstore _ _ _ _) hrest
  | _ => simp [isIo] at ha

/-- The call returns FALSE, or does what C leaves undefined. -/
def Failed : Except Halt Outcome → Prop
  | .error e => e ≠ .notHere
  | .ok (.returned _ _ v) => v = .bool false
  | .ok _ => False

/-- The conversion to a descriptor, `timerfd_create` or `clock_gettime` fails. -/
def NoDescriptor (s : State) : Action → Prop
  | .socketAccept _ io | .socketRead _ io | .socketWrite _ io =>
    ∀ zfd, io.arguments.head? = some zfd → cConvertToFd zfd io.garbage < 0
  | .prepare _ origin io | .fetchAll _ origin io => cConvertToFd origin io.garbage < 0
  | .sleep _ timeout tfd clockOk _ =>
    0 < timeout ∧ freshDescriptor s tfd ∧ (tfd < 0 ∨ clockOk = false)
  | _ => False

def TimerAnswers (s : State) : Action → Prop
  | .sleep _ _ tfd _ _ => freshDescriptor s tfd
  | _ => True

/-- The slot is not in the table, or idle and `EPOLL_CTL_ADD` fails. -/
def RefusesSlot (s : State) (q : StoreArgs) (addOk : Bool) : Prop :=
  inTable q.fd → s.rg.waiter q.fd = none ∧ (addOk && s.epollfd.isSome) = false

/-- `_aio_event_store` fails, on a slot that is fresh or was used before. -/
def StoreRefused (s : State) (a : Action) : Prop :=
  ∃ q addOk, ioRequest s a = some (q, addOk) ∧ TimerAnswers s a ∧ RefusesSlot s q addOk

theorem aioEventStore_idle {r : EventTable} (hr : TableWf r) (hin : inTable q.fd)
    (hw : r.waiter q.fd = none) (addOk : Bool) (addr : Ptr) :
    ∃ r', aioEventStore r q addOk addr = .ok (r', if addOk then cOk else cErr) := by
  have hinterest : r.interest q.fd = none := hr.interest_of_idle hw
  have hevents : ((r.aioEventFds q.fd).getD (freshEvent q.fd addr)).epEvent.events = 0 := by
    cases hslot : r.aioEventFds q.fd with
    | none => rfl
    | some ev => exact (hr.slot _ _ hslot).events_eq_zero.mpr (waiter_eq_none.mp hw ev hslot)
  unfold aioEventStore
  rw [if_neg (not_not.mpr hin)]
  simp only [hevents, if_true, hinterest, and_true]
  cases addOk <;> exact ⟨_, rfl⟩

/-- A waiter is left where it is, and the registration taken for done. -/
theorem aioEventStore_busy {r : EventTable} (hr : TableWf r) (hin : inTable q.fd)
    (hw : r.waiter q.fd ≠ none) (addOk : Bool) (addr : Ptr) :
    ∃ r', aioEventStore r q addOk addr = .ok (r', cOk) := by
  obtain ⟨ev, hslot, hctx⟩ : ∃ ev, r.aioEventFds q.fd = some ev ∧ ev.phpContext ≠ none := by
    by_contra hno
    refine hw (waiter_eq_none.mpr fun ev hslot => ?_)
    by_contra hctx
    exact hno ⟨ev, hslot, hctx⟩
  have hevents : ((r.aioEventFds q.fd).getD (freshEvent q.fd addr)).epEvent.events ≠ 0 := by
    rw [hslot]
    exact (hr.slot _ _ hslot).events.mpr hctx
  unfold aioEventStore
  rw [if_neg (not_not.mpr hin)]
  simp only [if_neg hevents]
  exact ⟨_, rfl⟩

theorem failed_iff_of_store {r : EventTable} {ret : ℤ}
    (h : aioEventStore s.rg q (addOk && s.epollfd.isSome) (q.context + 1) = .ok (r, ret)) :
    Failed (storeAndYield s frame q addOk) ↔ ret < 0 := by
  unfold storeAndYield
  rw [h]
  change Failed (if ret < 0 then _ else _) ↔ _
  by_cases hret : ret < 0
  · rw [if_pos hret]
    exact ⟨fun _ => hret, fun _ => rfl⟩
  · rw [if_neg hret]
    exact ⟨fun hf => hf.elim, fun h => absurd h hret⟩

theorem failed_storeAndYield_iff (hr : TableWf s.rg) :
    Failed (storeAndYield s frame q addOk) ↔ RefusesSlot s q addOk := by
  by_cases hin : inTable q.fd
  · by_cases hw : s.rg.waiter q.fd = none
    · obtain ⟨r, hst⟩ := aioEventStore_idle hr hin hw (addOk && s.epollfd.isSome) (q.context + 1)
      rw [failed_iff_of_store hst]
      cases hadd : addOk && s.epollfd.isSome with
      | true =>
        constructor
        · exact fun h => absurd h (by decide)
        · exact fun h => absurd (hadd.symm.trans (h hin).2) (by decide)
      | false => exact ⟨fun _ _ => ⟨hw, hadd⟩, fun _ => by decide⟩
    · obtain ⟨r, hst⟩ := aioEventStore_busy hr hin hw (addOk && s.epollfd.isSome) (q.context + 1)
      rw [failed_iff_of_store hst]
      exact ⟨fun h => absurd h (by decide), fun h => absurd (h hin).1 hw⟩
  · have hout : storeAndYield s frame q addOk = .error .outOfBounds := by
      unfold storeAndYield aioEventStore
      rw [if_pos hin]
      rfl
    rw [hout]
    exact ⟨fun _ h => absurd h hin, fun _ => Halt.noConfusion⟩

theorem failed_iff_of_request {site : CallSite} {r : EventTable} (hr : TableWf s.rg)
    (hsame : SameSlots s.rg r) (hq : ioRequest s a = some (q, addOk)) (ht : TimerAnswers s a)
    (hno : NoDescriptor s a → q.fd < 0)
    (hphp : phpStep s a = storeAndYield { enterCall s site with rg := r } (callFrame s site) q addOk) :
    Failed (phpStep s a) ↔ NoDescriptor s a ∨ StoreRefused s a := by
  have hrefuses : Failed (phpStep s a) ↔ RefusesSlot s q addOk := by
    rw [hphp, failed_storeAndYield_iff (hr.congr hsame.slots hsame.interest)]
    unfold RefusesSlot
    rw [hsame.waiter q.fd]
    rfl
  rw [hrefuses]
  constructor
  · exact fun h => .inr ⟨q, addOk, hq, ht, h⟩
  · rintro (h | ⟨q', addOk', hq', _, hrefused⟩)
    · exact fun hin => absurd hin.1 (by have := hno h; omega)
    · cases hq.symm.trans hq'
      exact hrefused

theorem failed_iff_of_no_request (hq : ioRequest s a = none)
    (h : Failed (phpStep s a) ↔ NoDescriptor s a) :
    Failed (phpStep s a) ↔ NoDescriptor s a ∨ StoreRefused s a := by
  rw [h]
  constructor
  · exact .inl
  · rintro (hno | ⟨q, addOk, hq', _⟩)
    · exact hno
    · rw [hq] at hq'
      cases hq'

theorem failed_iff_of_conversion {fd : ℤ} (site : CallSite) (hr : TableWf s.rg)
    (ht : TimerAnswers s a) (hno : NoDescriptor s a ↔ fd < 0)
    (hq : ioRequest s a = if fd < 0 then none else some (q, addOk))
    (hphp : phpStep s a = if fd < 0 then
        .ok (.returned (enterCall s site) (callFrame s site) (.bool false))
      else storeAndYield (enterCall s site) (callFrame s site) q addOk) :
    Failed (phpStep s a) ↔ NoDescriptor s a ∨ StoreRefused s a := by
  by_cases hneg : fd < 0
  · apply failed_iff_of_no_request (hq.trans (if_pos hneg))
    rw [hphp, if_pos hneg, hno]
    exact ⟨fun _ => hneg, fun _ => rfl⟩
  · exact failed_iff_of_request hr (.refl _) (hq.trans (if_neg hneg)) ht
      (fun h => absurd (hno.mp h) hneg) (hphp.trans (if_neg hneg))

/-- A method whose first argument is missing reads what is not there. -/
theorem failed_iff_of_missing {io : IoArgs} (hq : ioRequest s a = none)
    (hno : NoDescriptor s a ↔ ∀ zfd, io.arguments.head? = some zfd → cConvertToFd zfd io.garbage < 0)
    (harg : io.arguments.head? = none) (hphp : phpStep s a = .error .uninitialized) :
    Failed (phpStep s a) ↔ NoDescriptor s a ∨ StoreRefused s a := by
  apply failed_iff_of_no_request hq
  rw [hphp, hno, harg]
  exact ⟨fun _ _ => nofun, fun _ => Halt.noConfusion⟩

theorem head_negative_iff {io : IoArgs} {zfd : Zval} (harg : io.arguments.head? = some zfd) :
    (∀ zfd, io.arguments.head? = some zfd → cConvertToFd zfd io.garbage < 0) ↔
      cConvertToFd zfd io.garbage < 0 := by
  rw [harg]
  exact ⟨fun h => h zfd rfl, fun h _ heq => Option.some.inj heq ▸ h⟩

theorem failed_iff_of_first {io : IoArgs} (site : CallSite) (store : ℤ → StoreArgs)
    (hr : TableWf s.rg) (ht : TimerAnswers s a)
    (hno : NoDescriptor s a ↔ ∀ zfd, io.arguments.head? = some zfd → cConvertToFd zfd io.garbage < 0)
    (hq : ioRequest s a = io.arguments.head?.bind fun zfd =>
      if cConvertToFd zfd io.garbage < 0 then none
      else some (store (cConvertToFd zfd io.garbage), addOk))
    (hphp : phpStep s a = firstFd io >>= fun fd => if fd < 0 then
        .ok (.returned (enterCall s site) (callFrame s site) (.bool false))
      else storeAndYield (enterCall s site) (callFrame s site) (store fd) addOk) :
    Failed (phpStep s a) ↔ NoDescriptor s a ∨ StoreRefused s a := by
  cases harg : io.arguments.head? with
  | none =>
    rw [harg] at hq
    apply failed_iff_of_missing hq hno harg
    rw [hphp, firstFd, harg]
    rfl
  | some zfd =>
    rw [head_negative_iff harg] at hno
    rw [harg] at hq
    apply failed_iff_of_conversion site hr ht hno hq
    rw [hphp, firstFd, harg]
    rfl

def sleepTimer (s : State) (timeout tfd : ℤ) (clockOk : Bool) : EventTable × ℤ × Option Timespec :=
  createTimerfd s.rg tfd (if clockOk then some s.clock else none) timeout

theorem sleepTimer_fd {timeout tfd : ℤ} {clockOk : Bool} :
    (sleepTimer s timeout tfd clockOk).2.1 = if tfd < 0 ∨ clockOk = false then cErr else tfd := by
  unfold sleepTimer createTimerfd
  by_cases hneg : tfd < 0
  · rw [if_pos hneg, if_pos (.inl hneg)]
  · cases clockOk <;> simp [hneg]

def armedTable (s : State) (timeout tfd : ℤ) (clockOk : Bool) : EventTable :=
  timerfdSettime (sleepTimer s timeout tfd clockOk).1 (sleepTimer s timeout tfd clockOk).2.1
    (sleepTimer s timeout tfd clockOk).2.2

theorem phpStep_sleep {site : CallSite} {timeout tfd : ℤ} {clockOk : Bool} (hle : ¬ timeout ≤ 0)
    (hfresh : freshDescriptor s tfd) : phpStep s (.sleep site timeout tfd clockOk addOk) =
      storeAndYield { enterCall s site with rg := armedTable s timeout tfd clockOk }
        (callFrame s site) (storeTimer (enterCall s site) (sleepTimer s timeout tfd clockOk).2.1)
        addOk := by
  have hopen : freshDescriptor (enterCall s site) tfd := hfresh
  rw [phpStep, coroutineSleep, if_neg hle, check, if_pos hopen]
  rfl

theorem phpStep_sleep_not_here {site : CallSite} {timeout tfd : ℤ} {clockOk : Bool}
    (hle : ¬ timeout ≤ 0) (hfresh : ¬ freshDescriptor s tfd) :
    phpStep s (.sleep site timeout tfd clockOk addOk) = .error .notHere := by
  have hclosed : ¬ freshDescriptor (enterCall s site) tfd := hfresh
  rw [phpStep, coroutineSleep, if_neg hle, check, if_neg hclosed]
  rfl

/-- A step that fails is noticed, or the method goes on with -1 and runs out of the table. -/
theorem failed_iff (hr : TableWf s.rg) (ha : isIo a = true) :
    Failed (phpStep s a) ↔ NoDescriptor s a ∨ StoreRefused s a := by
  cases a with
  | socketAccept site io =>
    cases harg : io.arguments.head? with
    | none =>
      refine failed_iff_of_missing (by rw [ioRequest, harg]; rfl) Iff.rfl harg ?_
      rw [phpStep, socketAccept, firstFd, harg]
      rfl
    | some zfd =>
      have hphp : phpStep s (.socketAccept site io) = storeAndYield (enterCall s site)
          (callFrame s site) (storeFunction (enterCall s site) (cConvertToFd zfd io.garbage) .accept
            (epollIn ||| epollRdhup) .socketAccept io.arguments) io.addOk := by
        rw [phpStep, socketAccept, firstFd, harg]
        rfl
      have hq : ioRequest s (.socketAccept site io) = some (storeFunction (enterCall s site)
          (cConvertToFd zfd io.garbage) .accept (epollIn ||| epollRdhup) .socketAccept io.arguments,
          io.addOk) := by
        rw [ioRequest, harg]
        rfl
      exact failed_iff_of_request hr (.refl _) hq trivial (head_negative_iff harg).mp hphp
  | socketRead site io => exact failed_iff_of_first site _ hr trivial Iff.rfl rfl rfl
  | socketWrite site io => exact failed_iff_of_first site _ hr trivial Iff.rfl rfl rfl
  | prepare site origin io => exact failed_iff_of_conversion site hr trivial Iff.rfl rfl rfl
  | fetchAll site origin io => exact failed_iff_of_conversion site hr trivial Iff.rfl rfl rfl
  | sleep site timeout tfd clockOk addOk =>
    by_cases hle : timeout ≤ 0
    · refine failed_iff_of_no_request (if_pos hle : ioRequest s (.sleep _ _ _ _ _) = none) ?_
      rw [phpStep, coroutineSleep, if_pos hle]
      constructor
      · intro h
        cases h
      · exact fun h => absurd h.1 (not_lt.mpr hle)
    by_cases hfresh : freshDescriptor s tfd
    · refine failed_iff_of_request hr (sameSlots_timers _ _ _ _ _ _) (if_neg hle) hfresh ?_
        (phpStep_sleep hle hfresh)
      rintro ⟨_, _, hno⟩
      change (sleepTimer s timeout tfd clockOk).2.1 < 0
      rw [sleepTimer_fd, if_pos hno]
      decide
    · rw [phpStep_sleep_not_here hle hfresh]
      constructor
      · exact fun h => absurd rfl h
      · rintro (⟨_, h, _⟩ | ⟨_, _, _, h, _⟩)
        · exact absurd h hfresh
        · exact absurd h hfresh
  | _ => simp [isIo] at ha

/-- The registrations, the interest set and the timers are as before, and nothing is allocated. -/
structure LeavesAsBefore (s s' : State) (es : List MemoryEvent) : Prop where
  waiters : ∀ fd ev, ev.phpContext ≠ none →
    (s'.rg.aioEventFds fd = some ev ↔ s.rg.aioEventFds fd = some ev)
  interest : s'.rg.interest = s.rg.interest
  timers : ∀ fd, s'.rg.timerfds fd = none ↔ s.rg.timerfds fd = none
  released : Released es

/-- C defines what the call does, and if it returns FALSE it leaves all as before. -/
structure FailsCleanly (s : State) (a : Action) : Prop where
  defined : ∀ e, phpStep s a = .error e → e = .notHere
  returns_false : ∀ s' frame es,
    (tracedStep s a).run [] = .ok (.returned s' frame (.bool false), es) → LeavesAsBefore s s' es

/-- A call that returns FALSE keeps the waiters, with their masks, and the interest set. -/
theorem registrations_of_false {s' : State} (hr : TableWf s.rg) (ha : isIo a = true)
    (h : phpStep s a = .ok (.returned s' frame (.bool false))) :
    (∀ fd ev, ev.phpContext ≠ none →
      (s'.rg.aioEventFds fd = some ev ↔ s.rg.aioEventFds fd = some ev)) ∧
    s'.rg.interest = s.rg.interest := by
  cases ioStep ha h with
  | refused site v ho =>
    cases ho
    exact ⟨fun _ _ _ => Iff.rfl, rfl⟩
  | asked site r q addOk hq hsame hctx hst =>
    obtain ⟨rg, ret, hstore, ⟨hret, ho⟩ | ⟨_, ho⟩⟩ := storeAndYield_cases hst
    · cases ho
      have hwf := hr.congr hsame.slots hsame.interest
      obtain ⟨_, ⟨_, hw, rfl⟩ | ⟨rfl, _⟩ | ⟨rfl, _⟩⟩ := aioEventStore_cases hwf hstore
      · refine ⟨fun fd ev hev => ?_, hsame.interest⟩
        have hslots : r.aioEventFds fd = some ev ↔ s.rg.aioEventFds fd = some ev := by
          rw [hsame.slots]
        rw [← hslots]
        by_cases hfd : fd = q.fd
        · -- the record that is freed had no waiter
          subst hfd
          constructor
          · intro hslot
            simp [setSlot] at hslot
          · exact fun hslot => absurd (waiter_eq_none.mp hw ev hslot) hev
        · simp [setSlot, Function.update_of_ne hfd]
      · exact absurd hret (by decide)
      · exact absurd hret (by decide)
    · cases ho

theorem armedTable_timer {timeout tfd : ℤ} (hneg : ¬ tfd < 0) :
    (armedTable s timeout tfd true).timerfds tfd ≠ none := by
  simp only [armedTable, sleepTimer, createTimerfd, if_neg hneg, if_true, timerfdSettime,
    Function.update_self]
  split_ifs <;> simp

/-- A refused sleep leaves its timer open. -/
theorem timer_left_by_sleep {site : CallSite} {timeout tfd : ℤ} {clockOk : Bool} {s' : State}
    (hr : TableWf s.rg)
    (h : phpStep s (.sleep site timeout tfd clockOk addOk) = .ok (.returned s' frame (.bool false))) :
    s.rg.timerfds tfd = none ∧ s'.rg.timerfds tfd ≠ none := by
  by_cases hle : timeout ≤ 0
  · rw [phpStep, coroutineSleep, if_pos hle] at h
    cases h
  by_cases hfresh : freshDescriptor s tfd
  · rw [phpStep_sleep hle hfresh] at h
    have hsame : SameSlots s.rg (armedTable s timeout tfd clockOk) := sameSlots_timers _ _ _ _ _ _
    obtain ⟨rg, ret, hst, ⟨hret, ho⟩ | ⟨_, ho⟩⟩ := storeAndYield_cases h
    · cases ho
      obtain ⟨hin, ⟨_, _, rfl⟩ | ⟨rfl, _⟩ | ⟨rfl, _⟩⟩ :=
        aioEventStore_cases (hr.congr hsame.slots hsame.interest) hst
      · have hfd : ¬ (tfd < 0 ∨ clockOk = false) := by
          intro hno
          change inTable (sleepTimer s timeout tfd clockOk).2.1 at hin
          rw [sleepTimer_fd, if_pos hno] at hin
          exact absurd hin (by decide)
        obtain ⟨hneg, hclock⟩ := not_or.mp hfd
        rw [Bool.not_eq_false] at hclock
        subst hclock
        exact ⟨(hfresh.resolve_left hneg).2, armedTable_timer hneg⟩
      · exact absurd hret (by decide)
      · exact absurd hret (by decide)
    · cases ho
  · rw [phpStep_sleep_not_here hle hfresh] at h
    cases h

/-- A failing call does not fail cleanly: if it returns, what it allocated is not all released. -/
theorem failsCleanly_iff_not_failed (ha : isIo a = true) :
    FailsCleanly s a ↔ ¬ Failed (phpStep s a) := by
  constructor
  · intro hclean hfailed
    cases hphp : phpStep s a with
    | error e =>
      rw [hphp] at hfailed
      exact hfailed (hclean.defined e hphp)
    | ok o =>
      rw [hphp] at hfailed
      cases o with
      | returned s' frame v =>
        obtain rfl : v = .bool false := hfailed
        obtain ⟨es, hrun⟩ := (traces_step s a).exists_run hphp []
        exact not_released_of_false ha hrun (hclean.returns_false _ _ _ hrun).released
      | yields s' => exact hfailed
      | runs s' => exact hfailed
  · intro hok
    refine ⟨fun e he => ?_, fun s' frame es hrun => ?_⟩
    · rw [he] at hok
      exact not_not.mp hok
    · rw [(traces_step s a).of_run hrun] at hok
      exact absurd rfl hok

/-- Of the calls that suspend, those fail cleanly in which no step fails: the method gets a
descriptor, and its registration is not refused. -/
theorem fails_cleanly_iff (hs : Reached (fun _ _ => True) s) (ha : isIo a = true) :
    FailsCleanly s a ↔ ¬ (NoDescriptor s a ∨ StoreRefused s a) := by
  rw [failsCleanly_iff_not_failed ha, failed_iff (tableWf_of_reached hs) ha]

theorem fails_cleanly_iff_read : ∃ s,
    Transition.runFrom step (initial 0 0) [createCall 1] = .ok s ∧ FailsCleanly s (readCall 3) := by
  obtain ⟨s, hrun, hs, hp⟩ := exists_reached [createCall 1] (fun s => s.epollfd.isSome) (by decide)
  refine ⟨s, hrun, (fails_cleanly_iff hs rfl).mpr ?_⟩
  rintro (hno | ⟨q, addOk, hq, _, hrefused⟩)
  · exact absurd (hno _ rfl) (by decide)
  · cases hq
    have hin : inTable 3 := by decide
    have hadd := (hrefused hin).2
    rw [hp] at hadd
    cases hadd

def badRead : Action := .socketRead callSite ⟨[.long (-1), .long 10], 0, true⟩

/-- It returns FALSE and keeps the array of its arguments. -/
theorem bad_read_not_clean : ∃ s s' frame es,
    Transition.runFrom step (initial 0 0) [createCall 1] = .ok s ∧ Reached (fun _ _ => True) s ∧
    (tracedStep s badRead).run [] = .ok (.returned s' frame (.bool false), es) ∧
    ¬ LeavesAsBefore s s' es := by
  obtain ⟨s, hrun, hs, _⟩ := exists_reached [createCall 1] (fun _ => true) (by decide)
  have htraced : (tracedStep s badRead).run [] = .ok (.returned (enterCall s callSite)
      (callFrame s callSite) (.bool false), [.alloc .arguments]) := rfl
  exact ⟨s, _, _, _, hrun, hs, htraced, fun h => not_released_of_false rfl htraced h.released⟩

end Phpco
