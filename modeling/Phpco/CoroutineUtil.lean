import Phpco.Cidmap
import Phpco.EventTable
import Phpco.Lifecycle
import Phpco.Link

/-!
# Switching between coroutines

The state of a request, and coroutine_util.c: `coro_init`, `c_coro_create`,
`coro_close`, `c_coro_save`, `c_coro_resume`, `c_coro_resume_parent` and
`coro_yield`.
-/

namespace Phpco

structure CoroTask where
  cid : ℤ
  function : Option Zval
  deriving DecidableEq, Repr

/-- `php_context`; its return value slot is the result of the call `executeData` starts with. -/
structure PhpContext where
  executeData : List ExecuteData
  vm : VmStack
  task : Option Ptr
  allocatedReturnValuePtr : Option Ptr
  deriving DecidableEq, Repr

/-- The memory of a `php_context`.  Once it is switched to, the call frame it
refers to is popped, and it must not be switched to again. -/
inductive ContextCell
  | free
  | saved (ctx : PhpContext)
  | resumed
  deriving DecidableEq, Repr

/-- A `jmp_buf`; `set act` is one that the `setjmp` of activation `act` filled. -/
inductive JmpBuf
  | unallocated
  | unset
  | set (act : Ptr)
  deriving DecidableEq, Repr

structure CoroGlobal where
  coroNum : ℕ
  maxCoroNum : ℕ
  stackSize : ℕ
  originVmStack : VmStack
  allocatedReturnValuePtr : Option Ptr
  currentCoro : Option Ptr
  require : Bool
  deriving DecidableEq, Repr

/-- A call of an extension function that has not returned, as the engine's
`ZEND_DO_FCALL` holds it: its frame, and `execute_data`, the frames of its caller. -/
structure InternalCall where
  call : ExecuteData
  caller : List ExecuteData
  deriving DecidableEq, Repr

/-- Who called `c_coro_create` or `c_coro_resume`, with the locals it still needs. -/
inductive Switch
  | create (frame : InternalCall) (prevCheckpoint : Option Ptr) (ctx : PhpContext)
      (required : Bool) (callback : Zval)
  | resume (frame : InternalCall) (prevCheckpoint : Option Ptr) (context : Ptr) (ctx : PhpContext)
      (required : Bool)
  | invoke (fd : ℤ) (event context : Ptr)
  deriving DecidableEq, Repr

/-- A `c_coro_create` or `c_coro_resume` inside its `zend_execute_ex`.  `task` is
the coroutine it switched to and `buf` the `jmp_buf` its `setjmp` filled. -/
structure Activation where
  id : Ptr
  task : Option Ptr
  buf : Ptr
  switch : Switch
  deriving DecidableEq, Repr

/-- Where `event_loop` is.  `since` is the table as `epoll_wait` found it; the
code does not keep it. -/
inductive LoopPhase
  | wait
  | batch (events : List EpollEvent) (since : EventTable)
  | timeouts (now : ℤ) (q f : Option Ptr)
  | expired (now : ℤ) (q : Ptr) (f : Option Ptr)

structure EventLoop where
  frame : InternalCall
  phase : LoopPhase
  test : ℕ

inductive CFrame
  | activation (x : Activation)
  | eventLoop (l : EventLoop)

/-- A request.  `next` is the next fresh address, `now` what `gettimeofday` says
in milliseconds and `clock` what `CLOCK_MONOTONIC` says. -/
structure State where
  eg : ExecutorGlobals
  corog : CoroGlobal
  checkPoint : Option Ptr
  jmpBufs : Ptr → JmpBuf
  contexts : Ptr → ContextCell
  tasks : Ptr → Option CoroTask
  cidContextMap : ℤ → Option Ptr
  cids : CidAllocator
  epollfd : Option Ptr
  rg : EventTable
  timeouts : Timeouts
  stack : List CFrame
  next : Ptr
  now : ℤ
  clock : Timespec
  log : List Event

/-- The value at a pointer, or the way the code ends on a bad one. -/
def deref {α : Type*} (p : Option α) (e : Halt) : Except Halt α :=
  match p with
  | some x => .ok x
  | none => .error e

def check (p : Prop) [Decidable p] (e : Halt) : Except Halt Unit :=
  if p then .ok () else .error e

@[simp] theorem deref_eq_ok {α : Type*} {p : Option α} {e : Halt} {x : α} :
    deref p e = .ok x ↔ p = some x := by
  cases p <;> simp [deref]

@[simp] theorem check_eq_ok {p : Prop} [Decidable p] {e : Halt} {u : Unit} :
    check p e = .ok u ↔ p := by
  simp [check]

structure CallSite where
  slots : ℕ
  used : Bool
  deriving DecidableEq, Repr

def callFrame (s : State) (site : CallSite) : InternalCall where
  call := (pushCallFrame s.eg.vm site.slots site.used s.next).1
  caller := s.eg.currentExecuteData

def enterCall (s : State) (site : CallSite) : State :=
  { s with
    eg := ⟨(pushCallFrame s.eg.vm site.slots site.used s.next).2,
      (callFrame s site).call :: s.eg.currentExecuteData⟩
    next := s.next + 1 }

def leaveCall (s : State) (frame : InternalCall) (v : Zval) : State :=
  { s with
    eg := ⟨freeCallFrame s.eg.vm frame.call, frame.caller⟩
    log := .returned v :: s.log }

def defaultMaxCoroNum : ℕ := 3000
def defaultStackSize : ℕ := 8192
def defaultMaxEvent : ℕ := 3000

def coroEnd : ℤ := 0
def coroYielded : ℤ := 1
def coroLimit : ℤ := 2

def taskSlot : ℕ := 3

def stackSlots (stackSize : ℕ) : ℕ := stackSize / 16

def coroInit (s : State) : State :=
  { s with
    corog := { s.corog with
      originVmStack := s.eg.vm
      coroNum := 0
      maxCoroNum := if s.corog.maxCoroNum = 0 then defaultMaxCoroNum else s.corog.maxCoroNum
      stackSize := if s.corog.stackSize = 0 then defaultStackSize else s.corog.stackSize
      require := false }
    epollfd := some s.next
    rg := { s.rg with aioEventFds := fun _ => none, interest := fun _ => none }
    checkPoint := some (s.next + 1)
    jmpBufs := Function.update s.jmpBufs (s.next + 1) .unset
    next := s.next + 2 }

def coroSave (s : State) : PhpContext where
  executeData := s.eg.currentExecuteData
  vm := s.eg.vm
  task := s.corog.currentCoro
  allocatedReturnValuePtr := s.corog.allocatedReturnValuePtr

def coroResumeParent (s : State) (ctx : PhpContext) : State :=
  { s with
    eg := ⟨ctx.vm, ctx.executeData⟩
    corog := { s.corog with
      currentCoro := ctx.task
      allocatedReturnValuePtr := ctx.allocatedReturnValuePtr } }

/-- `setjmp(*checkPoint)` by a new activation, which then runs the coroutine. -/
def setjmp (s : State) (switch : Switch) : Except Halt State := do
  let buf ← deref s.checkPoint .nullDeref
  check (s.jmpBufs buf ≠ .unallocated) .useAfterFree
  return { s with
    jmpBufs := Function.update s.jmpBufs buf (.set s.next)
    stack := .activation ⟨s.next, s.corog.currentCoro, buf, switch⟩ :: s.stack
    next := s.next + 1 }

/-- The new coroutine's registers, on a page of its own with its `coro_task` at the bottom. -/
def startTask (s : State) (cid : ℤ) (slots : ℕ) : State :=
  let page := s.next
  let vm : VmStack := ⟨page, zendVmStackElements + 1 + taskSlot, stackSlots s.corog.stackSize⟩
  { s with
    eg := ⟨(pushCallFrame vm slots false (s.next + 2)).2,
      [(pushCallFrame vm slots false (s.next + 2)).1]⟩
    corog := { s.corog with
      currentCoro := some page
      allocatedReturnValuePtr := some (s.next + 1)
      coroNum := (s.corog.coroNum + 1) % 2 ^ 32
      require := true }
    tasks := Function.update s.tasks page (some ⟨cid, none⟩)
    next := s.next + 3
    log := .created page cid (s.next + 1) (s.next + 3) :: s.log }

/-- `c_coro_create`: it returns a status at once, or the new coroutine runs. -/
def cCoroCreate (s : State) (slots : ℕ) (switch : Switch) : Except Halt (State × Option ℤ) :=
  match allocCidmap s.cids with
  | none => .error .diverges
  | some (cid, cids) =>
    let s := { s with cids := cids }
    if s.corog.maxCoroNum ≤ s.corog.coroNum ∧ cid ≠ -1 then .ok (s, some coroLimit)
    else do
      let s ← setjmp (startTask s cid slots) switch
      return (s, none)

def coroClose (s : State) : Except Halt State := do
  let t ← deref s.corog.currentCoro .nullDeref
  let task ← deref (s.tasks t) .useAfterFree
  let retval ← deref s.corog.allocatedReturnValuePtr .nullDeref
  return { s with
    cids := freeCidmap task.cid s.cids
    -- the page that is freed holds a coro_task
    tasks := Function.update s.tasks s.eg.vm.stack none
    eg := ⟨s.corog.originVmStack, s.eg.currentExecuteData⟩
    corog := { s.corog with
      currentCoro := none
      coroNum := (s.corog.coroNum + (2 ^ 32 - 1)) % 2 ^ 32 }
    log := .closed t task.cid s.eg.vm.stack retval :: s.log }

/-- `ZVAL_COPY` into the call's result if the opline uses it. -/
def copyResult (resultUsed : Bool) (retval : Option Zval) : Except Halt (Option Zval) :=
  match resultUsed, retval with
  | false, _ => .ok none
  | true, some v => .ok (some v)
  | true, none => .error .nullDeref

/-- `c_coro_resume` up to its `setjmp`; `retval` is `NULL` or points to a value. -/
def cCoroResume (s : State) (context : Ptr) (retval : Option Zval) (wait : Wait) (switch : Switch) :
    Except Halt State :=
  match s.contexts context with
  | .free => .error .useAfterFree
  | .resumed => .error .useAfterFree
  | .saved ctx =>
    match ctx.executeData with
    | current :: caller :: rest => do
      let result ← copyResult current.resultUsed retval
      setjmp { s with
        eg := ⟨freeCallFrame ctx.vm current, caller :: rest⟩
        corog := { s.corog with
          currentCoro := ctx.task
          allocatedReturnValuePtr := ctx.allocatedReturnValuePtr
          require := true }
        contexts := Function.update s.contexts context .resumed
        log := .switched ctx.task wait context s.next result :: s.log } switch
    | _ => .error .nullDeref

def setFunction (s : State) (callback : Zval) : Except Halt State :=
  match s.corog.currentCoro with
  | none => .ok s
  | some t => do
    let task ← deref (s.tasks t) .useAfterFree
    return { s with
      tasks := Function.update s.tasks t (some { task with function := some callback }) }

/-- The end of `coroutine_create`, from the return of `coro_create`. -/
def coroutineCreateTail (s : State) (frame : InternalCall) (prevCheckpoint : Option Ptr)
    (ctx : PhpContext) (required : Bool) (callback : Zval) (ret : ℤ) : Except Halt State := do
  let s ← setFunction s callback
  let buf ← deref s.checkPoint .nullDeref
  let s := { s with jmpBufs := Function.update s.jmpBufs buf .unallocated }
  if ret < 0 then return leaveCall s frame (.bool false)
  else
    let s := coroResumeParent { s with checkPoint := prevCheckpoint } ctx
    let s := { s with corog := { s.corog with require := required } }
    return leaveCall s frame (.bool true)

/-- The end of `coroutine::resume`, from the return of `coro_resume`. -/
def coroutineResumeTail (s : State) (frame : InternalCall) (prevCheckpoint : Option Ptr)
    (context : Ptr) (ctx : PhpContext) (required : Bool) : Except Halt State := do
  let s := { s with contexts := Function.update s.contexts context .free }
  let buf ← deref s.checkPoint .nullDeref
  let s := { s with
    jmpBufs := Function.update s.jmpBufs buf .unallocated
    checkPoint := prevCheckpoint }
  let s := coroResumeParent s ctx
  let s := { s with corog := { s.corog with require := required } }
  return leaveCall s frame (.bool true)

/-- The end of `aio_invoke`, from the return of `coro_resume`; it reads the event again. -/
def aioInvokeTail (s : State) (fd : ℤ) (event context : Ptr) : Except Halt State := do
  let s := { s with contexts := Function.update s.contexts context .free }
  let ev ← deref (s.rg.aioEventFds fd) .useAfterFree
  check (ev.addr = event) .useAfterFree
  return s

/-- The rest of `c_coro_create` or `c_coro_resume`, and then of its caller. -/
def returnFrom (s : State) (switch : Switch) (ret : ℤ) : Except Halt State :=
  let s := { s with corog := { s.corog with require := false } }
  match switch with
  | .create frame prevCheckpoint ctx required callback =>
    coroutineCreateTail s frame prevCheckpoint ctx required callback ret
  | .resume frame prevCheckpoint context ctx required =>
    coroutineResumeTail s frame prevCheckpoint context ctx required
  | .invoke fd event context => aioInvokeTail s fd event context

/-- The activation a `longjmp` finds on the C stack, and what is below it. -/
def unwind (act : Ptr) : List CFrame → Option (Activation × List CFrame)
  | [] => none
  | .eventLoop _ :: stack => unwind act stack
  | .activation x :: stack => if x.id = act then some (x, stack) else unwind act stack

def jumpTarget (s : State) : Except Halt (Activation × List CFrame) := do
  let buf ← deref s.checkPoint .nullDeref
  match s.jmpBufs buf with
  | .unallocated => .error .useAfterFree
  | .unset => .error .uninitialized
  | .set act => deref (unwind act s.stack) .badJump

def coroYield (s : State) : Except Halt State := do
  let s := { s with eg := ⟨s.corog.originVmStack, s.eg.currentExecuteData⟩ }
  let (x, stack) ← jumpTarget s
  returnFrom { s with stack := stack } x.switch coroYielded

end Phpco
