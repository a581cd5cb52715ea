import Mathlib.Algebra.Group.Int.Defs
import Mathlib.Algebra.Group.Nat.Defs
import Mathlib.Data.Int.Notation
import Mathlib.Logic.Function.Basic
import Mathlib.Order.Basic

/-!
# What the extension uses of the engine

PHP values as far as the extension looks at them, the vm stack with its call
frames, and the reasons for which a step has no next state.
-/

namespace Phpco

/-- An address.  Addresses are handed out in increasing order and never again. -/
abbrev Ptr := ℕ

/-- Why a step has no next state: the choice made is not possible at this point,
or the C code leaves defined behaviour. -/
inductive Halt
  | notHere
  | nullDeref
  | useAfterFree
  | outOfBounds
  | uninitialized
  | badJump
  | diverges
  deriving DecidableEq, Repr

/-- A `zval`.  Streams and connections carry what `php_stream_cast` yields for them. -/
inductive Zval
  | null
  | bool (b : Bool)
  | long (n : ℤ)
  | stream (cast : Option ℤ)
  | socket (bsdSocket : ℤ)
  | resource
  | pdo (cast : Option ℤ)
  | pdoStatement (cast : Option ℤ)
  | object (id : ℕ)
  | coPdoStatement (origin : Zval)
  | value (id : ℕ)
  deriving DecidableEq, Repr

/-- The value of a `zend_long` stored into an `int`. -/
def toInt (n : ℤ) : ℤ := n.bmod (2 ^ 32)

def cOk : ℤ := 0
def cErr : ℤ := -1

/-- `c_convert_to_fd`; `garbage` is what the uninitialised `socket_fd` happens to hold. -/
def cConvertToFd (zfd : Zval) (garbage : ℤ) : ℤ :=
  match zfd with
  | .stream (some fd) => if fd < 0 then cErr else fd
  | .stream none => cErr
  | .socket bsdSocket => bsdSocket
  | .resource => cErr
  | .long n => if toInt n < 0 then cErr else toInt n
  -- the result of the cast is not looked at
  | .pdo cast => cast.getD garbage
  | .pdoStatement cast => cast.getD garbage
  -- an object of any other class leaves socket_fd unassigned
  | .object _ => garbage
  | .coPdoStatement _ => garbage
  | .null => cErr
  | .bool _ => cErr
  | .value _ => cErr

/-- `EG(vm_stack)`, `EG(vm_stack_top)` and `EG(vm_stack_end)`; the last two are
counted in zvals from the start of the page. -/
structure VmStack where
  stack : Ptr
  top : ℕ
  stop : ℕ
  deriving DecidableEq, Repr

/-- A call frame.  `below` is where the vm stack stood when the frame was
pushed, `page` the page opened for it if it did not fit, and `resultUsed` says
whether the opline of the call takes its result. -/
structure ExecuteData where
  below : VmStack
  page : Option Ptr
  resultUsed : Bool
  deriving DecidableEq, Repr

/-- `EG(vm_stack)` and its companions, and `EG(current_execute_data)` with the
frames its `prev_execute_data` links lead to; `[]` is `NULL`. -/
structure ExecutorGlobals where
  vm : VmStack
  currentExecuteData : List ExecuteData
  deriving DecidableEq, Repr

def zendVmStackPageSize : ℕ := 0x4000

def zendCallFrameSlot : ℕ := 5

def zendVmStackElements : ℕ := 2

/-- `zend_vm_stack_push_call_frame`, opening page `fresh` if the frame does not fit. -/
def pushCallFrame (vm : VmStack) (slots : ℕ) (used : Bool) (fresh : Ptr) : ExecuteData × VmStack :=
  if vm.top + slots ≤ vm.stop then (⟨vm, none, used⟩, { vm with top := vm.top + slots })
  else (⟨vm, some fresh, used⟩,
    ⟨fresh, zendVmStackElements + slots, max zendVmStackPageSize (zendVmStackElements + slots)⟩)

/-- `zend_vm_stack_free_call_frame`: only the first frame of the current page gives the page back. -/
def freeCallFrame (vm : VmStack) (call : ExecuteData) : VmStack :=
  match call.page with
  | some page => if vm.stack = page then call.below else { vm with top := zendVmStackElements }
  | none => { vm with top := call.below.top }

@[simp] theorem freeCallFrame_pushCallFrame (vm : VmStack) (slots : ℕ) (used : Bool) (fresh : Ptr) :
    freeCallFrame (pushCallFrame vm slots used fresh).2 (pushCallFrame vm slots used fresh).1 =
      vm := by
  unfold pushCallFrame
  split_ifs <;> simp [freeCallFrame]

@[simp] theorem resultUsed_pushCallFrame (vm : VmStack) (slots : ℕ) (used : Bool) (fresh : Ptr) :
    (pushCallFrame vm slots used fresh).1.resultUsed = used := by
  unfold pushCallFrame
  split_ifs <;> rfl

end Phpco
