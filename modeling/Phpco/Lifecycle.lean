import Phpco.Engine

/-!
# The life of a coroutine

A coroutine is created and runs; while it runs it may suspend, saving a context,
or finish; a suspended coroutine runs again when that context is switched to.
A run is looked at through the list of these events, newest first.
-/

namespace Phpco

/-- What a suspended coroutine waits for: a `coroutine::resume` of its cid, or
the dispatch of the descriptor it named. -/
inductive Wait
  | yield (cid : ℤ)
  | io (fd : ℤ)
  deriving DecidableEq, Repr

/-- What a run did with its coroutines, for the record; the code does not read it.
`act` is the `c_coro_create` or `c_coro_resume` that switched to the coroutine. -/
inductive Event
  | created (task : Ptr) (cid : ℤ) (retval act : Ptr)
  | switched (task : Option Ptr) (wait : Wait) (context act : Ptr) (result : Option Zval)
  | suspended (task : Option Ptr) (wait : Wait) (context : Ptr)
  | closed (task : Ptr) (cid : ℤ) (page retval : Ptr)
  | returned (v : Zval)
  deriving DecidableEq, Repr

inductive Status
  | absent
  | running (act : Ptr)
  | suspended (wait : Wait) (context : Ptr)
  | closed
  deriving DecidableEq, Repr

def Event.apply (σ : Ptr → Status) : Event → Ptr → Status
  | .created t _ _ act => Function.update σ t (.running act)
  | .switched (some t) _ _ act _ => Function.update σ t (.running act)
  | .suspended (some t) wait context => Function.update σ t (.suspended wait context)
  | .closed t _ _ _ => Function.update σ t .closed
  | _ => σ

def status : List Event → Ptr → Status
  | [] => fun _ => .absent
  | e :: log => e.apply (status log)

def cidOf : List Event → Ptr → Option ℤ
  | [] => fun _ => none
  | .created t cid _ _ :: log => Function.update (cidOf log) t (some cid)
  | .closed t _ _ _ :: log => Function.update (cidOf log) t none
  | _ :: log => cidOf log

def liveTasks : List Event → List Ptr
  | [] => []
  | .created t _ _ _ :: log => t :: liveTasks log
  | .closed t _ _ _ :: log => (liveTasks log).erase t
  | _ :: log => liveTasks log

def Event.switchesTo (c : Ptr) : Event → Bool
  | .switched _ _ context _ _ => context = c
  | _ => false

def switches (log : List Event) (c : Ptr) : ℕ := log.countP (Event.switchesTo c)

inductive Entry
  | never
  | yielded (context : Ptr)
  | resumed (context : Ptr)
  deriving DecidableEq, Repr

def entry : List Event → ℤ → Entry
  | [] => fun _ => .never
  | .suspended _ (.yield cid) context :: log => Function.update (entry log) cid (.yielded context)
  | .switched _ (.yield cid) context _ _ :: log =>
    Function.update (entry log) cid (.resumed context)
  | _ :: log => entry log

section

variable (log : List Event) (t c act retval page : Ptr) (cid fd : ℤ) (w : Wait)
  (task : Option Ptr) (result : Option Zval)

@[simp] theorem status_created : status (.created t cid retval act :: log) =
    Function.update (status log) t (.running act) := rfl

@[simp] theorem status_switched : status (.switched (some t) w c act result :: log) =
    Function.update (status log) t (.running act) := rfl

@[simp] theorem status_suspended : status (.suspended (some t) w c :: log) =
    Function.update (status log) t (.suspended w c) := rfl

@[simp] theorem status_closed : status (.closed t cid page retval :: log) =
    Function.update (status log) t .closed := rfl

@[simp] theorem cidOf_created : cidOf (.created t cid retval act :: log) =
    Function.update (cidOf log) t (some cid) := rfl

@[simp] theorem cidOf_closed : cidOf (.closed t cid page retval :: log) =
    Function.update (cidOf log) t none := rfl

@[simp] theorem cidOf_switched : cidOf (.switched task w c act result :: log) = cidOf log := rfl

@[simp] theorem cidOf_suspended : cidOf (.suspended task w c :: log) = cidOf log := rfl

@[simp] theorem entry_created : entry (.created t cid retval act :: log) = entry log := rfl

@[simp] theorem entry_closed : entry (.closed t cid page retval :: log) = entry log := rfl

@[simp] theorem entry_switched_yield : entry (.switched task (.yield cid) c act result :: log) =
    Function.update (entry log) cid (.resumed c) := rfl

@[simp] theorem entry_switched_io :
    entry (.switched task (.io fd) c act result :: log) = entry log := rfl

@[simp] theorem entry_suspended_yield : entry (.suspended task (.yield cid) c :: log) =
    Function.update (entry log) cid (.yielded c) := rfl

@[simp] theorem entry_suspended_io : entry (.suspended task (.io fd) c :: log) = entry log := rfl

@[simp] theorem switches_created (c : Ptr) :
    switches (.created t cid retval act :: log) c = switches log c := rfl

@[simp] theorem switches_closed (c : Ptr) :
    switches (.closed t cid page retval :: log) c = switches log c := rfl

@[simp] theorem switches_suspended (c' : Ptr) :
    switches (.suspended task w c :: log) c' = switches log c' := rfl

@[simp] theorem switches_switched (c' : Ptr) : switches (.switched task w c act result :: log) c' =
    switches log c' + if c = c' then 1 else 0 := by
  simp [switches, Event.switchesTo, List.countP_cons]

end

section

variable (vs : List Zval) (log : List Event)

@[simp] theorem status_returned : status (vs.map .returned ++ log) = status log := by
  induction vs with
  | nil => rfl
  | cons v vs ih => exact ih

@[simp] theorem cidOf_returned : cidOf (vs.map .returned ++ log) = cidOf log := by
  induction vs with
  | nil => rfl
  | cons v vs ih => exact ih

@[simp] theorem entry_returned : entry (vs.map .returned ++ log) = entry log := by
  induction vs with
  | nil => rfl
  | cons v vs ih => exact ih

@[simp] theorem liveTasks_returned : liveTasks (vs.map .returned ++ log) = liveTasks log := by
  induction vs with
  | nil => rfl
  | cons v vs ih => exact ih

@[simp] theorem switches_returned (c : Ptr) :
    switches (vs.map .returned ++ log) c = switches log c := by
  induction vs with
  | nil => rfl
  | cons v vs ih => exact ih

end

end Phpco
