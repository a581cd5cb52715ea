import Phpco.Engine

/-!
# The timeout queue

link.c, and the elements that `coroutine::socket_set_timeout` puts into
`RG.timeout_fd_link`.
-/

namespace Phpco

structure Node where
  data : Ptr
  next : Option Ptr
  deriving DecidableEq, Repr

/-- A `Link` with the heap of its nodes; a freed node is `none` there. -/
structure Link where
  front : Option Ptr
  rear : Option Ptr
  size : ℤ
  nodes : Ptr → Option Node

def initqueue : Link := ⟨none, none, 0, fun _ => none⟩

def emptyqueue (p : Link) : Bool := p.front = none ∧ p.rear = none

/-- `pushqueue`, where `malloc` yields `que` for the node. -/
def pushqueue (p : Link) (que data : Ptr) : Link :=
  let p := { p with nodes := Function.update p.nodes que (some ⟨data, none⟩), size := p.size + 1 }
  if emptyqueue p then { p with front := some que, rear := some que }
  -- the old rear is not linked to the new node
  else { p with rear := some que }

/-- The removal of node `q`, reached after node `f`, as `delete_node` and the
timeout pass of `event_loop` write it. -/
def removeNode (p : Link) (q : Ptr) (f : Option Ptr) : Except Halt Link :=
  let release (p : Link) : Link :=
    { p with nodes := Function.update p.nodes q none, size := p.size - 1 }
  match p.nodes q with
  | none => .error .useAfterFree
  | some node =>
    if p.front = some q then .ok (release { p with front := node.next })
    else if p.rear = some q then .ok (release { p with rear := f })
    else match f with
      | none => .error .nullDeref
      | some f => match p.nodes f with
        | none => .error .useAfterFree
        | some prev =>
          .ok (release { p with nodes := Function.update p.nodes f (some { prev with next := node.next }) })

/-- The loop of `delete_node` at node `q`, reached after `f`; `fuel` bounds its rounds. -/
def deleteLoop (p : Link) (data : Ptr) : ℕ → Option Ptr → Option Ptr → Except Halt Link
  | _, none, _ => .ok p
  | 0, some _, _ => .error .diverges
  | fuel + 1, some q, f =>
    match p.nodes q with
    | none => .error .useAfterFree
    | some node =>
      if node.data = data then removeNode p q f else deleteLoop p data fuel node.next (some q)

def deleteNode (p : Link) (data : Ptr) (fuel : ℕ) : Except Halt Link :=
  if p.size = 0 then .ok p else deleteLoop p data fuel p.front none

structure TimeoutElement where
  fd : ℤ
  timeout : ℤ
  lastTime : ℤ
  persistent : Bool
  deriving DecidableEq, Repr

/-- `RG.timeout_fd_link` with the elements its nodes refer to. -/
structure Timeouts where
  link : Link
  elements : Ptr → Option TimeoutElement

def Timeouts.initial : Timeouts := ⟨initqueue, fun _ => none⟩

/-- The queue with a new element; `ele` and `que` are fresh addresses. -/
def Timeouts.push (t : Timeouts) (element : TimeoutElement) (ele que : Ptr) : Timeouts where
  link := pushqueue t.link que ele
  elements := Function.update t.elements ele (some element)

end Phpco
