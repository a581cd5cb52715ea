import Phpco.Engine

/-!
# The hash table

hashtable.c: 1024 chains of nodes, each with its own copy of a key and with a
value that the table releases through the function put in with it.
-/

namespace Phpco

/-- A string: the characters before the terminating 0. -/
structure CString where
  chars : List (BitVec 8)
  nonzero : ∀ c ∈ chars, c ≠ 0
  deriving DecidableEq

def tableSize : ℕ := 1024

/-- `hash_33`; a `char` is signed, and is extended to the width of `hash`. -/
def hash33 (key : CString) : BitVec 32 :=
  key.chars.foldl (fun hash c => (hash <<< 5) + hash + c.signExtend 32) 0

def chainIndex (key : CString) : ℕ := (hash33 key).toNat % tableSize

theorem chainIndex_lt (key : CString) : chainIndex key < tableSize :=
  Nat.mod_lt _ (by decide)

/-- `struct kv`; the copy of the key is part of it, and is freed with it. -/
structure Kv where
  next : Option Ptr
  key : CString
  value : Option Ptr
  freeValue : Option Ptr
  deriving DecidableEq

/-- A `HashTable` with the heap of its nodes; a freed node is `none` there.
`calls` are the calls of `free_value` functions so far, each with its argument,
and `freed` the nodes given to `free`.  The functions see a value only, and
leave the table alone. -/
structure HashTable where
  table : ℕ → Option Ptr
  kvs : Ptr → Option Kv
  next : Ptr
  calls : List (Ptr × Option Ptr)
  freed : List Ptr

def hashTableNew : HashTable := ⟨fun _ => none, fun _ => none, 0, [], []⟩

def releaseCall (freeValue value : Option Ptr) : List (Ptr × Option Ptr) :=
  freeValue.toList.map fun f => (f, value)

def freeKv (ht : HashTable) (p : Ptr) (kv : Kv) : HashTable :=
  { ht with
    kvs := Function.update ht.kvs p none
    calls := ht.calls ++ releaseCall kv.freeValue kv.value
    freed := ht.freed ++ [p] }

/-- The walk of `hash_table_put2` and `hash_table_get` along a chain, from node
`p`, which comes after `prep`.  The first node with the key ends it, or else the
end of the chain does; `fuel` bounds its rounds. -/
def walk {α : Type} (ht : HashTable) (key : CString)
    (stored : Ptr → Kv → Except Halt α) (absent : Option Ptr → Except Halt α) :
    ℕ → Option Ptr → Option Ptr → Except Halt α
  | _, none, prep => absent prep
  | 0, some _, _ => .error .diverges
  | fuel + 1, some p, _ =>
    match ht.kvs p with
    | none => .error .useAfterFree
    | some kv => if kv.key = key then stored p kv else walk ht key stored absent fuel kv.next (some p)

/-- The new node of `hash_table_put2`, linked behind `prep` or else into the table. -/
def appendKv (ht : HashTable) (kv : Kv) (prep : Option Ptr) : Except Halt HashTable :=
  let added : HashTable := { ht with
    kvs := Function.update ht.kvs ht.next (some kv)
    next := ht.next + 1 }
  match prep with
  | none => .ok { added with table := Function.update ht.table (chainIndex kv.key) (some ht.next) }
  | some prep => match ht.kvs prep with
    | none => .error .useAfterFree
    | some last =>
      .ok { added with
        kvs := Function.update added.kvs prep (some { last with next := some ht.next }) }

/-- `hash_table_put2`, where `malloc` succeeds.  No chain has more nodes than
there have been addresses, so a longer walk would never end. -/
def hashTablePut2 (ht : HashTable) (key : CString) (value freeValue : Option Ptr) :
    Except Halt HashTable :=
  let p := ht.table (chainIndex key)
  walk ht key
    (fun p kv => .ok { ht with
      kvs := Function.update ht.kvs p (some { kv with value := value, freeValue := freeValue })
      calls := ht.calls ++ releaseCall kv.freeValue kv.value })
    (appendKv ht ⟨none, key, value, freeValue⟩) ht.next p p

def hashTableGet (ht : HashTable) (key : CString) : Except Halt (Option Ptr) :=
  let p := ht.table (chainIndex key)
  walk ht key (fun _ kv => .ok kv.value) (fun _ => .ok none) ht.next p p

/-- The loop of `hash_table_rm` at node `p`, which comes after `prep`.  It goes
on after the removal, at what the freed node links to. -/
def rmLoop (key : CString) : ℕ → HashTable → Option Ptr → Option Ptr → Except Halt HashTable
  | _, ht, none, _ => .ok ht
  | 0, _, some _, _ => .error .diverges
  | fuel + 1, ht, some p, prep =>
    match ht.kvs p with
    | none => .error .useAfterFree
    | some kv =>
      if kv.key = key then do
        let ht := freeKv ht p kv
        let unlinked ←
          if prep = some p then
            -- the chain behind the first node goes with it
            .ok { ht with table := Function.update ht.table (chainIndex key) none }
          else match ht.kvs p, prep with
            | none, _ => .error .useAfterFree
            | some _, none => .error .nullDeref
            | some kv, some prep => match ht.kvs prep with
              | none => .error .useAfterFree
              | some before => .ok { ht with
                  kvs := Function.update ht.kvs prep (some { before with next := kv.next }) }
        match unlinked.kvs p with
        | none => .error .useAfterFree
        | some kv => rmLoop key fuel unlinked kv.next (some p)
      else rmLoop key fuel ht kv.next (some p)

def hashTableRm (ht : HashTable) (key : CString) : Except Halt HashTable :=
  let p := ht.table (chainIndex key)
  rmLoop key ht.next ht p p

def deleteChain : ℕ → HashTable → Option Ptr → Except Halt HashTable
  | _, ht, none => .ok ht
  | 0, _, some _ => .error .diverges
  | fuel + 1, ht, some p =>
    match ht.kvs p with
    | none => .error .useAfterFree
    | some kv => deleteChain fuel (freeKv ht p kv) kv.next

/-- `hash_table_delete`, up to the two calls of `free` on the table itself. -/
def hashTableDelete (ht : HashTable) : Except Halt HashTable :=
  (List.range tableSize).foldlM (fun ht i => deleteChain ht.next ht (ht.table i)) ht

inductive HashOp
  | put2 (key : CString) (value freeValue : Option Ptr)
  | rm (key : CString)
  deriving DecidableEq

def HashOp.key : HashOp → CString
  | .put2 key _ _ => key
  | .rm key => key

@[simp] theorem HashOp.key_put2 (key : CString) (value freeValue : Option Ptr) :
    (HashOp.put2 key value freeValue).key = key := rfl

@[simp] theorem HashOp.key_rm (key : CString) : (HashOp.rm key).key = key := rfl

def HashOp.apply (ht : HashTable) : HashOp → Except Halt HashTable
  | .put2 key value freeValue => hashTablePut2 ht key value freeValue
  | .rm key => hashTableRm ht key

/-- A value with the function that releases it. -/
structure Item where
  value : Option Ptr
  freeValue : Option Ptr
  deriving DecidableEq

def HashOp.item : HashOp → Option Item
  | .put2 _ value freeValue => some ⟨value, freeValue⟩
  | .rm _ => none

@[simp] theorem HashOp.item_put2 (key : CString) (value freeValue : Option Ptr) :
    (HashOp.put2 key value freeValue).item = some ⟨value, freeValue⟩ := rfl

@[simp] theorem HashOp.item_rm (key : CString) : (HashOp.rm key).item = none := rfl

/-- What the calls leave stored under each key: the last call with the key decides. -/
def stored (ops : List HashOp) (key : CString) : Option Item :=
  (ops.reverse.find? fun op => op.key = key).bind HashOp.item

end Phpco
