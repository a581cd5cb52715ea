import Phpco.CidLaw
import Phpco.Pages

/-!
# What the functions rely on

Each function of the extension comes to its end if what it refers to is allocated
and set: the buffer of `checkPoint`, the contexts, the `coro_task`s, the events and
the elements of the timeout queue.
-/

namespace Phpco
open Except EventTable Transition

/-- The code comes to its end. -/
def Defined {α : Type} (r : Except Halt α) : Prop := ∃ x, r = .ok x

theorem defined_ok {α : Type} (x : α) : Defined (.ok x : Except Halt α) := ⟨x, rfl⟩

theorem Defined.bind {α β : Type} {x : Except Halt α} {f : α → Except Halt β} (hx : Defined x)
    (hf : ∀ a, x = .ok a → Defined (f a)) : Defined (x >>= f) := by
  obtain ⟨a, rfl⟩ := hx
  exact hf a rfl

theorem defined_deref {α : Type} {p : Option α} {e : Halt} (h : p ≠ none) : Defined (deref p e) := by
  obtain ⟨x, rfl⟩ := Option.ne_none_iff_exists'.mp h
  exact defined_ok x

theorem defined_check {p : Prop} [Decidable p] {e : Halt} (h : p) : Defined (check p e) := by
  rw [check, if_pos h]
  exact defined_ok ()

def HasBuffer (s : State) : Prop := ∃ buf, s.checkPoint = some buf ∧ s.jmpBufs buf ≠ .unallocated

theorem defined_setjmp {s : State} {switch : Switch} (h : HasBuffer s) :
    Defined (setjmp s switch) := by
  obtain ⟨buf, hbuf, halloc⟩ := h
  refine Defined.bind (defined_deref (by simp [hbuf])) fun buf' hbuf' => ?_
  cases hbuf.symm.trans (deref_eq_ok.mp hbuf')
  refine Defined.bind (defined_check halloc) fun _ _ => ?_
  exact defined_ok _

/-- The context is saved in a call whose result `retval` can be copied to. -/
def Switchable (s : State) (c : Ptr) (retval : Option Zval) : Prop :=
  ∃ ctx current frames, s.contexts c = .saved ctx ∧ ctx.executeData = current :: frames ∧
    frames ≠ [] ∧ (current.resultUsed = true → retval ≠ none)

theorem defined_cCoroResume {s : State} {c : Ptr} {retval : Option Zval} {w : Wait} {switch : Switch}
    (hb : HasBuffer s) (hc : Switchable s c retval) :
    Defined (cCoroResume s c retval w switch) := by
  obtain ⟨ctx, current, frames, hctx, hex, hne, hres⟩ := hc
  obtain ⟨caller, rest, rfl⟩ := List.exists_cons_of_ne_nil hne
  simp only [cCoroResume, hctx, hex]
  refine Defined.bind ?_ fun result _ => defined_setjmp hb
  cases hused : current.resultUsed with
  | false => exact defined_ok _
  | true =>
    obtain ⟨v, rfl⟩ := Option.ne_none_iff_exists'.mp (hres hused)
    exact defined_ok _

def CurrentAlive (s : State) : Prop := ∀ t, s.corog.currentCoro = some t → s.tasks t ≠ none

theorem defined_setFunction {s : State} (h : CurrentAlive s) (callback : Zval) :
    Defined (setFunction s callback) := by
  unfold setFunction
  cases hcur : s.corog.currentCoro with
  | none => exact defined_ok _
  | some t =>
    refine Defined.bind (defined_deref (h t hcur)) fun task _ => ?_
    exact defined_ok _

theorem defined_coroutineCreateTail {s : State} (h : CurrentAlive s) (hcp : s.checkPoint ≠ none)
    (frame : InternalCall) (prevCheckpoint : Option Ptr) (ctx : PhpContext) (required : Bool)
    (callback : Zval) (ret : ℤ) :
    Defined (coroutineCreateTail s frame prevCheckpoint ctx required callback ret) := by
  refine Defined.bind (defined_setFunction h callback) fun s₁ hs₁ => ?_
  obtain ⟨tasks, _, rfl⟩ := setFunction_cases hs₁
  refine Defined.bind (defined_deref hcp) fun buf _ => ?_
  split_ifs
  · exact defined_ok _
  · exact defined_ok _

/-- What the caller of an activation refers to when it goes on. -/
structure Returnable (s : State) (switch : Switch) : Prop where
  current : CurrentAlive s
  checkPoint : s.checkPoint ≠ none
  event : ∀ fd event c, switch = .invoke fd event c →
    ∃ ev, s.rg.aioEventFds fd = some ev ∧ ev.addr = event

theorem defined_returnFrom {s : State} {switch : Switch} (h : Returnable s switch) (ret : ℤ) :
    Defined (returnFrom s switch ret) := by
  cases switch with
  | create frame prevCheckpoint ctx required callback =>
    exact defined_coroutineCreateTail (s := { s with corog := { s.corog with require := false } })
      h.current h.checkPoint frame prevCheckpoint ctx required callback ret
  | resume frame prevCheckpoint context ctx required =>
    refine Defined.bind (defined_deref h.checkPoint) fun buf _ => ?_
    exact defined_ok _
  | invoke fd event context =>
    obtain ⟨ev, hev, haddr⟩ := h.event fd event context rfl
    refine Defined.bind (defined_deref (by simp [hev])) fun ev' hev' => ?_
    cases hev.symm.trans (deref_eq_ok.mp hev')
    refine Defined.bind (defined_check haddr) fun _ _ => ?_
    exact defined_ok _

theorem defined_coroYield {s : State} {x : Activation} {stack : List CFrame}
    (hstack : s.stack = .activation x :: stack) (hcp : s.checkPoint = some x.buf)
    (harmed : s.jmpBufs x.buf = .set x.id) (h : Returnable s x.switch) : Defined (coroYield s) := by
  have hj : jumpTarget { s with eg := ⟨s.corog.originVmStack, s.eg.currentExecuteData⟩ } =
      .ok (x, stack) := by
    refine jumpTarget_eq_ok.mpr ⟨x.buf, x.id, hcp, harmed, ?_⟩
    rw [hstack]
    exact if_pos rfl
  refine Defined.bind (by rw [hj]; exact defined_ok _) fun y hy => ?_
  cases hj.symm.trans hy
  exact defined_returnFrom (s := { s with
    eg := ⟨s.corog.originVmStack, s.eg.currentExecuteData⟩
    stack := stack }) ⟨h.current, h.checkPoint, h.event⟩ _

theorem defined_coroClose {s : State} {t : Ptr} (hcur : s.corog.currentCoro = some t)
    (htask : s.tasks t ≠ none) (hslot : s.corog.allocatedReturnValuePtr ≠ none) :
    Defined (coroClose s) := by
  refine Defined.bind (defined_deref (by simp [hcur])) fun t' ht' => ?_
  cases hcur.symm.trans (deref_eq_ok.mp ht')
  refine Defined.bind (defined_deref htask) fun task _ => ?_
  refine Defined.bind (defined_deref hslot) fun retval _ => ?_
  exact defined_ok _

theorem defined_getCurrentCid {s : State} {t : Ptr} (hcur : s.corog.currentCoro = some t)
    (htask : s.tasks t ≠ none) : Defined (getCurrentCid s) := by
  refine Defined.bind (defined_deref (by simp [hcur])) fun t' ht' => ?_
  cases hcur.symm.trans (deref_eq_ok.mp ht')
  refine Defined.bind (defined_deref htask) fun task _ => ?_
  exact defined_ok _

theorem defined_coroutineCreate {s : State} {frame : InternalCall} {slots : ℕ} {callback : Zval}
    (hcid : allocCidmap (ensureInit s).cids ≠ none)
    (hlimit : (ensureInit s).corog.coroNum < (ensureInit s).corog.maxCoroNum) :
    Defined (coroutineCreate s frame slots callback) := by
  obtain ⟨⟨cid, cids⟩, ha⟩ := Option.ne_none_iff_exists'.mp hcid
  have hnot : ¬ ((ensureInit s).corog.maxCoroNum ≤ (ensureInit s).corog.coroNum ∧ cid ≠ -1) :=
    fun h => absurd h.1 (Nat.not_le.mpr hlimit)
  rw [coroutineCreate_eq ha, if_neg hnot]
  apply defined_setjmp
  exact ⟨(ensureInit s).next, rfl, by simp [startTask, newCheckPoint]⟩

theorem defined_storeAndYield {s : State} {frame : InternalCall} {q : StoreArgs} {addOk : Bool}
    (h : inTable q.fd) : Defined (storeAndYield s frame q addOk) := by
  refine Defined.bind ?_ fun x _ => ?_
  · unfold aioEventStore
    rw [if_neg (not_not.mpr h)]
    simp only
    split_ifs
    · exact defined_ok _
    · exact defined_ok _
    · exact defined_ok _
  · simp only
    split_ifs
    · exact defined_ok _
    · exact defined_ok _

theorem defined_aioInvoke {s : State} {fd : ℤ} {answer : Zval} (hin : inTable fd)
    (hb : s.rg.waiter fd ≠ none → HasBuffer s)
    (hc : ∀ c v, s.rg.waiter fd = some c → Switchable s c (some v)) :
    Defined (aioInvoke s fd answer) := by
  refine Defined.bind (defined_check hin) fun _ _ => ?_
  cases hev : s.rg.aioEventFds fd with
  | none => exact defined_ok _
  | some ev =>
    simp only
    cases hctx : ev.phpContext with
    | none => exact defined_ok _
    | some c =>
      have hw : s.rg.waiter fd = some c := waiter_eq_some.mpr ⟨ev, hev, hctx⟩
      obtain ⟨buf, hbuf, halloc⟩ := hb (by simp [hw])
      obtain ⟨ctx, current, frames, hctx', hex, hne, hres⟩ := hc c (invokeResult ev answer) hw
      exact defined_cCoroResume ⟨buf, hbuf, halloc⟩ ⟨ctx, current, frames, hctx', hex, hne, hres⟩

end Phpco
