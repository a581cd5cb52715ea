import Phpco.Cooperative
import Phpco.NestingLaw

/-!
# What a step does to a coroutine

A step changes the state of one coroutine at most: it starts, it is switched to or
suspended, or it finishes.  What the C stack, the contexts and the keys under which
they are to be found become is said here once for each of the ways.
-/

namespace Phpco
open Except EventTable

section

variable {κ : Type*} (key : Wait → Ptr → κ)

/-- A suspended coroutine is parked under a key made of what it waits for and its context. -/
def Event.scheduling : Event → Option (Coop.Event Ptr κ)
  | .created t _ _ _ => some (.spawn t)
  | .switched (some t) w c _ _ => some (.wake t (key w c))
  | .suspended (some t) w c => some (.park t (key w c))
  | .closed t _ _ _ => some (.finish t)
  | _ => none

def Status.phase : Status → Coop.Phase κ
  | .absent => .absent
  | .running _ => .running
  | .suspended w c => .waiting (key w c)
  | .closed => .done

theorem scheduling_returned (vs : List Zval) (log : List Event) :
    (vs.map Event.returned ++ log).filterMap (Event.scheduling key) =
      log.filterMap (Event.scheduling key) := by
  induction vs with
  | nil => rfl
  | cons v vs ih => exact ih

/-- A scheduler knows each coroutine by what happened to it last. -/
theorem phase_scheduling (log : List Event) (t : Ptr) :
    Coop.phase (log.filterMap (Event.scheduling key)) t = (status log t).phase key := by
  induction log with
  | nil => rfl
  | cons e log ih =>
    have hupdate : ∀ t' (φ : Coop.Phase κ) (σ : Status), σ.phase key = φ →
        Function.update (Coop.phase (log.filterMap (Event.scheduling key))) t' φ t =
          (Function.update (status log) t' σ t).phase key := by
      intro t' φ σ hσ
      by_cases htt : t = t'
      · simp [htt, hσ]
      · simp [htt, ih]
    cases e with
    | created t' cid retval act => exact hupdate t' _ _ rfl
    | switched task w c act result =>
      cases task with
      | none => exact ih
      | some t' => exact hupdate t' _ _ rfl
    | suspended task w c =>
      cases task with
      | none => exact ih
      | some t' => exact hupdate t' _ _ rfl
    | closed t' cid page retval => exact hupdate t' _ _ rfl
    | returned v => exact ih

end

def State.contextOf (s : State) : Wait → Option Ptr
  | .yield cid => s.cidContextMap cid
  | .io fd => s.rg.waiter fd

/-- The events of a step, but for the values that functions return. -/
def Adds (s s' : State) (es : List Event) : Prop :=
  ∃ vs : List Zval, s'.log = vs.map .returned ++ (es ++ s.log)

/-- No context is put under a key; a waiter may be lost. -/
structure KeepsKeys (s s' : State) : Prop where
  cids : s'.cidContextMap = s.cidContextMap
  waiters : ∀ fd c, s'.rg.waiter fd = some c → s.rg.waiter fd = some c

/-- The new context `c` is put under the key `w`, unless a waiter is there already. -/
structure PutsUnder (s : State) (a : Action) (t : Ptr) (w : Wait) (c : Ptr) (s' : State) : Prop where
  others : ∀ w' ≠ w, s'.contextOf w' = s.contextOf w'
  idle : (∀ fd, w = .io fd → s.rg.waiter fd = none) → s'.contextOf w = some c
  busy : ∀ c', s'.contextOf w = some c' → c' = c ∨ s.contextOf w = some c'
  cid : ∀ cid, w = .yield cid → cidOf s.log t = some cid ∧ inContextMap cid
  yields : ∀ cid, w = .yield cid → ∃ site, a = .yield site
  request : ∀ fd, w = .io fd → ∃ q addOk, ioRequest s a = some (q, addOk) ∧ q.fd = fd

/-- The coroutine of the activation `x`, if there is one, comes, stays or goes. -/
inductive LifeStep (s : State) (a : Action) (s' : State) : Prop
  | same : activations s'.stack = activations s.stack → Adds s s' [] →
      s'.scheduler.saved = s.scheduler.saved → KeepsKeys s s' → LifeStep s a s'
  | starts (x : Activation) (t : Ptr) (cid : ℤ) (retval : Ptr) :
      activations s'.stack = x :: activations s.stack → x.task = some t →
      status s.log t = .absent → Adds s s' [.created t cid retval x.id] →
      s'.scheduler.saved = s.scheduler.saved → KeepsKeys s s' → LifeStep s a s'
  | switches (x : Activation) (t : Ptr) (w : Wait) (c : Ptr) (result : Option Zval) :
      activations s'.stack = x :: activations s.stack → x.task = some t →
      status s.log t = .suspended w c → s.contextOf w = some c →
      s.scheduler.saved c = some (some t) →
      s'.log = .switched (some t) w c x.id result :: s.log →
      s'.scheduler.saved = Function.update s.scheduler.saved c none → KeepsKeys s s' →
      LifeStep s a s'
  | suspends (x : Activation) (t : Ptr) (w : Wait) (c : Ptr) :
      activations s.stack = x :: activations s'.stack → x.task = some t →
      status s.log t = .running x.id → s.next ≤ c → Adds s s' [.suspended (some t) w c] →
      s'.scheduler.saved = Function.update s.scheduler.saved c (some (some t)) →
      PutsUnder s a t w c s' → LifeStep s a s'
  | finishes (x : Activation) (t : Ptr) (cid : ℤ) (page retval : Ptr) :
      activations s.stack = x :: activations s'.stack → x.task = some t →
      status s.log t = .running x.id → Adds s s' [.closed t cid page retval] →
      s'.scheduler.saved = s.scheduler.saved → KeepsKeys s s' → LifeStep s a s'

theorem Adds.scheduling {κ : Type*} {s s' : State} {es : List Event} (h : Adds s s' es)
    (key : Wait → Ptr → κ) : s'.log.filterMap (Event.scheduling key) =
      es.filterMap (Event.scheduling key) ++ s.log.filterMap (Event.scheduling key) := by
  obtain ⟨vs, hlog⟩ := h
  rw [hlog, scheduling_returned, List.filterMap_append]

theorem Adds.status {s s' : State} {es : List Event} (h : Adds s s' es) :
    status s'.log = status (es ++ s.log) := by
  obtain ⟨vs, hlog⟩ := h
  rw [hlog, status_returned]

theorem Adds.cidOf {s s' : State} {es : List Event} (h : Adds s s' es) :
    cidOf s'.log = cidOf (es ++ s.log) := by
  obtain ⟨vs, hlog⟩ := h
  rw [hlog, cidOf_returned]

theorem Adds.ne_switched {s s' : State} {es : List Event} (h : Adds s s' es)
    (hes : ∀ t w c act result, .switched t w c act result ∉ es) (t : Option Ptr) (w : Wait)
    (c act : Ptr) (result : Option Zval) : s'.log ≠ .switched t w c act result :: s.log := by
  obtain ⟨vs, hlog⟩ := h
  rw [hlog]
  intro heq
  cases vs with
  | nil =>
    cases es with
    | nil => exact List.cons_ne_self _ _ heq.symm
    | cons e es =>
      obtain ⟨rfl, _⟩ := List.cons.inj heq
      exact hes _ _ _ _ _ List.mem_cons_self
  | cons v vs => cases heq

section

variable {s s' : State} {xs : List Activation} {w : Wait} {c t : Ptr}

theorem suspended_of_contextOf (h : Core xs s.scheduler) (hc : s.contextOf w = some c)
    (ht : s.scheduler.saved c = some (some t)) : status s.log t = .suspended w c := by
  cases w with
  | io fd =>
    obtain ⟨t', ht', hst⟩ := h.waiters fd c hc
    cases ht.symm.trans ht'
    exact hst
  | yield cid =>
    obtain ⟨t', ht', hst⟩ := yielded_of_saved h hc (by simp [ht])
    cases ht.symm.trans ht'
    exact hst

theorem contextOf_lt (h : Core xs s.scheduler) (hc : s.contextOf w = some c) : c < s.next := by
  cases w with
  | io fd =>
    obtain ⟨t, ht, _⟩ := h.waiters fd c hc
    exact h.saved_lt_next (by simp [ht])
  | yield cid =>
    have he := h.entries cid
    cases hcase : entry s.scheduler.log cid with
    | never =>
      rw [hcase] at he
      cases (show s.cidContextMap cid = none from he).symm.trans hc
    | yielded c' =>
      rw [hcase] at he
      obtain ⟨hm, t, hst⟩ := he
      cases (show s.cidContextMap cid = some c' from hm).symm.trans hc
      exact h.saved_lt_next (by simp [(h.yielded t cid c hst).1])
    | resumed c' =>
      rw [hcase] at he
      cases (show s.cidContextMap cid = some c' from he.1).symm.trans hc
      exact he.2.1

theorem KeepsKeys.contextOf (h : KeepsKeys s s') (w : Wait) (c : Ptr)
    (hc : s'.contextOf w = some c) : s.contextOf w = some c := by
  cases w with
  | io fd => exact h.waiters fd c hc
  | yield cid =>
    rw [State.contextOf, h.cids] at hc
    exact hc

theorem contextOf_eq (hmap : s'.cidContextMap = s.cidContextMap)
    (hwait : s'.rg.waiter = s.rg.waiter) (w : Wait) : s'.contextOf w = s.contextOf w := by
  cases w with
  | yield cid => exact congrFun hmap cid
  | io fd => exact congrFun hwait fd

end

theorem lifeStep_quiet {s s' : State} {a : Action} (h : Quiet s s')
    (hstack : activations s'.stack = activations s.stack) : LifeStep s a s' :=
  .same hstack h.log (by simp only [State.scheduler, h.contexts]) ⟨h.cidContextMap, h.waiter⟩

theorem lifeStep_create {s i s' : State} {a : Action} {frame : InternalCall} {slots : ℕ}
    {callback : Zval} (hs : Sched s)
    (hi : s.next ≤ i.next ∧ i.log = s.log ∧ i.stack = s.stack ∧ i.contexts = s.contexts ∧
      i.cidContextMap = s.cidContextMap)
    (hwaiters : ∀ fd c, s'.rg.waiter fd = some c → s.rg.waiter fd = some c)
    (hc : ∃ cid cids, coroutineCreateTail { newCheckPoint i with cids := cids } frame
        i.checkPoint (coroSave i) i.corog.require callback coroLimit = .ok s' ∨
      setjmp (startTask { newCheckPoint i with cids := cids } cid slots)
        (.create frame i.checkPoint (coroSave i) i.corog.require callback) = .ok s') :
    LifeStep s a s' := by
  obtain ⟨hnext, hlog, hstack, hcontexts, hmap⟩ := hi
  have hsaved : ContextCell.saver ∘ i.contexts = ContextCell.saver ∘ s.contexts := by rw [hcontexts]
  have hact : activations i.stack = activations s.stack := by rw [hstack]
  obtain ⟨cid, cids, ht | hj⟩ := hc
  · -- the new coroutine is refused
    obtain ⟨buf, tasks, _, _, rfl⟩ := coroutineCreateTail_cases (by decide) ht
    exact .same hact ⟨[.bool true], congrArg (List.cons _) hlog⟩ hsaved ⟨hmap, hwaiters⟩
  · obtain ⟨buf, _, _, rfl⟩ := setjmp_eq_ok.mp hj
    have hfresh := (hs.core.fresh _ (hnext.trans (Nat.le_succ i.next))).1
    exact .starts _ _ cid _ (congrArg (List.cons _) hact) rfl hfresh
      ⟨[], congrArg (List.cons _) hlog⟩ hsaved ⟨hmap, hwaiters⟩

theorem lifeStep_switch {s u s' : State} {a : Action} {w : Wait} {c : Ptr} {retval : Option Zval}
    {switch : Switch} (hs : Sched s) (hr : cCoroResume u c retval w switch = .ok s')
    (hc : s.contextOf w = some c) (hstack : activations u.stack = activations s.stack)
    (hcontexts : u.contexts = s.contexts) (hlog : u.log = s.log) (hkeys : KeepsKeys s u) :
    LifeStep s a s' := by
  have hu := unswitched_cCoroResume hr
  obtain ⟨ctx, current, frames, result, hctx, _, _, _, hj⟩ := cCoroResume_cases hr
  rw [hcontexts] at hctx
  have hsaved : s.scheduler.saved c = some ctx.task := saver_eq_some.mpr ⟨ctx, hctx, rfl⟩
  obtain ⟨t, _, htask, _⟩ := hs.core.saved c _ hsaved
  rw [htask] at hsaved
  obtain ⟨buf, hbuf, hsch, hstack', _, _, _, _, hlog'⟩ := setjmp_cases hj
  rw [scheduler_resumed] at hsch
  refine .switches ⟨u.next, ctx.task, buf, switch⟩ t w c result ?_ htask
    (suspended_of_contextOf hs.core hc hsaved) hc hsaved ?_ ?_ ⟨?_, ?_⟩
  · rw [hstack', ← hstack]
    rfl
  · rw [hlog', ← htask, ← hlog]
    rfl
  · rw [hsch]
    simp only [State.scheduler, hcontexts]
  · rw [hu.cidContextMap, hkeys.cids]
  · rw [hu.rg]
    exact hkeys.waiters

structure Back (s s' : State) : Prop where
  saved : s'.scheduler.saved = s.scheduler.saved
  stack : s'.stack = s.stack
  keys : ∀ w, s'.contextOf w = s.contextOf w
  log : ∃ vs : List Zval, s'.log = vs.map .returned ++ s.log

theorem back_returnFrom {s s' : State} {switch : Switch} {ret : ℤ} (hret : 0 ≤ ret)
    (hctx : ∀ c, switch.context = some c → s.scheduler.saved c = none)
    (h : returnFrom s switch ret = .ok s') : Back s s' := by
  obtain ⟨hu, hstack, _⟩ := unswitched_returnFrom hret h
  refine ⟨?_, hstack, contextOf_eq hu.cidContextMap (by rw [hu.rg]),
    returned_of_log (log_returnFrom hret h)⟩
  cases switch with
  | create frame prevCheckpoint ctx required callback =>
    obtain ⟨buf, tasks, _, _, rfl⟩ := coroutineCreateTail_cases hret h
    rfl
  | resume frame prevCheckpoint context ctx required =>
    obtain ⟨buf, _, rfl⟩ := coroutineResumeTail_cases h
    exact saver_free (hctx context rfl)
  | invoke fd event context =>
    obtain ⟨_, rfl⟩ := aioInvokeTail_cases h
    exact saver_free (hctx context rfl)

/-- A call has saved the current coroutine in the new context `c`, and calls `coro_yield`. -/
structure Suspends (s : State) (w : Wait) (c : Ptr) (s₁ : State) : Prop where
  stack : s₁.stack = s.stack
  checkPoint : s₁.checkPoint = s.checkPoint
  jmpBufs : s₁.jmpBufs = s.jmpBufs
  corog : s₁.corog = s.corog
  fresh : s.next ≤ c
  saved : s₁.scheduler.saved = Function.update s.scheduler.saved c (some s.corog.currentCoro)
  log : s₁.log = .suspended s.corog.currentCoro w c :: s.log

theorem suspends_coroYield {s s₁ s' : State} {w : Wait} {c : Ptr} (hs : Sched s) (hphp : phpRuns s)
    (h : Suspends s w c s₁) (hc : coroYield s₁ = .ok s') :
    ∃ x t, s.stack = .activation x :: s'.stack ∧ x.task = some t ∧ s.corog.currentCoro = some t ∧
      status s.log t = .running x.id ∧ Adds s s' [.suspended (some t) w c] ∧
      s'.scheduler.saved = Function.update s.scheduler.saved c (some (some t)) ∧
      ∀ w', s'.contextOf w' = s₁.contextOf w' := by
  have hl := hs.links
  rw [← h.stack, ← h.checkPoint, ← h.jmpBufs, ← h.corog] at hl
  obtain ⟨x, rest, hj, hret⟩ := coroYield_eq_ok.mp hc
  obtain ⟨hstack, hcur⟩ := jump_top hl (by unfold phpRuns; rw [h.stack]; exact hphp) hj
  rw [h.stack] at hstack
  rw [h.corog] at hcur
  have hcore := hs.core
  rw [hstack] at hcore
  obtain ⟨t, htask, hrun⟩ := hcore.running x List.mem_cons_self
  -- the context that the caller frees was used up
  have hholder : ∀ c', x.switch.context = some c' → s₁.scheduler.saved c' = none := by
    intro c' hc'
    obtain ⟨hlt, hns⟩ := hcore.holders x List.mem_cons_self c' hc'
    rw [h.saved, Function.update_of_ne (hlt.trans_le h.fresh).ne]
    exact hns
  have hback := back_returnFrom (s := { s₁ with
    eg := ⟨s₁.corog.originVmStack, s₁.eg.currentExecuteData⟩
    stack := rest }) (by decide) hholder hret
  obtain ⟨vs, hlog⟩ := hback.log
  have hrest : s'.stack = rest := hback.stack
  refine ⟨x, t, ?_, htask, hcur.trans htask, hrun, ⟨vs, ?_⟩, ?_, hback.keys⟩
  · rw [hrest, hstack]
  · rw [hlog, ← htask, ← hcur]
    exact congrArg _ h.log
  · rw [hback.saved, ← htask, ← hcur]
    exact h.saved

theorem suspends_yield {s s₁ : State} {site : CallSite}
    (hy : coroutineYield (enterCall s site) = .ok s₁) : ∃ t task, s.corog.currentCoro = some t ∧
      s.tasks t = some task ∧ inContextMap task.cid ∧
      Suspends s (.yield task.cid) (enterCall s site).next s₁ ∧
      (∀ w' ≠ .yield task.cid, s₁.contextOf w' = s.contextOf w') ∧
      s₁.contextOf (.yield task.cid) = some (enterCall s site).next := by
  obtain ⟨t, task, hcur, htask, hin, rfl⟩ := coroutineYield_cases hy
  refine ⟨t, task, hcur, htask, hin, ⟨rfl, rfl, rfl, rfl, Nat.le_succ _, ?_, ?_⟩, ?_, ?_⟩
  · exact saver_update_saved
  · exact congrArg (fun τ => Event.suspended τ _ _ :: s.log) hcur.symm
  · intro w hw
    cases w with
    | io fd => rfl
    | yield cid => exact Function.update_of_ne (by rintro rfl; exact hw rfl) _ _
  · exact Function.update_self ..

/-- An I/O call puts the new context under its descriptor if nobody waits there. -/
theorem suspends_block {s s₁ : State} {a : Action} (hr : TableWf s.rg) (ha : isIo a = true)
    (hy : phpStep s a = .ok (.yields s₁)) : ∃ q addOk, ioRequest s a = some (q, addOk) ∧
      Suspends s (.io q.fd) q.context s₁ ∧
      (∀ w' ≠ .io q.fd, s₁.contextOf w' = s.contextOf w') ∧
      (s.rg.waiter q.fd = none → s₁.contextOf (.io q.fd) = some q.context) ∧
      (s.rg.waiter q.fd ≠ none → s₁.contextOf (.io q.fd) = s.contextOf (.io q.fd)) := by
  cases ioStep ha hy with
  | refused site v ho => cases ho
  | asked site r q addOk hq hsame hlt hst =>
    refine ⟨q, addOk, hq, ?_⟩
    obtain ⟨rg, ret, hstore, ⟨_, ho⟩ | ⟨hret, ho⟩⟩ := storeAndYield_cases hst
    · cases ho
    · cases ho
      refine ⟨⟨rfl, rfl, rfl, rfl, hlt.le, saver_update_saved, rfl⟩, ?_⟩
      obtain ⟨_, ⟨rfl, _⟩ | ⟨_, hw, _, _, ev, _, _, rfl⟩ | ⟨_, hw, rfl⟩⟩ :=
        aioEventStore_cases (hr.congr hsame.slots hsame.interest) hstore
      · exact absurd hret (by decide)
      · refine ⟨fun w hne => ?_, fun _ => ?_, fun hbusy => ?_⟩
        · cases w with
          | yield cid => rfl
          | io fd =>
            have hfd : fd ≠ q.fd := by
              rintro rfl
              exact hne rfl
            simp only [State.contextOf, waiter_registerSlot, if_neg hfd]
            exact hsame.waiter fd
        · simp [State.contextOf, waiter_registerSlot]
        · exact absurd ((hsame.waiter q.fd).symm.trans hw) hbusy
      · refine ⟨fun w _ => ?_, fun hidle => ?_, fun _ => hsame.waiter q.fd⟩
        · cases w with
          | yield cid => rfl
          | io fd => exact hsame.waiter fd
        · exact absurd ((hsame.waiter q.fd).trans hidle) hw

theorem lifeStep_suspends {s s₁ s' : State} {a : Action} {w : Wait} {c : Ptr} (hs : Sched s)
    (hphp : phpRuns s) (h : Suspends s w c s₁) (hc : coroYield s₁ = .ok s')
    (hput : ∀ x t xs, activations s.stack = x :: xs → x.task = some t → s.corog.currentCoro = some t →
      PutsUnder s a t w c s₁) : LifeStep s a s' := by
  obtain ⟨x, t, hstack, htask, hcur, hrun, hlog, hsaved, hkeys⟩ := suspends_coroYield hs hphp h hc
  have hact : activations s.stack = x :: activations s'.stack := congrArg activations hstack
  have hp := hput x t _ hact htask hcur
  refine .suspends x t w c hact htask hrun h.fresh hlog hsaved ?_
  refine ⟨fun w' hw => ?_, fun hidle => ?_, fun c' hc' => ?_, hp.cid, hp.yields, hp.request⟩
  · rw [hkeys, hp.others w' hw]
  · rw [hkeys, hp.idle hidle]
  · rw [hkeys] at hc'
    exact hp.busy c' hc'

theorem lifeStep_finish {s s₁ s' : State} {a : Action} {x : Activation} {stack : List CFrame}
    (hs : Sched s) (hstack : s.stack = .activation x :: stack) (hcur : s.corog.currentCoro = x.task)
    (hc : coroClose { s with eg := ⟨s.eg.vm, []⟩, stack := stack } = .ok s₁)
    (hret : returnFrom s₁ x.switch coroEnd = .ok s') : LifeStep s a s' := by
  obtain ⟨t, task, retval, hcur', _, _, hs₁⟩ := coroClose_eq_ok.mp hc
  have htask : x.task = some t := hcur.symm.trans hcur'
  have hcore := hs.core
  rw [hstack] at hcore
  have hholder : ∀ c, x.switch.context = some c → s₁.scheduler.saved c = none := by
    intro c hctx
    rw [hs₁]
    exact (hcore.holders x List.mem_cons_self c hctx).2
  have hback := back_returnFrom (by decide) hholder hret
  rw [hs₁] at hback
  have hrest : s'.stack = stack := hback.stack
  refine .finishes x t task.cid s.eg.vm.stack retval ?_ htask (hcore.status_head htask) hback.log
    hback.saved ⟨?_, fun fd c hc' => ?_⟩
  · rw [hstack, hrest]
    rfl
  · funext cid
    exact hback.keys (.yield cid)
  · rw [show s'.rg.waiter fd = s'.contextOf (.io fd) from rfl, hback.keys] at hc'
    exact hc'

theorem putsUnder_yield {s s₁ : State} {site : CallSite} (hs : Sched s) {x : Activation} {t : Ptr}
    {xs : List Activation} {task : CoroTask} (hact : activations s.stack = x :: xs)
    (hx : x.task = some t) (htask : s.tasks t = some task) (hin : inContextMap task.cid)
    (hothers : ∀ w' ≠ .yield task.cid, s₁.contextOf w' = s.contextOf w')
    (hkey : s₁.contextOf (.yield task.cid) = some (enterCall s site).next) :
    PutsUnder s (.yield site) t (.yield task.cid) (enterCall s site).next s₁ where
  others := hothers
  idle _ := hkey
  busy c' hc' := .inl (Option.some.inj (hc'.symm.trans hkey))
  cid := by
    rintro cid ⟨⟩
    have hcore := hs.core
    rw [hact] at hcore
    exact ⟨hs.cidOf_eq hcore hx htask, hin⟩
  yields := fun _ _ => ⟨site, rfl⟩
  request := by rintro fd ⟨⟩

theorem putsUnder_block {s s₁ : State} {a : Action} {q : StoreArgs} {addOk : Bool} {t : Ptr}
    (hq : ioRequest s a = some (q, addOk))
    (hothers : ∀ w' ≠ .io q.fd, s₁.contextOf w' = s.contextOf w')
    (hidle : s.rg.waiter q.fd = none → s₁.contextOf (.io q.fd) = some q.context)
    (hbusy : s.rg.waiter q.fd ≠ none → s₁.contextOf (.io q.fd) = s.contextOf (.io q.fd)) :
    PutsUnder s a t (.io q.fd) q.context s₁ where
  others := hothers
  idle h := hidle (h q.fd rfl)
  busy c' hc' := by
    by_cases hw : s.rg.waiter q.fd = none
    · exact .inl (Option.some.inj (hc'.symm.trans (hidle hw)))
    · exact .inr ((hbusy hw).symm.trans hc')
  cid := by rintro cid ⟨⟩
  yields := by rintro cid ⟨⟩
  request := by
    rintro fd ⟨⟩
    exact ⟨q, addOk, hq, rfl⟩

theorem lifeStep {s s' : State} {a : Action} (hr : TableWf s.rg) (hs : Sched s)
    (hok : FinishesOwn s a) (hstep : step s a = .ok s') : LifeStep s a s' := by
  cases step_move hr hstep with
  | quiet hq hstack _ => exact lifeStep_quiet hq (by rw [hstack])
  | enterLoop site _ _ hq hstack => exact lifeStep_quiet hq (by rw [hstack]; rfl)
  | loop l l' stack hq hstack hstack' _ _ =>
    exact lifeStep_quiet hq (by rw [hstack, hstack']; rfl)
  | leaveLoop l stack hq hstack hstack' _ => exact lifeStep_quiet hq (by rw [hstack, hstack']; rfl)
  | invoke l l' stack fd ev c v hstack _ _ hev hc hres =>
    refine lifeStep_switch hs hres (waiter_eq_some.mpr ⟨ev, hev, hc⟩) (by rw [hstack]; rfl) rfl rfl
      ⟨rfl, fun fd' c' hc' => ?_⟩
    simp only [waiter_invokeTable] at hc'
    split_ifs at hc'
    exact hc'
  | create site slots callback ha hphp hc =>
    have hi : ∃ cid cids, coroutineCreateTail { newCheckPoint (ensureInit (enterCall s site)) with
          cids := cids } (callFrame s site) (ensureInit (enterCall s site)).checkPoint
          (coroSave (ensureInit (enterCall s site)))
          (ensureInit (enterCall s site)).corog.require callback coroLimit = .ok s' ∨
        setjmp (startTask { newCheckPoint (ensureInit (enterCall s site)) with cids := cids } cid
          slots) (.create (callFrame s site) (ensureInit (enterCall s site)).checkPoint
          (coroSave (ensureInit (enterCall s site)))
          (ensureInit (enterCall s site)).corog.require callback) = .ok s' := by
      obtain ⟨cid, cids, _, ⟨_, _, ht⟩ | ⟨_, hj⟩⟩ := coroutineCreate_cases hc
      · exact ⟨cid, cids, .inl ht⟩
      · exact ⟨cid, cids, .inr hj⟩
    refine lifeStep_create hs ?_ (fun fd c hc' => ?_) hi
    · exact ⟨(Nat.le_succ _).trans (le_next_ensureInit (enterCall s site)), ensureInit_log _,
        ensureInit_stack _, ensureInit_contexts _, ensureInit_cidContextMap _⟩
    · rw [(rg_coroutineCreate hc).1] at hc'
      rcases ensureInit_cases (enterCall s site) with ⟨_, he⟩ | ⟨_, he⟩
      · rw [he] at hc'
        exact hc'
      · rw [he] at hc'
        cases hc'
  | resume site arg c _ _ _ hm hres =>
    exact lifeStep_switch hs hres (w := .yield (toInt arg)) hm rfl rfl rfl ⟨rfl, fun _ _ => id⟩
  | yield site s₁ ha hphp hy hc =>
    subst ha
    obtain ⟨t, task, hcur, htask, hin, hsus, hothers, hkey⟩ := suspends_yield hy
    refine lifeStep_suspends hs hphp hsus hc fun x t' xs hact hx hcur' => ?_
    cases hcur.symm.trans hcur'
    exact putsUnder_yield hs hact hx htask hin hothers hkey
  | block fd c s₁ ha hphp ho _ hc =>
    obtain ⟨q, addOk, hq, hsus, hothers, hidle, hbusy⟩ := suspends_block hr ha ho
    exact lifeStep_suspends hs hphp hsus hc fun x t xs _ _ _ =>
      putsUnder_block hq hothers hidle hbusy
  | finish x stack base s₁ ha hstack hex hc hret =>
    obtain ⟨hcur, _⟩ := hok ha x stack base hstack hex
    exact lifeStep_finish hs hstack hcur hc hret

end Phpco
