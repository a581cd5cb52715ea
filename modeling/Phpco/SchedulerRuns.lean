import Phpco.Bounds

namespace Phpco
open EventTable

def ContextCell.saver : ContextCell → Option (Option Ptr)
  | .saved ctx => some ctx.task
  | _ => none

def State.scheduler (s : State) : Scheduler where
  next := s.next
  saved := ContextCell.saver ∘ s.contexts
  cidOf := cidOf s.log
  contextMap := s.cidContextMap
  held := s.cids.held
  waiter := s.rg.waiter
  log := s.log

def TasksKept (log : List Event) (tasks : Ptr → Option CoroTask) : Prop :=
  ∀ t cid, cidOf log t = some cid → (tasks t).map CoroTask.cid = some cid

structure Sched (s : State) : Prop where
  core : Core (activations s.stack) s.scheduler
  tasks : TasksKept s.log s.tasks
  links : Links (activations s.stack) s.checkPoint s.jmpBufs s.corog.currentCoro

/-- A coroutine that finishes is the current one, and not on the page of another one. -/
def FinishesOwn (s : State) (a : Action) : Prop :=
  a = .finish → ∀ x stack base, s.stack = .activation x :: stack →
    s.eg.currentExecuteData = [base] → s.corog.currentCoro = x.task ∧
      (x.task = some s.eg.vm.stack ∨ s.tasks s.eg.vm.stack = none)

theorem saver_eq_some {cell : ContextCell} {τ : Option Ptr} :
    cell.saver = some τ ↔ ∃ ctx, cell = .saved ctx ∧ ctx.task = τ := by
  cases cell <;> simp [ContextCell.saver]

theorem TasksKept.congr {log log' : List Event} {f g : Ptr → Option CoroTask}
    (h : TasksKept log f) (hlog : cidOf log' = cidOf log) (hsame : SameTasks g f) :
    TasksKept log' g := by
  intro t cid ht
  rw [hlog] at ht
  exact (hsame t).trans (h t cid ht)

theorem sched_initial {s : State} (h : Initial s) : Sched s := by
  obtain ⟨maxCoroNum, _, stackSize, _, rfl⟩ := h
  refine ⟨?_, fun t cid ht => by simp [initial, cidOf] at ht, ⟨trivial, .nil, trivial⟩⟩
  constructor
  case descending => exact .nil
  case entries => exact fun cid => rfl
  case switchedOnce => exact fun c => Nat.zero_le _
  all_goals simp [State.scheduler, initial, status, ContextCell.saver, activations, waiter,
    EventTable.initial, switches, cidOf]

theorem Sched.quiet {s s' : State} (h : Sched s) (hq : Quiet s s')
    (hstack : activations s'.stack = activations s.stack) : Sched s' where
  core := by
    rw [hstack]
    refine h.core.mono hq.next ?_ ?_ hq.cidContextMap (fun n => ?_) hq.waiter hq.log
    · simp [State.scheduler, hq.contexts]
    · obtain ⟨vs, hlog⟩ := hq.log
      simp only [State.scheduler, hlog, cidOf_returned]
    · simp [State.scheduler, hq.cids]
  tasks := by
    obtain ⟨vs, hlog⟩ := hq.log
    rw [hq.tasks]
    exact h.tasks.congr (by rw [hlog, cidOf_returned]) (.refl _)
  links := by
    rw [hstack, hq.checkPoint, hq.jmpBufs, hq.corog]
    exact h.links

theorem Sched.enterCall {s : State} (h : Sched s) (site : CallSite) : Sched (enterCall s site) :=
  h.quiet (quiet_enterCall s site) rfl

theorem Sched.activations_eq_nil {s : State} (h : Sched s) (hcp : s.checkPoint = none) :
    activations s.stack = [] :=
  h.links.activations_eq_nil hcp

theorem Sched.ensureInit {s : State} (h : Sched s) : Sched (ensureInit s) := by
  by_cases hcp : s.checkPoint = none
  · have hnil := h.activations_eq_nil hcp
    have he : Phpco.ensureInit s = coroInit s := if_pos hcp
    rw [he]
    refine ⟨h.core.mono (Nat.le_add_right _ 2) rfl rfl rfl (fun n => id) ?_ ⟨[], rfl⟩, h.tasks, ?_⟩
    · intro fd c hc
      simp [State.scheduler, coroInit, waiter] at hc
    · have hact : activations (coroInit s).stack = [] := hnil
      rw [hact]
      exact ⟨trivial, .nil, trivial⟩
  · have he : Phpco.ensureInit s = s := if_neg hcp
    rw [he]
    exact h

theorem Sched.buf_lt {s : State} (h : Sched s) {x : Activation} (hx : x ∈ activations s.stack) :
    x.buf < s.next := (h.core.ids x hx).2

/-- `coro_yield` jumps to the innermost activation, the one of the current coroutine. -/
theorem jump_top {s : State} {x : Activation} {stack : List CFrame}
    (h : Links (activations s.stack) s.checkPoint s.jmpBufs s.corog.currentCoro)
    (hphp : phpRuns s) (hj : jumpTarget s = .ok (x, stack)) :
    s.stack = .activation x :: stack ∧ s.corog.currentCoro = x.task := by
  obtain ⟨buf, act, hcp, hset, hu⟩ := jumpTarget_eq_ok.mp hj
  cases hs : s.stack with
  | nil => simp [hs, unwind] at hu
  | cons f rest =>
    cases f with
    | eventLoop l => exact absurd hs (hphp l rest)
    | activation y =>
      rw [hs] at h hu
      have hy : y.buf = buf := Option.some.inj (h.bufs.1.symm.trans hcp)
      have hmem := unwind_eq_some hu
      obtain ⟨hact, hcur⟩ := h.jump (hy ▸ hset) ⟨x, hmem⟩
      simp only [unwind, if_pos hact.symm, Option.some.injEq, Prod.mk.injEq] at hu
      obtain ⟨rfl, rfl⟩ := hu
      exact ⟨rfl, hcur⟩

theorem saver_free {f : Ptr → ContextCell} {c : Ptr} (h : (f c).saver = none) :
    ContextCell.saver ∘ Function.update f c .free = ContextCell.saver ∘ f := by
  rw [Function.comp_update]
  exact Function.update_eq_self_iff.mpr h.symm

theorem sched_returnFrom {s s' : State} {x : Activation} {cur : Option Ptr} {ret : ℤ}
    (hret : 0 ≤ ret) (hcore : Core (activations s.stack) s.scheduler)
    (htasks : TasksKept s.log s.tasks)
    (hlinks : Links (x :: activations s.stack) s.checkPoint s.jmpBufs cur)
    (hctx : ∀ c, x.switch.context = some c → s.scheduler.saved c = none)
    (h : returnFrom s x.switch ret = .ok s') : Sched s' ∧ s'.stack = s.stack := by
  have hcp := hlinks.bufs.1
  cases hsw : x.switch with
  | create frame prevCheckpoint ctx required callback =>
    rw [hsw] at h
    obtain ⟨buf, tasks, _, hsame, rfl⟩ := coroutineCreateTail_cases hret h
    refine ⟨⟨hcore.mono le_rfl rfl rfl rfl (fun n => id) (fun _ _ => id) ⟨[.bool true], rfl⟩,
      htasks.congr rfl hsame, ?_⟩, rfl⟩
    · have hp := hlinks.pop buf (show x.switch.ctx = some ctx by rw [hsw]; rfl)
      rw [show x.outerCheckPoint = prevCheckpoint by rw [Activation.outerCheckPoint, hsw]] at hp
      exact hp
  | resume frame prevCheckpoint context ctx required =>
    rw [hsw] at h
    obtain ⟨buf, _, rfl⟩ := coroutineResumeTail_cases h
    refine ⟨⟨hcore.mono le_rfl ?_ rfl rfl (fun n => id) (fun _ _ => id) ⟨[.bool true], rfl⟩,
      htasks, ?_⟩, rfl⟩
    · exact saver_free (hctx context (by rw [hsw]; rfl))
    · have hp := hlinks.pop buf (show x.switch.ctx = some ctx by rw [hsw]; rfl)
      rw [show x.outerCheckPoint = prevCheckpoint by rw [Activation.outerCheckPoint, hsw]] at hp
      exact hp
  | invoke fd event context =>
    rw [hsw] at h
    obtain ⟨_, rfl⟩ := aioInvokeTail_cases h
    refine ⟨⟨hcore.mono le_rfl ?_ rfl rfl (fun n => id) (fun _ _ => id) ⟨[], rfl⟩, htasks, ?_⟩, rfl⟩
    · exact saver_free (hctx context (by rw [hsw]; rfl))
    · have hp := hlinks.pop_invoke (by rw [hsw]; rfl) s.corog.currentCoro
      rw [show x.outerCheckPoint = some x.buf by rw [Activation.outerCheckPoint, hsw], ← hcp] at hp
      exact hp

/-- The cid of a new coroutine is one that `alloc_cidmap` took, or -1. -/
theorem alloc_cid {s : State} {cid : ℤ} {cids : CidAllocator} {xs : List Activation}
    (h : Core xs s.scheduler) (ha : allocCidmap s.cids = some (cid, cids)) :
    (cid = -1 ∨ ∃ n : ℕ, n < 0x8000 ∧ cid = n + 1 ∧ cids.held n = true) ∧
      (cid ≠ -1 → ∀ t, s.scheduler.cidOf t ≠ some cid) ∧
      ∀ n, s.cids.held n = true → cids.held n = true := by
  rcases allocCidmap_cases ha with ⟨rfl, hheld⟩ | ⟨n, hn, rfl, hfree, _, hheld, _⟩
  · exact ⟨.inl rfl, fun hne => absurd rfl hne, fun n hh => by rwa [hheld]⟩
  · refine ⟨.inr ⟨n, hn, rfl, by rw [hheld, if_pos rfl]⟩, fun _ t ht => ?_, fun k hk => ?_⟩
    · rcases h.cidHeld t _ ht with hm | ⟨m, _, hm, hheldm⟩
      · omega
      · have hmn : m = n := by omega
        rw [hmn] at hheldm
        simp [State.scheduler, hfree] at hheldm
    · rw [hheld]
      split_ifs
      · rfl
      · exact hk

theorem Core.newCheckPoint {s : State} {xs : List Activation} (h : Core xs s.scheduler)
    (cids : CidAllocator) (hheld : ∀ n, s.cids.held n = true → cids.held n = true) :
    Core xs { newCheckPoint s with cids := cids }.scheduler :=
  h.mono (Nat.le_succ _) rfl rfl rfl hheld (fun _ _ => id) ⟨[], rfl⟩

theorem setjmp_cases {s s' : State} {switch : Switch} (h : setjmp s switch = .ok s') :
    ∃ buf, s.checkPoint = some buf ∧ s'.scheduler = { s.scheduler with next := s.next + 1 } ∧
      s'.stack = .activation ⟨s.next, s.corog.currentCoro, buf, switch⟩ :: s.stack ∧
      s'.checkPoint = some buf ∧ s'.jmpBufs = Function.update s.jmpBufs buf (.set s.next) ∧
      s'.corog = s.corog ∧ (s'.tasks = s.tasks ∧ s'.log = s.log) := by
  obtain ⟨buf, hbuf, _, rfl⟩ := setjmp_eq_ok.mp h
  exact ⟨buf, hbuf, rfl, rfl, hbuf, rfl, rfl, rfl, rfl⟩

theorem scheduler_startTask (s : State) (cid : ℤ) (slots : ℕ) :
    (startTask s cid slots).scheduler = { s.scheduler with
      next := s.next + 3
      cidOf := Function.update s.scheduler.cidOf s.next (some cid)
      log := .created s.next cid (s.next + 1) (s.next + 3) :: s.log } := by
  simp [State.scheduler, startTask]

theorem scheduler_resumed (s : State) (c : Ptr) (ctx : PhpContext) (current : ExecuteData)
    (frames : List ExecuteData) (w : Wait) (result : Option Zval) :
    (resumed s c ctx current frames w result).scheduler = { s.scheduler with
      saved := Function.update s.scheduler.saved c none
      log := .switched ctx.task w c s.next result :: s.log } := by
  simp [State.scheduler, resumed, Function.comp_update, ContextCell.saver]

theorem sched_newTask {s s' : State} {frame : InternalCall} {slots : ℕ} {callback : Zval}
    {cid : ℤ} {cids : CidAllocator} (h : Sched s)
    (ha : allocCidmap s.cids = some (cid, cids))
    (hj : setjmp (startTask { newCheckPoint s with cids := cids } cid slots)
      (.create frame s.checkPoint (coroSave s) s.corog.require callback) = .ok s') : Sched s' := by
  obtain ⟨hcid, hnew, hheld⟩ := alloc_cid h.core ha
  obtain ⟨buf, hbuf, hsch, hstack, hcp, hjb, hcorog, htasks, hlog⟩ := setjmp_cases hj
  obtain rfl : s.next = buf := Option.some.inj hbuf
  have hcore := h.core.newCheckPoint cids hheld
  have hlt : ∀ x ∈ activations s.stack, x.id < s.next ∧ x.buf < s.next := h.core.ids
  refine ⟨?_, ?_, ?_⟩
  · rw [hstack, hsch, scheduler_startTask]
    refine hcore.start (n := s.next + 5) le_rfl (Nat.le_add_right _ 3)
      ⟨Nat.le_add_right _ 4, ?_, Nat.lt_succ_self _, ?_⟩ rfl rfl hcid hnew
    · exact Nat.lt_add_of_pos_right (n := s.next + 1) (k := 4) (by decide)
    · exact Nat.lt_add_of_pos_right (n := s.next) (k := 5) (by decide)
  · rw [hlog, htasks]
    intro t cid' ht
    by_cases hts : t = s.next + 1
    · simpa [startTask, newCheckPoint, cidOf, hts] using ht
    · have ht' : cidOf s.log t = some cid' := by
        simpa [startTask, newCheckPoint, cidOf, hts] using ht
      simpa [startTask, newCheckPoint, hts] using h.tasks t cid' ht'
  · rw [hstack, hcp, hjb, hcorog]
    refine h.links.push (show _ = some (coroSave s) from rfl) rfl rfl (fun x hx => ?_)
      (Function.update_self ..) fun b hb => ?_
    · exact ⟨(hlt x hx).2.ne, ((hlt x hx).1.trans_le (Nat.le_add_right _ 4)).ne⟩
    · simp [startTask, newCheckPoint, hb]

theorem Sched.create {s s' : State} {frame : InternalCall} {slots : ℕ} {callback : Zval}
    (h : Sched s) (hc : coroutineCreate s frame slots callback = .ok s') : Sched s' := by
  have hi := h.ensureInit
  obtain ⟨cid, cids, ha, ⟨_, _, ht⟩ | ⟨_, hj⟩⟩ := coroutineCreate_cases hc
  · obtain ⟨_, _, hheld⟩ := alloc_cid hi.core ha
    obtain ⟨buf, tasks, hbuf, hsame, rfl⟩ := coroutineCreateTail_cases (by decide) ht
    obtain rfl : (Phpco.ensureInit s).next = buf := Option.some.inj hbuf
    refine ⟨(hi.core.newCheckPoint cids hheld).mono le_rfl rfl rfl rfl (fun _ => id)
      (fun _ _ => id) ⟨[.bool true], rfl⟩, hi.tasks.congr rfl hsame, hi.links.congr fun x hx => ?_⟩
    have hne : x.buf ≠ (Phpco.ensureInit s).next := (hi.buf_lt hx).ne
    simp [backInCaller, newCheckPoint, hne]
  · exact sched_newTask hi ha hj

/-- A context that `cid_context_map` holds and that is saved belongs to a
coroutine that yielded under this cid. -/
theorem yielded_of_saved {s : State} {xs : List Activation} (h : Core xs s.scheduler) {cid : ℤ}
    {c : Ptr} (hm : s.cidContextMap cid = some c) (hs : s.scheduler.saved c ≠ none) :
    ∃ t, s.scheduler.saved c = some (some t) ∧ status s.log t = .suspended (.yield cid) c := by
  have he := h.entries cid
  cases hcase : entry s.scheduler.log cid with
  | never =>
    rw [hcase] at he
    simp [show s.cidContextMap cid = none from he] at hm
  | yielded c' =>
    rw [hcase] at he
    obtain ⟨hm', t, ht⟩ := he
    obtain rfl : c' = c := Option.some.inj (hm'.symm.trans hm)
    exact ⟨t, (h.yielded t cid c' ht).1, ht⟩
  | resumed c' =>
    rw [hcase] at he
    obtain rfl : c' = c := Option.some.inj (he.1.symm.trans hm)
    exact absurd he.2.2 hs

theorem Sched.resume {s s' : State} {frame : InternalCall} {cid : ℤ} {c : Ptr} {retval : Option Zval}
    {required : Bool} (h : Sched s) (hm : s.cidContextMap cid = some c)
    (hr : cCoroResume (newCheckPoint s) c retval (.yield cid)
      (.resume frame s.checkPoint c (coroSave s) required) = .ok s') : Sched s' := by
  obtain ⟨ctx, current, frames, result, hctx, _, _, _, hj⟩ := cCoroResume_cases hr
  obtain ⟨buf, hbuf, hsch, hstack, hcp, hjb, hcorog, htasks, hlog⟩ := setjmp_cases hj
  obtain rfl : s.next = buf := Option.some.inj hbuf
  have hsaved : s.scheduler.saved c = some ctx.task := saver_eq_some.mpr ⟨ctx, hctx, rfl⟩
  obtain ⟨t, ht, hst⟩ := yielded_of_saved h.core hm (by simp [hsaved])
  have htask : ctx.task = some t := Option.some.inj (hsaved.symm.trans ht)
  have hcore := h.core.newCheckPoint s.cids fun _ => id
  have hlt : ∀ x ∈ activations s.stack, x.id < s.next ∧ x.buf < s.next := h.core.ids
  refine ⟨?_, by rw [hlog, htasks]; exact h.tasks, ?_⟩
  · rw [hstack, hsch, scheduler_resumed, htask]
    refine hcore.switch (n := s.next + 2) ht hst (fun fd hfd => ?_) le_rfl
      ⟨Nat.le_succ _, Nat.lt_succ_self _, ?_⟩ htask fun c' hc' => (Option.some.inj hc').symm
    · obtain ⟨t', ht', hst'⟩ := h.core.waiters fd c hfd
      cases ht.symm.trans ht'
      simp [State.scheduler, hst] at hst'
    · exact Nat.lt_add_of_pos_right (n := s.next) (k := 2) (by decide)
  · rw [hstack, hcp, hjb, hcorog]
    refine h.links.push (show _ = some (coroSave s) from rfl) rfl rfl (fun x hx => ?_)
      (Function.update_self ..) fun b hb => ?_
    · exact ⟨(hlt x hx).2.ne, ((hlt x hx).1.trans_le (Nat.le_add_right _ 1)).ne⟩
    · simp [resumed, newCheckPoint, hb]

theorem Sched.invoke {s s' : State} {l l' : EventLoop} {stack : List CFrame} {fd : ℤ} {ev : AioEvent}
    {c : Ptr} {retval : Option Zval} (h : Sched s) (hb : Bounded s)
    (hs : s.stack = .eventLoop l :: stack)
    (hev : s.rg.aioEventFds fd = some ev) (hc : ev.phpContext = some c)
    (hr : cCoroResume { s with rg := invokeTable s.rg fd, stack := .eventLoop l' :: stack } c retval
      (.io fd) (.invoke fd ev.addr c) = .ok s') : Sched s' := by
  obtain ⟨ctx, current, frames, result, hctx, _, _, _, hj⟩ := cCoroResume_cases hr
  obtain ⟨buf, hbuf, hsch, hstack, hcp, hjb, hcorog, htasks, hlog⟩ := setjmp_cases hj
  have hact : activations s.stack = activations stack := by rw [hs]; rfl
  obtain ⟨t, ht, hst⟩ := h.core.waiters fd c (waiter_eq_some.mpr ⟨ev, hev, hc⟩)
  have hsaved : s.scheduler.saved c = some ctx.task := saver_eq_some.mpr ⟨ctx, hctx, rfl⟩
  have htask : ctx.task = some t := Option.some.inj (hsaved.symm.trans ht)
  have hcore : Core (activations stack)
      { s with rg := invokeTable s.rg fd, stack := .eventLoop l' :: stack }.scheduler := by
    rw [← hact]
    refine h.core.mono le_rfl rfl rfl rfl (fun _ => id) (fun fd' c' hc' => ?_) ⟨[], rfl⟩
    simp only [State.scheduler, waiter_invokeTable] at hc'
    split_ifs at hc'
    exact hc'
  have hlt : ∀ x ∈ activations stack, x.id < s.next ∧ x.buf < s.next := hact ▸ h.core.ids
  refine ⟨?_, by rw [hlog, htasks]; exact h.tasks, ?_⟩
  · rw [hstack, hsch, scheduler_resumed, htask]
    refine hcore.switch (n := s.next + 1) ht hst (fun fd' hfd => ?_) le_rfl
      ⟨Nat.le_succ _, Nat.lt_succ_self _, (hb.checkPoint buf hbuf).trans (Nat.lt_succ_self _)⟩ htask
      fun c' hc' => (Option.some.inj hc').symm
    simp only [State.scheduler, waiter_invokeTable] at hfd
    split_ifs at hfd with hne
    obtain ⟨t', ht', hst'⟩ := h.core.waiters fd' c hfd
    cases ht.symm.trans ht'
    rw [hst] at hst'
    cases hst'
    exact hne rfl
  · rw [hstack, hcp, hjb, hcorog]
    have hl := h.links
    rw [hact] at hl
    exact hl.push_invoke (y := ⟨s.next, ctx.task, buf, .invoke fd ev.addr c⟩) hbuf rfl
      fun x hx => (hlt x hx).1.ne

/-- `coro_yield` returns to the caller of the innermost activation, whose coroutine
was suspended before. -/
theorem sched_coroYield {s s' : State}
    (hl : Links (activations s.stack) s.checkPoint s.jmpBufs s.corog.currentCoro)
    (htasks : TasksKept s.log s.tasks) (hphp : phpRuns s)
    (hcore : ∀ x xs, activations s.stack = x :: xs → s.corog.currentCoro = x.task →
      Core xs s.scheduler ∧ ∀ c, x.switch.context = some c → s.scheduler.saved c = none)
    (hy : coroYield s = .ok s') :
    Sched s' ∧ ∃ x, s.stack = .activation x :: s'.stack ∧ s.corog.currentCoro = x.task := by
  obtain ⟨x, stack, hj, hret⟩ := coroYield_eq_ok.mp hy
  obtain ⟨hs, hcur⟩ := jump_top hl hphp hj
  obtain ⟨hc, hctx⟩ := hcore x (activations stack) (by rw [hs]; rfl) hcur
  rw [hs] at hl
  obtain ⟨hsched, hstack⟩ := sched_returnFrom (s := { s with
    eg := ⟨s.corog.originVmStack, s.eg.currentExecuteData⟩
    stack := stack }) (by decide) hc htasks hl hctx hret
  exact ⟨hsched, x, by rw [hstack]; exact hs, hcur⟩

theorem saver_update_saved {f : Ptr → ContextCell} {c : Ptr} {ctx : PhpContext} :
    ContextCell.saver ∘ Function.update f c (.saved ctx) =
      Function.update (ContextCell.saver ∘ f) c (some ctx.task) := by
  rw [Function.comp_update]
  rfl

theorem Core.suspended {s : State} {x : Activation} {xs : List Activation} {t c n : Ptr} {w : Wait}
    {v : Scheduler} (h : Core (x :: xs) s.scheduler) (contextMap waiter : ℤ → Option Ptr)
    (htask : x.task = some t) (hc : s.next ≤ c) (hn : c < n)
    (hcid : ∀ cid, w = .yield cid → s.scheduler.cidOf t = some cid ∧ cid ≠ -1)
    (hmap : ∀ cid, contextMap cid = if w = .yield cid then some c else s.cidContextMap cid)
    (hwait : ∀ fd c', waiter fd = some c' → w = .io fd ∧ c' = c ∨ s.rg.waiter fd = some c')
    (hv : v = { s.scheduler with
      next := n
      saved := Function.update s.scheduler.saved c (some (some t))
      contextMap := contextMap
      waiter := waiter
      log := .suspended (some t) w c :: s.log }) :
    Core xs v ∧ ∀ c', x.switch.context = some c' → v.saved c' = none := by
  subst hv
  refine ⟨h.suspend htask hc hn hcid hmap hwait, fun c' hc' => ?_⟩
  obtain ⟨hlt, hns⟩ := h.holders x List.mem_cons_self c' hc'
  have hne : c' ≠ c := (lt_of_lt_of_le hlt hc).ne
  simpa [hne] using hns

theorem Sched.cidOf_eq {s : State} {x : Activation} {xs : List Activation} {t : Ptr}
    {task : CoroTask} (h : Sched s) (hcore : Core (x :: xs) s.scheduler) (hx : x.task = some t)
    (htask : s.tasks t = some task) : cidOf s.log t = some task.cid := by
  have hrun := hcore.status_head hx
  cases hcid : cidOf s.log t with
  | none =>
    rcases (hcore.live t).mp hcid with ha | hcl
    · simp [hrun] at ha
    · simp [hrun] at hcl
  | some cid =>
    have ht := h.tasks t cid hcid
    rw [htask] at ht
    exact ht.symm

theorem Sched.yield {s s₁ s' : State} (h : Sched s) (hphp : phpRuns s)
    (hy : coroutineYield s = .ok s₁) (hc : coroYield s₁ = .ok s') : Sched s' := by
  obtain ⟨t, task, hcur, htask, hin, hs₁⟩ := coroutineYield_cases hy
  have hcur₁ : s₁.corog.currentCoro = some t := by rw [hs₁, hcur]
  refine (sched_coroYield (s := s₁) (by rw [hs₁]; exact h.links)
    (by rw [hs₁]; exact h.tasks) (by rw [hs₁]; exact hphp)
    (fun x xs hxs hx => ?_) hc).1
  have hcore := h.core
  rw [show activations s.stack = x :: xs by rw [← hxs, hs₁]] at hcore
  have hcid : s.scheduler.cidOf t = some task.cid := h.cidOf_eq hcore (hx.symm.trans hcur₁) htask
  refine hcore.suspended (n := s.next + 1) (w := .yield task.cid)
    (Function.update s.cidContextMap task.cid (some s.next)) s.rg.waiter
    (hx.symm.trans hcur₁) le_rfl (Nat.lt_succ_self _) ?_ ?_ (fun _ _ => .inr) ?_
  · rintro cid ⟨⟩
    refine ⟨hcid, fun hm => ?_⟩
    have h0 := hin.1
    omega
  · intro cid
    simp only [Function.update_apply, Wait.yield.injEq, eq_comm]
  · simp only [hs₁, State.scheduler, saver_update_saved, coroSave, hcur, cidOf_suspended]

theorem Sched.block {s s₁ s' : State} {fd : ℤ} {c : Ptr} (h : Sched s) (hphp : phpRuns s)
    (hb : Blocks s fd c s₁) (hc : coroYield s₁ = .ok s') : Sched s' := by
  have hphp₁ : phpRuns s₁ := by
    unfold phpRuns
    rw [hb.stack]
    exact hphp
  have hl := h.links
  rw [← hb.stack, ← hb.checkPoint, ← hb.jmpBufs, ← hb.corog] at hl
  have ht : TasksKept s₁.log s₁.tasks := by
    rw [hb.log, hb.tasks]
    exact h.tasks
  refine (sched_coroYield hl ht hphp₁ (fun x xs hxs hx => ?_) hc).1
  have hcore := h.core
  rw [← hb.stack, hxs] at hcore
  obtain ⟨t, htask, _⟩ := hcore.running x List.mem_cons_self
  have hcur : s.corog.currentCoro = some t := by rw [← hb.corog, hx, htask]
  refine hcore.suspended (n := s₁.next) (w := .io fd) s₁.cidContextMap s₁.rg.waiter
    htask hb.fresh.1 hb.fresh.2 (by rintro cid ⟨⟩) ?_ ?_ ?_
  · intro cid
    rw [if_neg (by simp), hb.cidContextMap]
  · intro fd' c' hc'
    rcases hb.waiter fd' c' hc' with ⟨rfl, rfl⟩ | hc'
    · exact .inl ⟨rfl, rfl⟩
    · exact .inr hc'
  · simp only [State.scheduler, hb.contexts, saver_update_saved, coroSave, hb.corog, hcur, hb.cids,
      hb.log, cidOf_suspended]

theorem held_freeCidmap_of_ne {a : CidAllocator} {cid : ℤ} {n : ℕ}
    (hcid : cid = -1 ∨ ∃ m : ℕ, cid = m + 1) (hne : cid ≠ n + 1) :
    (freeCidmap cid a).held n = a.held n := by
  rcases hcid with rfl | ⟨m, rfl⟩
  · exact held_freeCidmap_neg_one a n
  · rw [held_freeCidmap, if_neg (by omega)]

theorem Sched.finish {s s₁ s' : State} {x : Activation} {stack : List CFrame} (h : Sched s)
    (hs : s.stack = .activation x :: stack) (hcur : s.corog.currentCoro = x.task)
    (hpage : x.task = some s.eg.vm.stack ∨ s.tasks s.eg.vm.stack = none)
    (hc : coroClose { s with eg := ⟨s.eg.vm, []⟩, stack := stack } = .ok s₁)
    (hret : returnFrom s₁ x.switch coroEnd = .ok s') : Sched s' ∧ s'.stack = stack := by
  obtain ⟨t, task, retval, hcur', htask, _, hs₁⟩ := coroClose_eq_ok.mp hc
  have hcore := h.core
  have hlinks := h.links
  rw [hs] at hcore hlinks
  have hstack : s₁.stack = stack := by rw [hs₁]
  have hxt : x.task = some t := hcur.symm.trans hcur'
  have hcid : s.scheduler.cidOf t = some task.cid := h.cidOf_eq hcore hxt htask
  have hclose : Core (activations stack) { s.scheduler with
      cidOf := Function.update s.scheduler.cidOf t none
      held := (freeCidmap task.cid s.cids).held
      log := .closed t task.cid s.eg.vm.stack retval :: s.log } := by
    refine hcore.close hxt hcid fun n hne => held_freeCidmap_of_ne ?_ hne
    rcases hcore.cidHeld t _ hcid with hm | ⟨m, _, hm, _⟩
    · exact .inl hm
    · exact .inr ⟨m, hm⟩
  have hsch : s₁.scheduler = { s.scheduler with
      cidOf := Function.update s.scheduler.cidOf t none
      held := (freeCidmap task.cid s.cids).held
      log := .closed t task.cid s.eg.vm.stack retval :: s.log } := by
    rw [hs₁]
    rfl
  have htasks : TasksKept s₁.log s₁.tasks := by
    rw [hs₁]
    intro t' cid ht'
    simp only [cidOf_closed, Function.update_apply] at ht'
    split_ifs at ht' with htt
    have hne : t' ≠ s.eg.vm.stack := by
      rintro rfl
      rcases hpage with hpage | hpage
      · exact htt (Option.some.inj (hpage.symm.trans hxt))
      · simpa [hpage] using h.tasks _ cid ht'
    simpa [hne] using h.tasks t' cid ht'
  have hlinks₁ : Links (x :: activations s₁.stack) s₁.checkPoint s₁.jmpBufs s.corog.currentCoro := by
    rw [hs₁]
    exact hlinks
  have hret' := sched_returnFrom (by decide) (by rw [hstack, hsch]; exact hclose) htasks hlinks₁
    (fun c hctx => by rw [hsch]; exact (hcore.holders x List.mem_cons_self c hctx).2) hret
  exact hret'.imp id (·.trans hstack)

theorem sched_step {s s' : State} {a : Action} (hr : TableWf s.rg) (hb : Bounded s) (h : Sched s)
    (hok : FinishesOwn s a) (hstep : step s a = .ok s') : Sched s' := by
  cases step_move hr hstep with
  | quiet hq hs _ => exact h.quiet hq (by rw [hs])
  | enterLoop _ _ _ hq hs => exact h.quiet hq (by rw [hs]; rfl)
  | loop l l' stack hq hs hs' _ _ => exact h.quiet hq (by rw [hs, hs']; rfl)
  | leaveLoop l stack hq hs hs' _ => exact h.quiet hq (by rw [hs, hs']; rfl)
  | invoke l l' stack fd ev c v hs _ _ hev hc hres => exact h.invoke hb hs hev hc hres
  | create site slots callback _ _ hc => exact (h.enterCall site).create hc
  | resume site arg c _ _ _ hm hres => exact (h.enterCall site).resume hm hres
  | yield site s₁ _ hphp hy hc => exact (h.enterCall site).yield hphp hy hc
  | block fd c s₁ _ hphp _ hbl hc => exact h.block hphp hbl hc
  | finish x stack base s₁ ha hs hex hc hret =>
    obtain ⟨hcur, hpage⟩ := hok ha x stack base hs hex
    exact (h.finish hs hcur hpage hc hret).1

theorem sched_of_reached {ok : State → Action → Prop} (hok : ∀ s a, ok s a → FinishesOwn s a)
    {s : State} (h : Reached ok s) : Sched s :=
  h.invariant_of (fun _ => sched_initial) fun _ _ _ hreach hs hok' hstep =>
    sched_step (tableWf_of_reached hreach) (bounded_of_reached hreach) hs (hok _ _ hok') hstep

end Phpco
