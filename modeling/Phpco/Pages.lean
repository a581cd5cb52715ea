import Phpco.Frames
import Phpco.SchedulerRuns

/-!
# Whose page

In a run that keeps `event_loop` to the main program, the frames of a coroutine
stand on its own vm stack page, where its `coro_task` is, or on one that has no
coroutine: a coroutine that finishes is the current one, and frees its own page.
-/

namespace Phpco
open Except

/-- `event_loop` is called by the main program only, and the calls that suspend by
coroutines only. -/
def AtHome (s : State) (a : Action) : Prop :=
  (∀ site, a = .eventLoop site → activations s.stack = []) ∧
    ∀ s₁, phpStep s a = .ok (.yields s₁) → activations s.stack ≠ []

def Switch.caller : Switch → Option ExecutorGlobals
  | .create frame _ ctx _ _ => some ⟨freeCallFrame ctx.vm frame.call, frame.caller⟩
  | .resume frame _ _ ctx _ => some ⟨freeCallFrame ctx.vm frame.call, frame.caller⟩
  | .invoke _ _ _ => none

section

variable {tasks tasks' : Ptr → Option CoroTask} {next next' : Ptr} {task : Option Ptr}
  {eg eg' : ExecutorGlobals}

/-- The outermost frame stands on the page of `task`, or on one without a coroutine. -/
structure OnPage (tasks : Ptr → Option CoroTask) (next : Ptr) (task : Option Ptr)
    (eg : ExecutorGlobals) : Prop where
  frames : eg.currentExecuteData ≠ []
  lt : basePage eg.vm eg.currentExecuteData < next
  page : task = some (basePage eg.vm eg.currentExecuteData) ∨
    tasks (basePage eg.vm eg.currentExecuteData) = none

def PagesKept (tasks tasks' : Ptr → Option CoroTask) (next : Ptr) : Prop :=
  ∀ p, p < next → tasks p = none → tasks' p = none

theorem OnPage.mono (h : OnPage tasks next task eg) (hnext : next ≤ next')
    (htasks : PagesKept tasks tasks' next) : OnPage tasks' next' task eg where
  frames := h.frames
  lt := h.lt.trans_le hnext
  page := h.page.imp id (htasks _ h.lt)

theorem OnPage.keep (h : OnPage tasks next task eg) (hk : KeepsFrames eg eg') :
    OnPage tasks next task eg' := by
  obtain ⟨hne, hbase⟩ := hk h.frames
  refine ⟨hne, ?_, ?_⟩
  · rw [hbase]
    exact h.lt
  · rw [hbase]
    exact h.page

def CallersOnPage (tasks : Ptr → Option CoroTask) (next : Ptr) : List Activation → Prop
  | [] => True
  | x :: xs => (∀ y ∈ xs.head?, ∃ eg, x.switch.caller = some eg ∧ OnPage tasks next y.task eg) ∧
    CallersOnPage tasks next xs

theorem CallersOnPage.mono {xs : List Activation} (h : CallersOnPage tasks next xs)
    (hnext : next ≤ next') (htasks : PagesKept tasks tasks' next) :
    CallersOnPage tasks' next' xs := by
  induction xs with
  | nil => trivial
  | cons x xs ih =>
    refine ⟨fun y hy => ?_, ih h.2⟩
    obtain ⟨eg, heg, hpage⟩ := h.1 y hy
    exact ⟨eg, heg, hpage.mono hnext htasks⟩

def SavedOnPage (contexts : Ptr → ContextCell) (tasks : Ptr → Option CoroTask) (next : Ptr) :
    Prop :=
  ∀ c ctx call frames, contexts c = .saved ctx → ctx.executeData = call :: frames →
    OnPage tasks next ctx.task ⟨freeCallFrame ctx.vm call, frames⟩

theorem SavedOnPage.mono {contexts contexts' : Ptr → ContextCell}
    (h : SavedOnPage contexts tasks next)
    (hcontexts : ∀ c ctx, contexts' c = .saved ctx → contexts c = .saved ctx)
    (hnext : next ≤ next') (htasks : PagesKept tasks tasks' next) :
    SavedOnPage contexts' tasks' next' :=
  fun c ctx call frames hc hex => (h c ctx call frames (hcontexts c ctx hc) hex).mono hnext htasks

end

theorem saved_of_update {contexts : Ptr → ContextCell} {c₀ : Ptr} {cell : ContextCell}
    (hcell : ∀ ctx, cell ≠ .saved ctx) (c : Ptr) (ctx : PhpContext)
    (hc : Function.update contexts c₀ cell c = .saved ctx) : contexts c = .saved ctx := by
  by_cases hcc : c = c₀
  · rw [hcc, Function.update_self] at hc
    exact absurd hc (hcell ctx)
  · rwa [Function.update_of_ne hcc] at hc

/-- Below an `event_loop` there is no activation. -/
def LoopsAtMain : List CFrame → Prop
  | [] => True
  | .eventLoop _ :: stack => activations stack = [] ∧ LoopsAtMain stack
  | .activation _ :: stack => LoopsAtMain stack

/-- What holds also between the suspension of a coroutine and the return to its caller. -/
structure Housed (s : State) : Prop where
  armed : ∀ x ∈ activations s.stack, s.jmpBufs x.buf = .set x.id
  loops : LoopsAtMain s.stack
  saved : SavedOnPage s.contexts s.tasks s.next
  callers : CallersOnPage s.tasks s.next (activations s.stack)
  fresh : ∀ p, s.next ≤ p → s.tasks p = none

structure Hosted (s : State) : Prop extends Housed s where
  running : ∀ x stack, s.stack = .activation x :: stack → OnPage s.tasks s.next x.task s.eg

/-- A coroutine that finishes in such a run is the current one, and frees no other's page. -/
theorem Hosted.finishesOwn {s : State} (h : Hosted s) (hs : Sched s) (a : Action) :
    FinishesOwn s a := by
  intro _ x stack base hstack hex
  have hlinks := hs.links
  have hpage := (h.running x stack hstack).page
  rw [hstack] at hlinks
  rw [hex] at hpage
  exact ⟨hlinks.sees.1 (h.armed x (by rw [hstack]; exact List.mem_cons_self)), hpage⟩

theorem hosted_initial {s : State} (h : Initial s) : Hosted s := by
  obtain ⟨_, _, _, _, rfl⟩ := h
  refine ⟨⟨fun x hx => ?_, trivial, fun c ctx call frames hc => ?_, trivial, fun p _ => rfl⟩,
    fun x stack hs => ?_⟩
  · cases hx
  · cases hc
  · cases hs

theorem pagesKept_refl (tasks : Ptr → Option CoroTask) (next : Ptr) : PagesKept tasks tasks next :=
  fun _ _ h => h

theorem Hosted.quiet {s s' : State} (h : Hosted s) (hq : Quiet s s')
    (hact : activations s'.stack = activations s.stack) (hloops : LoopsAtMain s'.stack)
    (hrun : ∀ x stack, s'.stack = .activation x :: stack → OnPage s.tasks s.next x.task s'.eg) :
    Hosted s' where
  armed := by
    rw [hact, hq.jmpBufs]
    exact h.armed
  loops := hloops
  saved := by
    rw [hq.contexts, hq.tasks]
    exact h.saved.mono (fun _ _ => id) hq.next (pagesKept_refl _ _)
  callers := by
    rw [hact, hq.tasks]
    exact h.callers.mono hq.next (pagesKept_refl _ _)
  fresh p hp := by
    rw [hq.tasks]
    exact h.fresh p (hq.next.trans hp)
  running x stack hs := by
    rw [hq.tasks]
    exact (hrun x stack hs).mono hq.next (pagesKept_refl _ _)

theorem Hosted.top {s : State} (h : Hosted s) (hphp : phpRuns s) :
    ∀ y ∈ (activations s.stack).head?, OnPage s.tasks s.next y.task s.eg := by
  intro y hy
  cases hs : s.stack with
  | nil =>
    rw [hs] at hy
    cases hy
  | cons f stack =>
    cases f with
    | eventLoop l => exact absurd hs (hphp l stack)
    | activation x =>
      rw [hs] at hy
      obtain rfl : x = y := Option.some.inj hy
      exact h.running x stack hs

/-- Activations that can all be jumped to have buffers of their own. -/
theorem buf_ne_of_armed {s : State} {x : Activation} {xs : List Activation} {cp cur : Option Ptr}
    (hl : Links (x :: xs) cp s.jmpBufs cur) (harmed : ∀ y ∈ xs, s.jmpBufs y.buf = .set y.id) :
    ∀ y ∈ xs, y.buf ≠ x.buf := by
  intro y hy heq
  apply (List.pairwise_cons.mp hl.jumps).1 y hy
  rw [← heq]
  exact harmed y hy

theorem hosted_createTail {s s' : State} {frame : InternalCall} {prevCheckpoint : Option Ptr}
    {ctx : PhpContext} {required : Bool} {callback : Zval} {ret : ℤ} {buf : Ptr} (hret : 0 ≤ ret)
    (h : Housed s) (hcp : s.checkPoint = some buf) (hbuf : ∀ y ∈ activations s.stack, y.buf ≠ buf)
    (hcaller : ∀ y ∈ (activations s.stack).head?,
      OnPage s.tasks s.next y.task ⟨freeCallFrame ctx.vm frame.call, frame.caller⟩)
    (h' : coroutineCreateTail s frame prevCheckpoint ctx required callback ret = .ok s') :
    Hosted s' := by
  obtain ⟨buf', tasks, hb, hsame, rfl⟩ := coroutineCreateTail_cases hret h'
  obtain rfl : buf = buf' := Option.some.inj (hcp.symm.trans hb)
  have hnone : ∀ p, s.tasks p = none → tasks p = none := by
    intro p hp
    have hp' := hsame p
    rw [hp] at hp'
    exact Option.map_eq_none_iff.mp hp'
  have hkept : PagesKept s.tasks tasks s.next := fun p _ => hnone p
  refine ⟨⟨fun y hy => ?_, h.loops, h.saved.mono (fun _ _ => id) le_rfl hkept,
    h.callers.mono le_rfl hkept, fun p hp => hnone p (h.fresh p hp)⟩, fun y stack hs => ?_⟩
  · change Function.update s.jmpBufs buf .unallocated y.buf = _
    rw [Function.update_of_ne (hbuf y hy)]
    exact h.armed y hy
  · have hy : y ∈ (activations s.stack).head? := by
      rw [show s.stack = _ from hs]
      rfl
    exact (hcaller y hy).mono le_rfl hkept

theorem hosted_returnFrom {s s' : State} {x : Activation} {ret : ℤ} (hret : 0 ≤ ret)
    (h : Housed s) (hcp : s.checkPoint = some x.buf) (hbuf : ∀ y ∈ activations s.stack, y.buf ≠ x.buf)
    (hcaller : ∀ y ∈ (activations s.stack).head?,
      ∃ eg, x.switch.caller = some eg ∧ OnPage s.tasks s.next y.task eg)
    (hframed : x.switch.Framed s.stack) (h' : returnFrom s x.switch ret = .ok s') : Hosted s' := by
  have hfree : ∀ c, SavedOnPage (Function.update s.contexts c .free) s.tasks s.next := fun c =>
    h.saved.mono (saved_of_update (by simp)) le_rfl (pagesKept_refl _ _)
  cases hsw : x.switch with
  | create frame prevCheckpoint ctx required callback =>
    rw [hsw] at h' hcaller
    refine hosted_createTail (s := { s with corog := { s.corog with require := false } }) hret
      ⟨h.armed, h.loops, h.saved, h.callers, h.fresh⟩ hcp hbuf (fun y hy => ?_) h'
    obtain ⟨eg, heg, hpage⟩ := hcaller y hy
    cases heg
    exact hpage
  | resume frame prevCheckpoint context ctx required =>
    rw [hsw] at h' hcaller
    obtain ⟨buf, hb, rfl⟩ := coroutineResumeTail_cases h'
    obtain rfl : x.buf = buf := Option.some.inj (hcp.symm.trans hb)
    refine ⟨⟨fun y hy => ?_, h.loops, hfree context, h.callers, h.fresh⟩, fun y stack hs => ?_⟩
    · change Function.update s.jmpBufs x.buf .unallocated y.buf = _
      rw [Function.update_of_ne (hbuf y hy)]
      exact h.armed y hy
    · obtain ⟨eg, heg, hpage⟩ := hcaller y (by rw [show s.stack = _ from hs]; rfl)
      cases heg
      exact hpage
  | invoke fd event context =>
    rw [hsw] at h' hframed
    obtain ⟨_, rfl⟩ := aioInvokeTail_cases h'
    obtain ⟨l, rest, hloop⟩ := hframed
    refine ⟨⟨h.armed, h.loops, hfree context, h.callers, h.fresh⟩, fun y stack hs => ?_⟩
    -- the event_loop goes on, and no PHP code
    cases hloop.symm.trans hs

theorem Housed.pop {s t : State} {x : Activation} {stack : List CFrame} (h : Housed s)
    (hs : s.stack = .activation x :: stack) (hstack : t.stack = stack)
    (hjb : t.jmpBufs = s.jmpBufs) (hctx : t.contexts = s.contexts) (hnext : t.next = s.next)
    (htasks : ∀ p, s.tasks p = none → t.tasks p = none) :
    Housed t ∧ ∀ y ∈ (activations t.stack).head?,
      ∃ eg, x.switch.caller = some eg ∧ OnPage t.tasks t.next y.task eg := by
  have hkept : PagesKept s.tasks t.tasks s.next := fun p _ => htasks p
  have harmed := h.armed
  have hloops := h.loops
  have hcallers := h.callers
  rw [hs] at harmed hloops hcallers
  have hcallers' := CallersOnPage.mono hcallers le_rfl hkept
  refine ⟨⟨?_, ?_, ?_, ?_, ?_⟩, ?_⟩
  · rw [hstack, hjb]
    exact fun y hy => harmed y (List.mem_cons_of_mem _ hy)
  · rw [hstack]
    exact hloops
  · rw [hctx, hnext]
    exact h.saved.mono (fun _ _ => id) le_rfl hkept
  · rw [hstack, hnext]
    exact hcallers'.2
  · rw [hnext]
    exact fun p hp => htasks p (h.fresh p hp)
  · rw [hstack, hnext]
    exact hcallers'.1

theorem hosted_coroYield {s s' : State} {x : Activation} {stack : List CFrame} (h : Housed s)
    (hs : s.stack = .activation x :: stack)
    (hl : Links (activations s.stack) s.checkPoint s.jmpBufs s.corog.currentCoro)
    (hframed : FramedStack s.stack) (hy : coroYield s = .ok s') : Hosted s' := by
  have hphp : phpRuns s := phpRuns_of_activation hs
  obtain ⟨x', stack', hj, hret⟩ := coroYield_eq_ok.mp hy
  obtain ⟨hs', _⟩ := jump_top hl hphp hj
  cases hs.symm.trans hs'
  rw [hs] at hl hframed
  obtain ⟨hpop, hcaller⟩ := h.pop (t := { s with
    eg := ⟨s.corog.originVmStack, s.eg.currentExecuteData⟩
    stack := stack }) hs rfl rfl rfl rfl fun _ => id
  exact hosted_returnFrom (by decide) hpop hl.bufs.1 (buf_ne_of_armed hl hpop.armed) hcaller
    hframed.1 hret

theorem hosted_setjmp {s s' : State} {switch : Switch} (h : Housed s)
    (hj : setjmp s switch = .ok s') (hcp : ∀ x ∈ activations s.stack, s.checkPoint ≠ some x.buf)
    (hrun : OnPage s.tasks s.next s.corog.currentCoro s.eg)
    (hcaller : ∀ y ∈ (activations s.stack).head?,
      ∃ eg, switch.caller = some eg ∧ OnPage s.tasks s.next y.task eg) : Hosted s' := by
  obtain ⟨buf, hbuf, _, rfl⟩ := setjmp_eq_ok.mp hj
  have hle : s.next ≤ s.next + 1 := Nat.le_succ _
  have hkept := pagesKept_refl s.tasks s.next
  refine ⟨⟨fun x hx => ?_, h.loops, h.saved.mono (fun _ _ => id) hle hkept, ⟨fun y hy => ?_,
    h.callers.mono hle hkept⟩, fun p hp => h.fresh p (hle.trans hp)⟩, fun x stack hs => ?_⟩
  · rcases List.mem_cons.mp hx with rfl | hx
    · exact Function.update_self ..
    · have hne : x.buf ≠ buf := fun heq => hcp x hx (heq ▸ hbuf)
      change Function.update s.jmpBufs buf _ x.buf = _
      rw [Function.update_of_ne hne]
      exact h.armed x hx
  · obtain ⟨eg, heg, hpage⟩ := hcaller y hy
    exact ⟨eg, heg, hpage.mono hle hkept⟩
  · cases hs
    exact hrun.mono hle hkept

theorem hosted_cCoroResume {s s' : State} {c : Ptr} {retval : Option Zval} {w : Wait}
    {switch : Switch} (h : Housed s) (hr : cCoroResume s c retval w switch = .ok s')
    (hcp : ∀ x ∈ activations s.stack, s.checkPoint ≠ some x.buf)
    (hcaller : ∀ y ∈ (activations s.stack).head?,
      ∃ eg, switch.caller = some eg ∧ OnPage s.tasks s.next y.task eg) : Hosted s' := by
  obtain ⟨ctx, current, frames, result, hctx, hex, _, _, hj⟩ := cCoroResume_cases hr
  have hres : Housed (resumed s c ctx current frames w result) :=
    ⟨h.armed, h.loops, h.saved.mono (saved_of_update (by simp)) le_rfl (pagesKept_refl _ _),
      h.callers, h.fresh⟩
  exact hosted_setjmp hres hj hcp (h.saved c ctx current frames hctx hex) hcaller

theorem ensureInit_kept (s : State) : (ensureInit s).eg = s.eg ∧ (ensureInit s).stack = s.stack ∧
    (ensureInit s).contexts = s.contexts ∧ (ensureInit s).tasks = s.tasks ∧
    s.next ≤ (ensureInit s).next ∧ ∀ b, b < s.next → (ensureInit s).jmpBufs b = s.jmpBufs b := by
  refine ⟨ensureInit_eg s, ensureInit_stack s, ensureInit_contexts s, ensureInit_tasks s,
    le_next_ensureInit s, fun b hb => ?_⟩
  rcases ensureInit_cases s with ⟨_, he⟩ | ⟨_, he⟩
  · rw [he]
  · rw [he]
    exact Function.update_of_ne (hb.trans (Nat.lt_succ_self _)).ne _ _

/-- The caller of `coroutine_create` has a buffer that is no activation's. -/
theorem Housed.newCheckPoint {s : State} (h : Housed s) (cids : CidAllocator)
    (hlt : ∀ x ∈ activations s.stack, x.buf < s.next) :
    Housed { newCheckPoint s with cids := cids } ∧
      ∀ x ∈ activations s.stack, (newCheckPoint s).checkPoint ≠ some x.buf := by
  have hle : s.next ≤ s.next + 1 := Nat.le_succ _
  have hkept := pagesKept_refl s.tasks s.next
  refine ⟨⟨fun x hx => ?_, h.loops, h.saved.mono (fun _ _ => id) hle hkept,
    h.callers.mono hle hkept, fun p hp => h.fresh p (hle.trans hp)⟩, fun x hx heq => ?_⟩
  · change Function.update s.jmpBufs s.next .unset x.buf = _
    rw [Function.update_of_ne (hlt x hx).ne]
    exact h.armed x hx
  · exact (hlt x hx).ne' (Option.some.inj heq)

/-- The frame of the new coroutine stands on the page with its `coro_task`, or on the
next one if it did not fit. -/
theorem onPage_startTask (s : State) (cid : ℤ) (slots : ℕ) (hfresh : ∀ p, s.next ≤ p → s.tasks p = none) :
    OnPage (startTask s cid slots).tasks (startTask s cid slots).next
      (startTask s cid slots).corog.currentCoro (startTask s cid slots).eg := by
  have hne : s.next + 2 ≠ s.next := (Nat.lt_add_of_pos_right (by decide)).ne'
  have hlt : s.next < s.next + 3 := Nat.lt_add_of_pos_right (by decide)
  have hlt' : s.next + 2 < s.next + 3 := Nat.lt_succ_self _
  have hnone : s.tasks (s.next + 2) = none := hfresh _ (Nat.le_add_right _ 2)
  refine ⟨by simp [startTask], ?_, ?_⟩
  · simp only [startTask, basePage, pushCallFrame]
    split_ifs
    · exact hlt
    · exact hlt'
  · simp only [startTask, basePage, pushCallFrame]
    split_ifs
    · exact .inl rfl
    · right
      rw [Function.update_of_ne hne]
      exact hnone

theorem Housed.startTask {s : State} (h : Housed s) (cid : ℤ) (slots : ℕ) :
    Housed (startTask s cid slots) := by
  have hle : s.next ≤ s.next + 3 := Nat.le_add_right _ 3
  have hkept : PagesKept s.tasks (Phpco.startTask s cid slots).tasks s.next := by
    intro p hp hnone
    simp only [Phpco.startTask]
    rw [Function.update_of_ne hp.ne]
    exact hnone
  refine ⟨h.armed, h.loops, h.saved.mono (fun _ _ => id) hle hkept, h.callers.mono hle hkept,
    fun p hp => ?_⟩
  simp only [Phpco.startTask] at hp ⊢
  have hne : p ≠ s.next := ((Nat.lt_add_of_pos_right (by decide)).trans_le hp).ne'
  rw [Function.update_of_ne hne]
  exact h.fresh p (hle.trans hp)

theorem Hosted.enterCall {s : State} (h : Hosted s) (site : CallSite) :
    Hosted (enterCall s site) :=
  h.quiet (quiet_enterCall s site) rfl h.loops fun x stack hs =>
    (h.running x stack hs).keep (keepsFrames_enterCall s site)

theorem caller_callFrame (s : State) (site : CallSite) :
    (⟨freeCallFrame (enterCall s site).eg.vm (callFrame s site).call, (callFrame s site).caller⟩ :
      ExecutorGlobals) = s.eg := by
  simp only [enterCall, callFrame, freeCallFrame_pushCallFrame]

theorem Hosted.create {s s' : State} {site : CallSite} {slots : ℕ} {callback : Zval}
    (h : Hosted s) (hlt : ∀ x ∈ activations s.stack, x.buf < s.next) (hphp : phpRuns s)
    (hc : coroutineCreate (Phpco.enterCall s site) (callFrame s site) slots callback = .ok s') :
    Hosted s' := by
  have he := (h.enterCall site).toHoused
  have hle : s.next ≤ (Phpco.enterCall s site).next := Nat.le_succ _
  obtain ⟨heg, hstack, hcontexts, htasks, hnext, hjb⟩ := ensureInit_kept (Phpco.enterCall s site)
  generalize hi : ensureInit (Phpco.enterCall s site) = i at heg hstack hcontexts htasks hnext hjb
  have hlt' : ∀ x ∈ activations i.stack, x.buf < i.next := by
    rw [hstack]
    exact fun x hx => (hlt x hx).trans_le (hle.trans hnext)
  have hkept : PagesKept (Phpco.enterCall s site).tasks i.tasks (Phpco.enterCall s site).next := by
    rw [htasks]
    exact pagesKept_refl _ _
  have hhoused : Housed i := by
    refine ⟨fun x hx => ?_, ?_, ?_, ?_, fun p hp => ?_⟩
    · rw [hstack] at hx
      rw [hjb _ ((hlt x hx).trans_le hle)]
      exact he.armed x hx
    · rw [hstack]
      exact he.loops
    · rw [hcontexts]
      exact he.saved.mono (fun _ _ => id) hnext hkept
    · rw [hstack]
      exact he.callers.mono hnext hkept
    · rw [htasks]
      exact he.fresh p (hnext.trans hp)
  -- where the calling coroutine goes on, whichever way the call returns
  have hcaller : ∀ y ∈ (activations i.stack).head?, OnPage i.tasks (i.next + 1) y.task
      ⟨freeCallFrame (coroSave i).vm (callFrame s site).call, (callFrame s site).caller⟩ := by
    rw [hstack]
    intro y hy
    rw [coroSave, heg, caller_callFrame]
    exact (h.top hphp y hy).mono ((hle.trans hnext).trans (Nat.le_succ _)) fun p hp =>
      hkept p (hp.trans_le hle)
  obtain ⟨cid, cids, _, hcase⟩ := coroutineCreate_cases hc
  rw [hi] at hcase
  obtain ⟨hnew, hbuf⟩ := hhoused.newCheckPoint cids hlt'
  obtain ⟨_, _, ht⟩ | ⟨_, hj⟩ := hcase
  · exact hosted_createTail (by decide) hnew rfl (fun y hy => (hlt' y hy).ne) hcaller ht
  · have hstart := hnew.startTask cid slots
    have hle' : i.next + 1 ≤ i.next + 4 := Nat.add_le_add_left (by decide) _
    refine hosted_setjmp hstart hj hbuf (onPage_startTask _ cid slots hnew.fresh) fun y hy => ?_
    refine ⟨_, rfl, (hcaller y hy).mono hle' fun p hp hnone => ?_⟩
    change Function.update i.tasks (i.next + 1) _ p = none
    rw [Function.update_of_ne hp.ne]
    exact hnone

theorem Hosted.resume {s s' : State} {site : CallSite} {c : Ptr} {w : Wait}
    {retval : Option Zval} {required : Bool} (h : Hosted s)
    (hlt : ∀ x ∈ activations s.stack, x.buf < s.next) (hphp : phpRuns s)
    (hr : cCoroResume (newCheckPoint (Phpco.enterCall s site)) c retval w
      (.resume (callFrame s site) s.checkPoint c (coroSave (Phpco.enterCall s site)) required) =
        .ok s') : Hosted s' := by
  have hle : s.next ≤ s.next + 1 := Nat.le_succ _
  have hle' : s.next ≤ s.next + 2 := Nat.le_add_right _ 2
  obtain ⟨hnew, hbuf⟩ := (h.enterCall site).newCheckPoint s.cids fun x hx =>
    (hlt x hx).trans_le hle
  refine hosted_cCoroResume hnew hr hbuf fun y hy => ⟨_, rfl, ?_⟩
  rw [coroSave, caller_callFrame]
  exact (h.top hphp y hy).mono hle' (pagesKept_refl _ _)

theorem Hosted.invoke {s s' : State} {l l' : EventLoop} {stack : List CFrame} {fd : ℤ} {c : Ptr}
    {ev : AioEvent} {retval : Option Zval} (h : Hosted s) (hs : s.stack = .eventLoop l :: stack)
    (hr : cCoroResume { s with rg := invokeTable s.rg fd, stack := .eventLoop l' :: stack } c
      retval (.io fd) (.invoke fd ev.addr c) = .ok s') : Hosted s' := by
  have hloops := h.loops
  rw [hs] at hloops
  obtain ⟨hnil, hrest⟩ := hloops
  have hhoused : Housed { s with rg := invokeTable s.rg fd, stack := .eventLoop l' :: stack } := by
    refine ⟨?_, ⟨hnil, hrest⟩, h.saved, ?_, h.fresh⟩
    · simp [hnil]
    · simp [hnil, CallersOnPage]
  refine hosted_cCoroResume hhoused hr ?_ ?_
  · simp [hnil]
  · simp [hnil]

theorem saved_of_update_saved {contexts : Ptr → ContextCell} {c₀ c : Ptr} {ctx₀ ctx : PhpContext}
    (hc : Function.update contexts c₀ (.saved ctx₀) c = .saved ctx) :
    ctx = ctx₀ ∨ contexts c = .saved ctx := by
  by_cases hcc : c = c₀
  · rw [hcc, Function.update_self] at hc
    exact .inl (ContextCell.saved.inj hc).symm
  · rw [Function.update_of_ne hcc] at hc
    exact .inr hc

theorem Hosted.coroSave {s t : State} {x : Activation} {stack : List CFrame} {site : CallSite}
    {c n : Ptr} (h : Hosted s) (hs : s.stack = .activation x :: stack)
    (hcur : s.corog.currentCoro = x.task) (hcorog : t.corog = s.corog)
    (heg : t.eg = (Phpco.enterCall s site).eg) (hn : s.next ≤ n) :
    SavedOnPage (Function.update s.contexts c (.saved (Phpco.coroSave t))) s.tasks n := by
  intro c' ctx call frames hc' hex
  rcases saved_of_update_saved hc' with rfl | hc'
  · simp only [Phpco.coroSave, heg, Phpco.enterCall, List.cons.injEq] at hex
    obtain ⟨rfl, rfl⟩ := hex
    have hpage := (h.running x stack hs).mono hn (pagesKept_refl _ _)
    rw [Phpco.coroSave, hcorog, hcur, heg]
    exact (caller_callFrame s site).symm ▸ hpage
  · exact (h.saved c' ctx call frames hc' hex).mono hn (pagesKept_refl _ _)

/-- The coroutine whose code runs is the current one. -/
theorem Hosted.current {s : State} {x : Activation} {stack : List CFrame} (h : Hosted s)
    (hs : s.stack = .activation x :: stack)
    (hl : Links (activations s.stack) s.checkPoint s.jmpBufs s.corog.currentCoro) :
    s.corog.currentCoro = x.task := by
  have harmed := h.armed x (by rw [hs]; exact List.mem_cons_self)
  rw [hs] at hl
  exact hl.sees.1 harmed

theorem activation_of_ne_nil {s : State} (hphp : phpRuns s) (hne : activations s.stack ≠ []) :
    ∃ x stack, s.stack = .activation x :: stack := by
  cases hs : s.stack with
  | nil => exact absurd (by rw [hs]; rfl) hne
  | cons f stack =>
    cases f with
    | eventLoop l => exact absurd hs (hphp l stack)
    | activation x => exact ⟨x, stack, rfl⟩

theorem Hosted.yield {s s₁ s' : State} {site : CallSite} {x : Activation} {stack : List CFrame}
    (h : Hosted s) (hl : Links (activations s.stack) s.checkPoint s.jmpBufs s.corog.currentCoro)
    (hf : FramedStack s.stack) (hs : s.stack = .activation x :: stack)
    (hy : coroutineYield (Phpco.enterCall s site) = .ok s₁) (hc : coroYield s₁ = .ok s') :
    Hosted s' := by
  obtain ⟨t, task, _, _, _, hs₁⟩ := coroutineYield_cases hy
  have hle : s.next ≤ s.next + 2 := Nat.le_add_right _ 2
  have hkept := pagesKept_refl s.tasks s.next
  have hhoused : Housed s₁ := by
    rw [hs₁]
    exact ⟨h.armed, h.loops, h.coroSave (t := Phpco.enterCall s site) hs (h.current hs hl) rfl rfl
      hle, h.callers.mono hle hkept, fun p hp => h.fresh p (hle.trans hp)⟩
  have hstack : s₁.stack = .activation x :: stack := by
    rw [hs₁]
    exact hs
  refine hosted_coroYield hhoused hstack ?_ ?_ hc
  · rw [hs₁]
    exact hl
  · rw [hs₁]
    exact hf

theorem Hosted.block {s s₁ s' : State} {fd : ℤ} {c : Ptr} {x : Activation} {stack : List CFrame}
    (h : Hosted s) (hl : Links (activations s.stack) s.checkPoint s.jmpBufs s.corog.currentCoro)
    (hf : FramedStack s.stack) (hs : s.stack = .activation x :: stack)
    (hb : Blocks s fd c s₁) (hc : coroYield s₁ = .ok s') : Hosted s' := by
  obtain ⟨site, heg⟩ := hb.eg
  have hle : s.next ≤ s₁.next := hb.fresh.1.trans hb.fresh.2.le
  have hkept := pagesKept_refl s.tasks s.next
  have hhoused : Housed s₁ := by
    refine ⟨?_, ?_, ?_, ?_, fun p hp => ?_⟩
    · rw [hb.stack, hb.jmpBufs]
      exact h.armed
    · rw [hb.stack]
      exact h.loops
    · rw [hb.contexts, hb.tasks]
      exact h.coroSave hs (h.current hs hl) hb.corog heg hle
    · rw [hb.stack, hb.tasks]
      exact h.callers.mono hle hkept
    · rw [hb.tasks]
      exact h.fresh p (hle.trans hp)
  refine hosted_coroYield hhoused (hb.stack.trans hs) ?_ ?_ hc
  · rw [hb.stack, hb.checkPoint, hb.jmpBufs, hb.corog]
    exact hl
  · rw [hb.stack]
    exact hf

theorem Hosted.finish {s s₁ s' : State} {x : Activation} {stack : List CFrame} (h : Hosted s)
    (hl : Links (activations s.stack) s.checkPoint s.jmpBufs s.corog.currentCoro)
    (hf : FramedStack s.stack) (hs : s.stack = .activation x :: stack)
    (hc : coroClose { s with eg := ⟨s.eg.vm, []⟩, stack := stack } = .ok s₁)
    (hret : returnFrom s₁ x.switch coroEnd = .ok s') : Hosted s' := by
  obtain ⟨t, task, retval, _, _, _, hs₁⟩ := coroClose_eq_ok.mp hc
  have hstack : s₁.stack = stack := by rw [hs₁]
  have hcp : s₁.checkPoint = s.checkPoint := by rw [hs₁]
  have hjb : s₁.jmpBufs = s.jmpBufs := by rw [hs₁]
  obtain ⟨hpop, hcaller⟩ := h.toHoused.pop (t := s₁) hs hstack hjb (by rw [hs₁]) (by rw [hs₁])
    fun p hp => by
      rw [hs₁]
      by_cases hpp : p = s.eg.vm.stack
      · simp [hpp]
      · simpa [hpp] using hp
  rw [hs] at hl hf
  have harmed := hpop.armed
  rw [hstack, hjb] at harmed
  refine hosted_returnFrom (by decide) hpop (hcp.trans hl.bufs.1) ?_ hcaller ?_ hret
  · rw [hstack]
    exact buf_ne_of_armed hl harmed
  · rw [hstack]
    exact hf.1

theorem phpStep_yield {s s₁ : State} {site : CallSite}
    (h : coroutineYield (enterCall s site) = .ok s₁) :
    phpStep s (.yield site) = .ok (.yields s₁) :=
  bind_eq_ok.mpr ⟨s₁, h, rfl⟩

theorem hosted_step {s s' : State} {a : Action} (hr : TableWf s.rg) (hf : Framed s) (hs : Sched s)
    (h : Hosted s) (hok : AtHome s a) (hstep : step s a = .ok s') : Hosted s' := by
  have hlt : ∀ x ∈ activations s.stack, x.buf < s.next := fun x hx => hs.buf_lt hx
  have hloops := h.loops
  cases step_move hr hstep with
  | quiet hq hstack hk =>
    refine h.quiet hq (by rw [hstack]) (by rw [hstack]; exact hloops) fun x stack hs' => ?_
    exact (h.running x stack (hstack.symm.trans hs')).keep hk
  | enterLoop site ha hphp hq hs' =>
    refine h.quiet hq (by rw [hs']; rfl) ?_ fun x stack hx => ?_
    · rw [hs']
      exact ⟨hok.1 site ha, hloops⟩
    · cases hs'.symm.trans hx
  | loop l l' stack hq hstack hs' _ _ =>
    rw [hstack] at hloops
    refine h.quiet hq (by rw [hstack, hs']; rfl) (by rw [hs']; exact hloops) fun x stack' hx => ?_
    cases hs'.symm.trans hx
  | leaveLoop l stack hq hstack hs' _ =>
    rw [hstack] at hloops
    refine h.quiet hq (by rw [hstack, hs']; rfl) (by rw [hs']; exact hloops.2) fun x stack' hx => ?_
    -- the main program called the event_loop, so no activation is on the C stack
    have hnil := hloops.1
    rw [hs'.symm.trans hx] at hnil
    cases hnil
  | invoke l l' stack fd ev c v hstack _ _ _ _ hres => exact h.invoke hstack hres
  | create site slots callback _ hphp hc => exact h.create hlt hphp hc
  | resume site arg c _ hphp _ _ hres => exact h.resume hlt hphp hres
  | yield site s₁ ha hphp hy hc =>
    subst ha
    obtain ⟨x, stack, hstack⟩ := activation_of_ne_nil hphp (hok.2 s₁ (phpStep_yield hy))
    exact h.yield hs.links hf.stack hstack hy hc
  | block fd c s₁ _ hphp ho hbl hc =>
    obtain ⟨x, stack, hstack⟩ := activation_of_ne_nil hphp (hok.2 s₁ ho)
    exact h.block hs.links hf.stack hstack hbl hc
  | finish x stack base s₁ _ hstack _ hc hret =>
    exact h.finish hs.links hf.stack hstack hc hret

theorem hosted_of_reached {ok : State → Action → Prop} (hok : ∀ s a, ok s a → AtHome s a)
    {s : State} (h : Reached ok s) : Sched s ∧ Hosted s := by
  apply h.invariant_of (I := fun s => Sched s ∧ Hosted s)
  · exact fun s hs => ⟨sched_initial hs, hosted_initial hs⟩
  intro s a s' hreach hinv ha hstep
  obtain ⟨hs, hh⟩ := hinv
  have hr := tableWf_of_reached hreach
  exact ⟨sched_step hr (bounded_of_reached hreach) hs (hh.finishesOwn hs a) hstep,
    hosted_step hr (framed_of_reached hreach) hs hh (hok s a ha) hstep⟩

end Phpco
