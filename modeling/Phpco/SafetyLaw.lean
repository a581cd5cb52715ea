import Phpco.Buffers
import Phpco.Defined
import Phpco.IndexLaw
import Phpco.LifeSteps
import Phpco.OwnershipLaw
import Phpco.ResultLaw
import Phpco.TimeoutLaw

/-!
# No undefined behaviour

A script that keeps to the rules below never makes the extension read memory that
is freed or was never set, leave its tables or jump to a call that has returned,
whatever the kernel, the clocks and the PHP functions answer.
-/

namespace Phpco
open Except EventTable Transition CidAllocator

def needsCoroutine : Action → Bool
  | .getCurrentCid _ => true
  | .yield _ => true
  | a => isIo a

theorem needsCoroutine_of_isIo {a : Action} (h : isIo a = true) : needsCoroutine a = true := by
  cases a <;> first | exact h | cases h

/-- The rules: each coroutine gets a cid and fits on its page, a coroutine that does not wait in
`coroutine::yield` is not resumed, and only the main program calls `event_loop`; the calls of
coroutines are made by coroutines, and what they name is an index; no registration fails on the
slot of an `aio_invoke` that has not returned, or names no function where it named one; the
result of `coroutine::yield` is not used; and every timeout is persistent. -/
structure Careful (s : State) (a : Action) : Prop where
  room : InRoom s a
  inside : needsCoroutine a = true → activations s.stack ≠ []
  index : IndexOk s a
  events : KeepsEvents s a
  unused : ∀ site, a = .yield site → site.used = false
  persistent : ∀ site obj garbage timeout persistent,
    a = .socketSetTimeout site obj garbage timeout persistent → persistent = true

/-- A function returns if it was called, and a coroutine finishes in its outermost frame; the
kernel has a descriptor for a timer, and `epoll_wait` returns what is ready; clocks do not run
backwards. -/
def Offered (s : State) : Action → Prop
  | .ret => phpRuns s ∧ 2 ≤ s.eg.currentExecuteData.length
  | .finish => phpRuns s ∧ activations s.stack ≠ [] ∧ s.eg.currentExecuteData.length = 1
  | .sleep _ timeout tfd _ _ => phpRuns s ∧ (0 < timeout → freshDescriptor s tfd)
  | .tick _ clock => s.clock.le clock
  | .epollWait batch => (∃ l stack, s.stack = .eventLoop l :: stack ∧ l.phase = .wait ∧
      l.test < 1000) ∧ mayReturn s batch
  | .loopStep _ => ∃ l stack, s.stack = .eventLoop l :: stack ∧ (l.phase = .wait → 1000 ≤ l.test)
  | _ => phpRuns s

/-- The contexts under the cids were saved in calls whose result is not used. -/
def YieldsUnused (s : State) : Prop :=
  ∀ cid c ctx current frames, s.cidContextMap cid = some c → s.contexts c = .saved ctx →
    ctx.executeData = current :: frames → current.resultUsed = false

theorem YieldsUnused.keep {s s' : State} (h : YieldsUnused s)
    (hlt : ∀ cid c, s.cidContextMap cid = some c → c < s.next)
    (hmap : s'.cidContextMap = s.cidContextMap)
    (hctx : ∀ c ctx, c < s.next → s'.contexts c = .saved ctx → s.contexts c = .saved ctx) :
    YieldsUnused s' := by
  intro cid c ctx current frames hc hsaved
  rw [hmap] at hc
  exact h cid c ctx current frames hc (hctx c ctx (hlt cid c hc) hsaved)

theorem used_callFrame (s : State) (site : CallSite) :
    (callFrame s site).call.resultUsed = site.used := by
  unfold callFrame pushCallFrame
  split_ifs <;> rfl

theorem saved_cCoroResume {s s' : State} {c₀ : Ptr} {retval : Option Zval} {w : Wait}
    {switch : Switch} (h : cCoroResume s c₀ retval w switch = .ok s') (c : Ptr) (ctx : PhpContext)
    (hc : s'.contexts c = .saved ctx) : s.contexts c = .saved ctx := by
  obtain ⟨ctx', current, frames, result, _, _, _, _, hj⟩ := cCoroResume_cases h
  obtain ⟨buf, _, _, rfl⟩ := setjmp_eq_ok.mp hj
  exact saved_of_update (by simp) c ctx hc

theorem yieldsUnused_step {s s' : State} {a : Action} (hr : TableWf s.rg) (hs : Sched s)
    (h : YieldsUnused s) (hok : ∀ site, a = .yield site → site.used = false)
    (hstep : step s a = .ok s') : YieldsUnused s' := by
  have hlt : ∀ cid c, s.cidContextMap cid = some c → c < s.next := fun cid c hc =>
    contextOf_lt (w := .yield cid) hs.core hc
  have hquiet : Quiet s s' → YieldsUnused s' := fun hq =>
    h.keep hlt hq.cidContextMap fun c ctx _ hc => hq.contexts ▸ hc
  cases step_move hr hstep with
  | quiet hq _ _ => exact hquiet hq
  | enterLoop _ _ _ hq _ => exact hquiet hq
  | loop _ _ _ hq _ _ _ _ => exact hquiet hq
  | leaveLoop _ _ hq _ _ _ => exact hquiet hq
  | invoke _ _ _ _ _ _ _ _ _ _ _ _ hres =>
    exact h.keep hlt (unswitched_cCoroResume hres).cidContextMap fun c ctx _ =>
      saved_cCoroResume hres c ctx
  | resume _ _ _ _ _ _ _ hres =>
    exact h.keep hlt (unswitched_cCoroResume hres).cidContextMap fun c ctx _ =>
      saved_cCoroResume hres c ctx
  | create site slots callback _ _ hc =>
    have hmap := ensureInit_cidContextMap (enterCall s site)
    have hcontexts := ensureInit_contexts (enterCall s site)
    obtain ⟨cid, cids, _, ⟨_, _, ht⟩ | ⟨_, hj⟩⟩ := coroutineCreate_cases hc
    · obtain ⟨buf, tasks, _, _, rfl⟩ := coroutineCreateTail_cases (by decide) ht
      exact h.keep hlt hmap fun c ctx _ hc => (congrFun hcontexts c).symm.trans hc
    · obtain ⟨buf, _, _, rfl⟩ := setjmp_eq_ok.mp hj
      exact h.keep hlt hmap fun c ctx _ hc => (congrFun hcontexts c).symm.trans hc
  | yield site s₁ ha _ hy hc =>
    obtain ⟨t, task, _, _, _, hs₁⟩ := coroutineYield_cases hy
    have hu := (unswitched_coroYield hc).1
    intro cid c ctx current frames hcid hsaved hex
    rw [hu.cidContextMap, hs₁] at hcid
    have hsaved₁ := saved_coroYield hc c ctx hsaved
    rw [hs₁] at hsaved₁
    simp only [Function.update_apply] at hcid hsaved₁
    have hold : ∀ c, s.cidContextMap cid = some c → c ≠ (enterCall s site).next := fun c hc =>
      ((hlt cid c hc).trans (Nat.lt_succ_self _)).ne
    split_ifs at hcid with hcc
    · cases hcid
      rw [if_pos rfl] at hsaved₁
      cases hsaved₁
      cases hex
      exact (used_callFrame s site).trans (hok site ha)
    · rw [if_neg (hold c hcid)] at hsaved₁
      exact h cid c ctx current frames hcid hsaved₁ hex
  | block fd c₀ s₁ ha hphp ho hbl hc =>
    refine h.keep hlt ?_ fun c ctx hclt hsaved => ?_
    · rw [(unswitched_coroYield hc).1.cidContextMap, hbl.cidContextMap]
    · have hsaved₁ := saved_coroYield hc c ctx hsaved
      rw [hbl.contexts] at hsaved₁
      have hne : c ≠ c₀ := (hclt.trans_le hbl.fresh.1).ne
      rwa [Function.update_of_ne hne] at hsaved₁
  | finish x stack base s₁ _ _ _ hc hret =>
    obtain ⟨t, task, retval, _, _, _, hs₁⟩ := coroClose_eq_ok.mp hc
    refine h.keep hlt ?_ fun c ctx _ hsaved => ?_
    · rw [(unswitched_returnFrom (by decide) hret).1.cidContextMap, hs₁]
    · have hsaved₁ := saved_returnFrom (by decide) hret c ctx hsaved
      rwa [hs₁] at hsaved₁

def Persistent (s : State) : Prop :=
  ∀ e x, s.timeouts.elements e = some x → x.persistent = true

theorem persistent_step {s s' : State} {a : Action} (h : Persistent s)
    (hok : ∀ site obj garbage timeout persistent,
      a = .socketSetTimeout site obj garbage timeout persistent → persistent = true)
    (hstep : step s a = .ok s') : Persistent s' := by
  intro e x hx
  cases queueMove hstep with
  | same ht _ => exact h e x (ht ▸ hx)
  | push site obj garbage timeout persistent ha _ _ _ _ ht =>
    rw [ht] at hx
    simp only [Timeouts.push, Function.update_apply] at hx
    split_ifs at hx
    · cases hx
      exact hok site obj garbage timeout persistent ha
    · exact h e x hx
  | counts _ _ _ _ _ _ node element _ _ _ _ _ hpers _ ht =>
    rw [ht] at hx
    simp only [Function.update_apply] at hx
    split_ifs at hx
    · cases hx
      exact hpers
    · exact h e x hx

structure Safe (s : State) : Prop where
  sched : Sched s
  hosted : Hosted s
  executes : ∀ x rest, s.stack = .activation x :: rest → ∃ t cid retval, Executes s x t cid retval
  cids : s.cids.Counts
  framed : Framed s
  based : Based s
  waiting : Waiting s
  events : ∀ fd event c, Dispatching s fd event c → EventKept s.rg fd event c
  named : ∃ g, Named s g
  walk : ∃ ns g, Walk s ns g
  unused : YieldsUnused s
  persistent : Persistent s

theorem inRoom_of_careful {s : State} (h : Reached Careful s) : Reached InRoom s :=
  h.mono fun _ _ _ _ _ hok _ => hok.room

theorem finishesOwn_of_careful {s : State} (h : Reached Careful s) : Reached FinishesOwn s := by
  refine h.mono fun s a s' _ hreach _ _ => ?_
  obtain ⟨hs, hh, _, _⟩ := scheduled_of_inRoom (inRoom_of_careful hreach)
  exact hh.finishesOwn hs a

theorem safe_of_reached {s : State} (h : Reached Careful s) : Safe s := by
  obtain ⟨hs, hh, hl, hc⟩ := scheduled_of_inRoom (inRoom_of_careful h)
  constructor
  case sched => exact hs
  case hosted => exact hh
  case executes => exact fun x rest hstack => hl.executes hs hh hc hstack
  case cids => exact hc.cids
  case framed => exact framed_of_reached h
  case based => exact based_of_reached (fun _ _ => id) (finishesOwn_of_careful h)
  case waiting => exact waiting_of_reached h
  case events =>
    have hkept : Reached KeepsEvents s := h.mono fun _ _ _ _ _ hok _ => hok.events
    exact fun fd event c hd => eventKept_of_reached hkept hd
  case named =>
    have hindex : Reached IndexOk s := h.mono fun _ _ _ _ _ hok _ => hok.index
    obtain ⟨g, hg⟩ := hindex.exists_noted noteNamed []
    exact ⟨g, named_of_noted hg⟩
  case walk => exact walk_of_reached h
  case unused =>
    refine h.invariant_of ?_ fun s a s' hreach hu hok hstep => ?_
    · rintro s ⟨_, _, _, _, rfl⟩ cid c ctx current frames hc
      cases hc
    · exact yieldsUnused_step (tableWf_of_reached hreach)
        (sched_of_reached (fun _ _ => id) (finishesOwn_of_careful hreach)) hu hok.unused hstep
  case persistent =>
    refine h.invariant_of ?_ fun s a s' _ hp hok hstep => persistent_step hp hok.persistent hstep
    rintro s ⟨_, _, _, _, rfl⟩ e x hx
    cases hx

variable {s s₁ : State} {a : Action} {x : Activation} {rest : List CFrame}

theorem Safe.task_ne_none (h : Safe s) {t act : Ptr} (ht : status s.log t = .running act) :
    s.tasks t ≠ none := by
  have hlive : cidOf s.log t ≠ none := by
    intro hn
    rcases (h.sched.core.live t).mp hn with ha | ha
    · cases (show status s.log t = .absent from ha).symm.trans ht
    · cases (show status s.log t = .closed from ha).symm.trans ht
  obtain ⟨cid, hcid⟩ := Option.ne_none_iff_exists'.mp hlive
  intro hnone
  have hkept := h.sched.tasks t cid hcid
  rw [hnone] at hkept
  cases hkept

theorem Safe.links (h : Safe s) (hstack : s.stack = .activation x :: rest) :
    s.checkPoint = some x.buf ∧ s.jmpBufs x.buf = .set x.id := by
  have hl := h.sched.links.bufs
  rw [hstack] at hl
  refine ⟨hl.1, h.hosted.armed x ?_⟩
  rw [hstack]
  exact List.mem_cons_self

/-- A coroutine that runs can suspend itself, if the event of its `aio_invoke` is there. -/
theorem Safe.defined_coroYield (h : Safe s) (hstack : s.stack = .activation x :: rest)
    (hs₁ : s₁.stack = s.stack) (hcp : s₁.checkPoint = s.checkPoint) (hj : s₁.jmpBufs = s.jmpBufs)
    (hcorog : s₁.corog = s.corog) (htasks : s₁.tasks = s.tasks)
    (hevent : ∀ fd event c, Dispatching s fd event c → EventKept s₁.rg fd event c) :
    Defined (coroYield s₁) := by
  obtain ⟨hbuf, harmed⟩ := h.links hstack
  obtain ⟨t, cid, retval, hexec⟩ := h.executes x rest hstack
  refine Phpco.defined_coroYield (hs₁.trans hstack) (hcp.trans hbuf) ?_ ⟨?_, ?_, ?_⟩
  · rw [hj]
    exact harmed
  · intro t' ht'
    rw [hcorog, hexec.currentCoro] at ht'
    cases ht'
    rw [htasks]
    exact h.task_ne_none hexec.running
  · rw [hcp, hbuf]
    exact Option.some_ne_none _
  · intro fd event c hsw
    refine (hevent fd event c ⟨x, ?_, hsw⟩).slot
    rw [hstack]
    exact List.mem_cons_self

theorem unchanged_of_yields (ha : isIo a = true) (hy : phpStep s a = .ok (.yields s₁)) :
    s₁.stack = s.stack ∧ s₁.checkPoint = s.checkPoint ∧ s₁.jmpBufs = s.jmpBufs ∧
      s₁.corog = s.corog ∧ s₁.tasks = s.tasks := by
  cases ioStep ha hy with
  | refused site v ho => cases ho
  | asked site r q addOk hq hsame _ hst =>
    obtain ⟨rg, ret, hstore, ⟨_, ho⟩ | ⟨_, ho⟩⟩ := storeAndYield_cases hst
    · cases ho
    · cases ho
      exact ⟨rfl, rfl, rfl, rfl, rfl⟩

theorem eventKept_of_yields (h : Safe s) (hr : TableWf s.rg) (hkeeps : KeepsEvents s a)
    (ha : isIo a = true) (hy : phpStep s a = .ok (.yields s₁)) {fd : ℤ} {event c : Ptr}
    (hd : Dispatching s fd event c) : EventKept s₁.rg fd event c := by
  have hk := h.events fd event c hd
  cases ioStep ha hy with
  | refused site v ho => cases ho
  | asked site r q addOk hq hsame _ hst =>
    obtain ⟨rg, ret, hstore, ⟨_, ho⟩ | ⟨_, ho⟩⟩ := storeAndYield_cases hst
    · cases ho
    · cases ho
      apply (eventKept_store_iff (hr.congr hsame.slots hsame.interest) hstore
        (hk.of_same hsame.slots hsame.log)).mpr
      rintro rfl hw
      rw [hsame.slots]
      rw [hsame.waiter] at hw
      exact hkeeps q addOk event c hq hd hw

theorem slot_inTable (h : ∃ g, Named s g) (hok : IndexOk s a) {fd : ℤ}
    (hfd : slotIndex s a = some fd) : inTable fd := by
  obtain ⟨g, hn⟩ := h
  cases ha : usesIndex a with
  | true => exact inTable_of_namedFd (namedFd_of_slotIndex ha hok hfd)
  | false =>
    cases a with
    | loopStep answer => exact hn.inTable fd (hn.mem_of_dispatchFd hfd)
    | sleep site timeout tfd clockOk addOk =>
      simp [slotIndex, ioRequest, not_lt.mp (of_decide_eq_false ha)] at hfd
    | socketSetTimeout _ _ _ _ _ => cases ha
    | _ => first | cases hfd | cases ha

theorem head_ne_none (hok : IndexOk s a) (ha : usesIndex a = true) (hcid : namedCid s a = none)
    {io : IoArgs} (hc : converted a = io.arguments.head?.map fun zfd => (zfd, io.garbage))
    (hfd : namedFd a = (converted a).bind fun x => slotOf x.1) : io.arguments.head? ≠ none := by
  intro hnone
  have hconv : converted a = none := by rw [hc, hnone]; rfl
  rcases hok ha with h | h | ⟨zfd, garbage, h, _⟩
  · rw [hfd, hconv] at h
    cases h
  · rw [hcid] at h
    cases h
  · rw [hconv] at h
    cases h

theorem defined_firstFd {io : IoArgs} (h : io.arguments.head? ≠ none) : Defined (firstFd io) := by
  refine Defined.bind (defined_deref h) fun zfd _ => ?_
  exact defined_ok _

theorem defined_converted {u : State} {frame : InternalCall} {q : StoreArgs} {addOk : Bool} {fd : ℤ}
    {o : Outcome} (h : ¬ fd < 0 → inTable q.fd) :
    Defined (if fd < 0 then .ok o else storeAndYield u frame q addOk) := by
  split_ifs with hneg
  · exact defined_ok _
  · exact defined_storeAndYield (h hneg)

theorem Safe.defined_io (h : Safe s) (hok : Careful s a) (ho : Offered s a) (ha : isIo a = true) :
    Defined (phpStep s a) := by
  have hslot : ∀ q addOk, ioRequest s a = some (q, addOk) → inTable q.fd := fun q addOk hq =>
    slot_inTable h.named hok.index (slotIndex_of_ioRequest hq)
  cases a with
  | socketAccept site io =>
    refine Defined.bind (defined_firstFd (head_ne_none hok.index rfl rfl rfl rfl)) fun fd hfd => ?_
    obtain ⟨zfd, hz, rfl⟩ := firstFd_eq_ok.mp hfd
    apply defined_storeAndYield
    exact hslot _ io.addOk (by rw [ioRequest, hz]; rfl)
  | socketRead site io =>
    refine Defined.bind (defined_firstFd (head_ne_none hok.index rfl rfl rfl rfl)) fun fd hfd => ?_
    obtain ⟨zfd, hz, rfl⟩ := firstFd_eq_ok.mp hfd
    refine defined_converted fun hneg => hslot _ io.addOk ?_
    rw [ioRequest, hz]
    exact if_neg hneg
  | socketWrite site io =>
    refine Defined.bind (defined_firstFd (head_ne_none hok.index rfl rfl rfl rfl)) fun fd hfd => ?_
    obtain ⟨zfd, hz, rfl⟩ := firstFd_eq_ok.mp hfd
    refine defined_converted fun hneg => hslot _ io.addOk ?_
    rw [ioRequest, hz]
    exact if_neg hneg
  | prepare site origin io => exact defined_converted fun hneg => hslot _ io.addOk (if_neg hneg)
  | fetchAll site origin io => exact defined_converted fun hneg => hslot _ io.addOk (if_neg hneg)
  | sleep site timeout tfd clockOk addOk =>
    by_cases hle : timeout ≤ 0
    · simp only [phpStep, coroutineSleep, if_pos hle]
      exact defined_ok _
    · simp only [phpStep, coroutineSleep, if_neg hle]
      refine Defined.bind (defined_check (ho.2 (Int.not_le.mp hle))) fun _ _ => ?_
      apply defined_storeAndYield
      exact hslot _ addOk (if_neg hle)
  | _ => cases ha

theorem Safe.switchable_yielded (h : Safe s) {cid : ℤ} {t c c' : Ptr} (hy : YieldedUnder s cid t c)
    (hm : s.cidContextMap cid = some c') : Switchable s c' none := by
  obtain ⟨hsaved, _, hentry⟩ := h.sched.core.yielded t cid c hy.suspended
  have hok := h.sched.core.entries cid
  rw [hentry] at hok
  obtain rfl : c = c' := Option.some.inj (hok.1.symm.trans hm)
  obtain ⟨ctx, hctx, _⟩ := saver_eq_some.mp hsaved
  obtain ⟨current, frames, hex, hne⟩ := h.framed.saved c ctx hctx
  refine ⟨ctx, current, frames, hctx, hex, hne, fun hused => ?_⟩
  rw [h.unused cid c ctx current frames hm hctx hex] at hused
  cases hused

theorem Safe.switchable_waiter (h : Safe s) {fd : ℤ} {c : Ptr} (hw : s.rg.waiter fd = some c)
    (v : Zval) : Switchable s c (some v) := by
  obtain ⟨t, hsaved, _⟩ := h.sched.core.waiters fd c hw
  obtain ⟨ctx, hctx, _⟩ := saver_eq_some.mp hsaved
  obtain ⟨current, frames, hex, hne⟩ := h.framed.saved c ctx hctx
  exact ⟨ctx, current, frames, hctx, hex, hne, fun _ => Option.some_ne_none v⟩

theorem Safe.defined_finish (h : Safe s) (hstack : s.stack = .activation x :: rest)
    {base : ExecuteData} (hex : s.eg.currentExecuteData = [base]) : Defined (phpStep s .finish) := by
  obtain ⟨hbuf, _⟩ := h.links hstack
  obtain ⟨t, cid, retval, hexec⟩ := h.executes x rest hstack
  have hslot : s.corog.allocatedReturnValuePtr ≠ none := by simp [hexec.slot]
  simp only [phpStep, hstack, hex]
  refine Defined.bind ?_ fun s₁ hc => Defined.bind ?_ fun s₂ _ => defined_ok _
  · exact defined_coroClose hexec.currentCoro (h.task_ne_none hexec.running) hslot
  · obtain ⟨t', task, retval', _, _, _, rfl⟩ := coroClose_eq_ok.mp hc
    apply defined_returnFrom
    constructor
    case current => rintro t ⟨⟩
    case checkPoint => exact ne_of_eq_of_ne hbuf (Option.some_ne_none _)
    case event =>
      intro fd event c hsw
      refine (h.events fd event c ⟨x, ?_, hsw⟩).slot
      rw [hstack]
      exact List.mem_cons_self

theorem Safe.defined_create (h : Safe s) {site : CallSite} {slots : ℕ} {callback : Zval}
    (hok : InRoom s (.create site slots callback)) :
    Defined (coroutineCreate (enterCall s site) (callFrame s site) slots callback) := by
  obtain ⟨⟨_, _, hlimit⟩, hroom⟩ := hok
  obtain ⟨hfree, _⟩ := hroom site slots callback rfl
  obtain ⟨n, _, cids, ha⟩ := h.cids.alloc hfree
  obtain ⟨hnum, hmax, _⟩ := ensureInit_enterCall s site
  apply defined_coroutineCreate
  · rw [ensureInit_cids, show (enterCall s site).cids = s.cids from rfl, ha]
    exact Option.some_ne_none _
  · rw [hnum, hmax]
    by_contra hle
    exact hlimit site slots callback rfl ⟨Nat.not_lt.mp hle, hfree⟩

theorem Safe.defined_yield (h : Safe s) {site : CallSite} (hstack : s.stack = .activation x :: rest)
    (hcid : ∀ cid, entryIndex s (.yield site) = some cid → inContextMap cid) :
    Defined (coroutineYield (enterCall s site)) := by
  obtain ⟨t, _, _, hexec⟩ := h.executes x rest hstack
  refine Defined.bind ?_ fun cid hget => ?_
  · exact defined_getCurrentCid hexec.currentCoro (h.task_ne_none hexec.running)
  · have hsame : getCurrentCid s = .ok cid := hget
    refine Defined.bind (defined_check (hcid cid ?_)) fun _ _ => defined_ok _
    rw [entryIndex, hsame]
    rfl

theorem Safe.defined_resume (h : Safe s) {site : CallSite} {arg : ℤ}
    (hok : InRoom s (.resume site arg)) (hin : inContextMap (toInt arg)) :
    Defined (phpStep s (.resume site arg)) := by
  obtain ⟨t, c, hy⟩ := hok.1.2.1 site arg rfl
  refine Defined.bind (defined_check hin) fun _ _ => ?_
  cases hm : s.cidContextMap (toInt arg) with
  | none =>
    rw [show (enterCall s site).cidContextMap = s.cidContextMap from rfl, hm]
    exact defined_ok _
  | some c' =>
    rw [show (enterCall s site).cidContextMap = s.cidContextMap from rfl, hm]
    refine Defined.bind (defined_cCoroResume ?_ ?_) fun s' _ => defined_ok _
    · exact ⟨(enterCall s site).next, rfl, by simp [newCheckPoint]⟩
    · exact h.switchable_yielded hy hm

theorem exists_two_frames {frames : List ExecuteData} (h : 2 ≤ frames.length) :
    ∃ call caller rest, frames = call :: caller :: rest := by
  rcases frames with _ | ⟨call, _ | ⟨caller, rest⟩⟩
  · cases h
  · simp at h
  · exact ⟨call, caller, rest, rfl⟩

theorem Safe.defined_phpStep (h : Safe s) (hok : Careful s a) (ho : Offered s a)
    (hkind : isPhp a = true) (hphp : phpRuns s) : Defined (phpStep s a) := by
  have hcid : ∀ cid, entryIndex s a = some cid → inContextMap cid := fun cid hcid =>
    inContextMap_of_namedCid (namedCid_of_entryIndex hok.index hcid)
  have hinside : needsCoroutine a = true → ∃ x rest, s.stack = .activation x :: rest := fun ha =>
    activation_of_ne_nil hphp (hok.inside ha)
  cases hio : isIo a with
  | true => exact h.defined_io hok ho hio
  | false =>
    cases a with
    | call site => exact defined_ok _
    | ret =>
      obtain ⟨call, caller, frames, hex⟩ := exists_two_frames ho.2
      simp only [phpStep, hex]
      exact defined_ok _
    | finish =>
      obtain ⟨x, rest, hstack⟩ := activation_of_ne_nil hphp ho.2.1
      obtain ⟨base, hex⟩ := List.length_eq_one_iff.mp ho.2.2
      exact h.defined_finish hstack hex
    | create site slots callback =>
      exact Defined.bind (h.defined_create hok.room) fun s' _ => defined_ok _
    | getCurrentCid site =>
      obtain ⟨x, rest, hstack⟩ := hinside rfl
      obtain ⟨t, _, _, hexec⟩ := h.executes x rest hstack
      refine Defined.bind ?_ fun cid _ => defined_ok _
      exact defined_getCurrentCid hexec.currentCoro (h.task_ne_none hexec.running)
    | yield site =>
      obtain ⟨x, rest, hstack⟩ := hinside rfl
      exact Defined.bind (h.defined_yield hstack hcid) fun s₁ _ => defined_ok _
    | resume site arg => exact h.defined_resume hok.room (hcid _ rfl)
    | socketSetTimeout site obj garbage timeout persistent => exact defined_ok _
    | socketClose site io closed retval =>
      refine Defined.bind (Defined.bind (defined_firstFd ?_) fun fd hfd => ?_) fun s' _ =>
        defined_ok _
      · exact head_ne_none hok.index rfl rfl rfl rfl
      · obtain ⟨zfd, hz, rfl⟩ := firstFd_eq_ok.mp hfd
        refine Defined.bind (defined_check (slot_inTable h.named hok.index ?_)) fun _ _ => defined_ok _
        simp only [slotIndex, hz]
        rfl
    | closeFd fd => exact defined_ok _
    | eventLoop site => exact defined_ok _
    | tick _ _ => cases hkind
    | epollWait _ => cases hkind
    | loopStep _ => cases hkind
    | _ => cases hio

/-- A call that suspends is made by a coroutine, which can be suspended. -/
theorem Safe.defined_settle (h : Safe s) (hr : TableWf s.rg) (hok : Careful s a) (hphp : phpRuns s)
    {o : Outcome} (ho : phpStep s a = .ok o) : Defined (settle o) := by
  cases o with
  | returned s' frame v => exact defined_ok _
  | runs s' => exact defined_ok _
  | yields s₁ =>
    cases hio : isIo a with
    | true =>
      obtain ⟨x, rest, hstack⟩ := activation_of_ne_nil hphp (hok.inside (needsCoroutine_of_isIo hio))
      obtain ⟨hs, hcp, hj, hcorog, htasks⟩ := unchanged_of_yields hio ho
      exact h.defined_coroYield hstack hs hcp hj hcorog htasks fun fd event c =>
        eventKept_of_yields h hr hok.events hio ho
    | false =>
      cases phpStep_cases hio ho with
      | yield site hs₁ hy =>
        obtain ⟨x, rest, hstack⟩ := activation_of_ne_nil hphp (hok.inside rfl)
        obtain ⟨t, task, _, _, _, hs₁⟩ := coroutineYield_cases hy
        rw [settle, hs₁]
        exact h.defined_coroYield hstack rfl rfl rfl rfl rfl h.events

theorem Safe.defined_aioInvoke (h : Safe s) {l : EventLoop} {stack : List CFrame} {phase : LoopPhase}
    {fd : ℤ} {answer : Zval} (hs : s.stack = .eventLoop l :: stack) (hin : inTable fd) :
    Defined (aioInvoke (setPhase s l stack phase) fd answer) := by
  refine Phpco.defined_aioInvoke hin (fun hw => ?_) fun c v hw => h.switchable_waiter hw v
  have hcp : s.checkPoint ≠ none := fun hn => hw (h.waiting.idle (h.waiting.uninit hn) fd)
  obtain ⟨buf, hbuf⟩ := Option.ne_none_iff_exists'.mp hcp
  refine ⟨buf, hbuf, h.based.allocated ?_⟩
  -- `event_loop` is called by the main program
  have hloops := h.hosted.loops
  rw [hs] at hloops
  rw [hs, activations_cons_eventLoop, hloops.1]
  exact hbuf

theorem Safe.exists_element (h : Safe s) {l : EventLoop} {stack : List CFrame}
    (hs : s.stack = .eventLoop l :: stack) {now : ℤ} {q : Ptr} {f : Option Ptr}
    (hp : l.phase = .timeouts now (some q) f ∨ l.phase = .expired now q f) :
    ∃ node element, s.timeouts.link.nodes q = some node ∧
      s.timeouts.elements node.data = some element := by
  obtain ⟨ns, g, hw⟩ := h.walk
  have hat := hw.passes l stack (by rw [hs])
  have hmem : ∃ n ∈ ns, q = n.1 := by
    rcases hp with hp | hp
    · rw [hp] at hat
      obtain ⟨seen, n, rest, rfl, hq, _⟩ := passAt_timeouts_some hat
      exact ⟨n, by simp, hq⟩
    · rw [hp] at hat
      obtain ⟨seen, n, rest, rfl, hq, _⟩ := hat
      exact ⟨n, by simp, hq⟩
  obtain ⟨n, hn, rfl⟩ := hmem
  obtain ⟨next, hcell⟩ := hw.path.exists_next hn
  obtain ⟨node, hnode, hcell⟩ := Option.map_eq_some_iff.mp hcell
  obtain ⟨element, hel⟩ := Option.ne_none_iff_exists'.mp (hw.elements n hn)
  refine ⟨node, element, hnode, ?_⟩
  rw [(Prod.mk.inj hcell).1]
  exact hel

theorem Safe.reapTimeout_eq (h : Safe s) {q : Ptr} {f : Option Ptr} {node : Node}
    {element : TimeoutElement} (hnode : s.timeouts.link.nodes q = some node)
    (hel : s.timeouts.elements node.data = some element) : reapTimeout s q f = .ok { s.timeouts with
      elements := Function.update s.timeouts.elements node.data
        (some { element with lastTime := s.now }) } := by
  simp only [reapTimeout, hnode, hel, deref, h.persistent node.data element hel, bind, Except.bind]
  rfl

theorem Safe.defined_eventLoopStep (h : Safe s) {answer : Zval}
    (hok : Careful s (.loopStep answer)) {l : EventLoop} {stack : List CFrame}
    (hs : s.stack = .eventLoop l :: stack) (htest : l.phase = .wait → 1000 ≤ l.test) :
    Defined (eventLoopStep s l stack answer) := by
  have hin : ∀ fd, dispatchFd s = some fd → inTable fd := fun fd hfd =>
    slot_inTable h.named hok.index hfd
  unfold eventLoopStep
  cases hp : l.phase with
  | wait =>
    simp only
    rw [if_neg (Nat.not_lt.mpr (htest hp))]
    exact defined_ok _
  | batch events since =>
    cases events with
    | nil => exact defined_ok _
    | cons e events =>
      simp only
      split_ifs with hd
      · exact h.defined_aioInvoke hs (hin _ (by simp [dispatchFd, hs, hp, hd]))
      · exact defined_ok _
  | timeouts now q f =>
    cases q with
    | none => exact defined_ok _
    | some q =>
      obtain ⟨node, element, hnode, hel⟩ := h.exists_element hs (.inl hp)
      simp only [hnode, hel, deref, bind, Except.bind]
      split_ifs with hexp
      · exact h.defined_aioInvoke hs (hin _ (by simp [dispatchFd, hs, hp, hnode, hel, hexp]))
      · exact defined_ok _
  | expired now q f =>
    -- the element stays, so that the node is there when it is read again
    obtain ⟨node, element, hnode, hel⟩ := h.exists_element hs (.inr hp)
    simp only [h.reapTimeout_eq hnode hel, hnode, deref, bind, Except.bind]
    exact defined_ok _

theorem step_of_offered (h : Safe s) (hr : TableWf s.rg) (hok : Careful s a) (ho : Offered s a) :
    Defined (step s a) := by
  cases hkind : isPhp a with
  | true =>
    have hphp : phpRuns s := by
      cases a <;> first | exact ho | exact ho.1 | cases hkind
    rw [step_eq_phpStep hphp hkind]
    exact Defined.bind (h.defined_phpStep hok ho hkind hphp) fun o hstep =>
      h.defined_settle hr hok hphp hstep
  | false =>
    cases a with
    | tick now clock => exact Defined.bind (defined_check ho) fun _ _ => defined_ok _
    | epollWait batch =>
      obtain ⟨⟨⟨frame, phase, test⟩, stack, hs, rfl, htest⟩, hbatch⟩ := ho
      simp only [step, hs]
      exact Defined.bind (defined_check ⟨htest, hbatch⟩) fun _ _ => defined_ok _
    | loopStep answer =>
      obtain ⟨l, stack, hs, htest⟩ := ho
      simp only [step, hs]
      exact h.defined_eventLoopStep hok hs htest
    | _ => cases hkind

theorem phpStep_of_not_offered (hphp : phpRuns s) (hkind : isPhp a = true) (ho : ¬ Offered s a) :
    phpStep s a = .error .notHere := by
  cases a with
  | ret =>
    simp only [phpStep]
    split
    · next call caller rest hex => exact absurd ⟨hphp, by simp [hex]⟩ ho
    · rfl
  | finish =>
    simp only [phpStep]
    split
    · next x stack base hstack hex =>
      have hin : activations s.stack ≠ [] := by simp [hstack]
      exact absurd ⟨hphp, hin, by simp [hex]⟩ ho
    · rfl
  | sleep site timeout tfd clockOk addOk =>
    have htimeout : ¬ timeout ≤ 0 := fun hle => ho ⟨hphp, fun hlt => absurd hle (Int.not_le.mpr hlt)⟩
    have hfresh : ¬ freshDescriptor (enterCall s site) tfd := fun hf => ho ⟨hphp, fun _ => hf⟩
    simp only [phpStep, coroutineSleep, if_neg htimeout, check, if_neg hfresh]
    rfl
  | _ => first | exact absurd hphp ho | cases hkind

/-- What is not offered is not there. -/
theorem step_of_not_offered (ho : ¬ Offered s a) : step s a = .error .notHere := by
  cases hkind : isPhp a with
  | true =>
    by_cases hphp : phpRuns s
    · rw [step_eq_phpStep hphp hkind, phpStep_of_not_offered hphp hkind ho]
      rfl
    · simp only [phpRuns, not_forall, not_not] at hphp
      obtain ⟨l, stack, hs⟩ := hphp
      exact step_not_here hs hkind
  | false =>
    cases a with
    | tick now clock =>
      simp only [step, check, if_neg (show ¬ s.clock.le clock from ho)]
      rfl
    | epollWait batch =>
      simp only [step]
      split
      · next frame test stack hs =>
        have hnot : ¬ (test < 1000 ∧ mayReturn s batch) := fun h => ho ⟨⟨_, _, hs, rfl, h.1⟩, h.2⟩
        simp only [check, if_neg hnot]
        rfl
      · rfl
    | loopStep answer =>
      simp only [step]
      split
      · next l stack hs =>
        have hwait : l.phase = .wait ∧ l.test < 1000 := by
          by_contra hnot
          exact ho ⟨l, stack, hs, fun hp => Nat.not_lt.mp fun htest => hnot ⟨hp, htest⟩⟩
        simp only [eventLoopStep, hwait.1, if_pos hwait.2]
      · rfl
    | _ => cases hkind

def testCareful (s : State) (a : Action) : Bool :=
  (match a with
    | .eventLoop _ => (activations s.stack).isEmpty
    | _ => testInRoom s a) && (!needsCoroutine a || !(activations s.stack).isEmpty) &&
    (!usesIndex a || (namedFd a).isSome || (namedCid s a).isSome) && keepsEvents s a && match a with
    | .yield site => !site.used
    | .socketSetTimeout _ _ _ _ persistent => persistent
    | _ => true

theorem careful_of_test (s : State) (a : Action) (h : testCareful s a = true) : Careful s a := by
  simp only [testCareful, Bool.and_eq_true] at h
  obtain ⟨⟨⟨⟨hroom, hinside⟩, hindex⟩, hevents⟩, hlast⟩ := h
  constructor
  case room =>
    cases a with
    | eventLoop site =>
      refine ⟨⟨fun _ _ => List.isEmpty_iff.mp hroom, fun _ _ hresume => ?_, fun _ _ _ hcreate => ?_⟩,
        fun _ _ _ hcreate => ?_⟩
      · cases hresume
      · cases hcreate
      · cases hcreate
    | _ => exact inRoom_of_test hroom
  case inside =>
    intro ha hnil
    rw [ha, hnil] at hinside
    cases hinside
  case index =>
    intro ha
    rw [ha, Bool.not_true, Bool.false_or, Bool.or_eq_true] at hindex
    exact hindex.imp_right .inl
  case events => exact keepsEvents_of_test hevents
  case unused =>
    rintro site rfl
    exact (Bool.not_eq_true' _).mp hlast
  case persistent =>
    rintro site obj garbage timeout persistent rfl
    exact hlast

def carefulRun : List Action :=
  [createCall 1, .socketSetTimeout callSite (.stream (some 3)) 0 5 true, readCall 3, createCall 1,
    yieldCall, .eventLoop callSite, .epollWait [⟨epollIn, 3⟩], .loopStep (.value 7)]

end Phpco
