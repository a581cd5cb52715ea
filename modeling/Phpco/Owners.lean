import Phpco.Disposals

/-!
# Whose registers

In the runs of the well behaved, whichever coroutine runs, waits or called
another one, the registers it has or gets back are its own: its `coro_task`,
its vm stack page and its return value.
-/

namespace Phpco
open Except CidAllocator

def BornKept (log log' : List Event) : Prop :=
  ∀ t b, born log t = some b → born log' t = some b

theorem SameLives.bornKept {log log' : List Event} (h : SameLives log log') :
    BornKept log log' := fun t b hb => by
  rw [h.born]
  exact hb

theorem Disposal.bornKept {s s' : State} {a : Action} (h : Disposal s a s')
    (hrec : TrueRecord s.log s.next) : BornKept s.log s'.log := by
  cases h with
  | keeps _ hk => exact hk.lives.bornKept
  | starts site slots callback t cid retval _ hs =>
    obtain ⟨act, hlog⟩ := hs.log
    intro t' b hb
    have hne : t' ≠ t := by
      rintro rfl
      rw [(hrec.fresh hs.fresh.1).1] at hb
      cases hb
    rw [hlog, born, Function.update_of_ne hne]
    exact hb
  | finishes x rest base t task retval _ _ _ hf =>
    intro t' b hb
    rw [hf.lives.born]
    exact hb

section

variable {log log' : List Event} {task retval : Option Ptr} {eg eg' : ExecutorGlobals}

/-- The registers are those of one coroutine: its outermost frame stands on its own page,
and the return value is its own. -/
structure OwnRegisters (log : List Event) (task retval : Option Ptr) (eg : ExecutorGlobals) :
    Prop where
  frames : eg.currentExecuteData ≠ []
  page : task = some (basePage eg.vm eg.currentExecuteData)
  slot : ∃ cid r, born log (basePage eg.vm eg.currentExecuteData) = some (cid, r) ∧
    retval = some r

theorem OwnRegisters.mono (h : OwnRegisters log task retval eg) (hb : BornKept log log') :
    OwnRegisters log' task retval eg where
  frames := h.frames
  page := h.page
  slot := by
    obtain ⟨cid, r, hborn, hr⟩ := h.slot
    exact ⟨cid, r, hb _ _ hborn, hr⟩

theorem OwnRegisters.keep (h : OwnRegisters log task retval eg) (hk : KeepsFrames eg eg') :
    OwnRegisters log task retval eg' := by
  obtain ⟨hne, hbase⟩ := hk h.frames
  refine ⟨hne, ?_, ?_⟩
  · rw [hbase]
    exact h.page
  · rw [hbase]
    exact h.slot

def CallersOwn (log : List Event) : List Activation → Prop
  | [] => True
  | x :: xs => (xs ≠ [] → ∃ r, x.switch.registers = some r ∧
      OwnRegisters log r.currentCoro r.allocatedReturnValuePtr r.eg) ∧ CallersOwn log xs

theorem CallersOwn.mono {xs : List Activation} (h : CallersOwn log xs) (hb : BornKept log log') :
    CallersOwn log' xs := by
  induction xs with
  | nil => trivial
  | cons x xs ih =>
    refine ⟨fun hne => ?_, ih h.2⟩
    obtain ⟨r, hr, hown⟩ := h.1 hne
    exact ⟨r, hr, hown.mono hb⟩

def SavedOwn (log : List Event) (contexts : Ptr → ContextCell) : Prop :=
  ∀ c ctx call frames, contexts c = .saved ctx → ctx.executeData = call :: frames →
    OwnRegisters log ctx.task ctx.allocatedReturnValuePtr ⟨freeCallFrame ctx.vm call, frames⟩

theorem SavedOwn.mono {contexts contexts' : Ptr → ContextCell} (h : SavedOwn log contexts)
    (hcontexts : ∀ c ctx, contexts' c = .saved ctx → contexts c = .saved ctx)
    (hb : BornKept log log') : SavedOwn log' contexts' :=
  fun c ctx call frames hc hex => (h c ctx call frames (hcontexts c ctx hc) hex).mono hb

end

/-- Whichever coroutine runs, waits or called another one, its registers are its own. -/
structure Owned (s : State) : Prop where
  running : ∀ x rest, s.stack = .activation x :: rest →
    OwnRegisters s.log s.corog.currentCoro s.corog.allocatedReturnValuePtr s.eg
  saved : SavedOwn s.log s.contexts
  callers : CallersOwn s.log (activations s.stack)

theorem owned_initial {s : State} (h : Initial s) : Owned s := by
  obtain ⟨_, _, _, _, rfl⟩ := h
  refine ⟨fun x rest hs => ?_, fun c ctx call frames hc => ?_, trivial⟩
  · cases hs
  · cases hc

theorem Owned.quiet {s s' : State} (h : Owned s) (hq : Quiet s s')
    (hact : activations s'.stack = activations s.stack)
    (hrun : ∀ x rest, s'.stack = .activation x :: rest →
      OwnRegisters s.log s.corog.currentCoro s.corog.allocatedReturnValuePtr s'.eg) : Owned s' := by
  have hb := hq.keeps.lives.bornKept
  refine ⟨fun x rest hs => ?_, ?_, ?_⟩
  · rw [hq.corog]
    exact (hrun x rest hs).mono hb
  · rw [hq.contexts]
    exact h.saved.mono (fun _ _ => id) hb
  · rw [hact]
    exact h.callers.mono hb

theorem Owned.push {s s' : State} {x : Activation} {rest : List CFrame} (h : Owned s)
    (hb : BornKept s.log s'.log) (hs : s'.stack = .activation x :: rest)
    (hact : activations rest = activations s.stack)
    (hcontexts : ∀ c ctx, s'.contexts c = .saved ctx → s.contexts c = .saved ctx)
    (hcaller : activations s.stack ≠ [] → ∃ r, x.switch.registers = some r ∧
      OwnRegisters s.log r.currentCoro r.allocatedReturnValuePtr r.eg)
    (hrun : OwnRegisters s'.log s'.corog.currentCoro s'.corog.allocatedReturnValuePtr s'.eg) :
    Owned s' := by
  refine ⟨fun _ _ _ => hrun, h.saved.mono hcontexts hb, ?_⟩
  rw [hs, activations_cons_activation, hact]
  refine ⟨fun hne => ?_, h.callers.mono hb⟩
  obtain ⟨r, hr, hown⟩ := hcaller hne
  exact ⟨r, hr, hown.mono hb⟩

theorem Owned.pop {s s' : State} {x : Activation} {rest : List CFrame} (h : Owned s)
    (hb : BornKept s.log s'.log) (hs : s.stack = .activation x :: rest)
    (hret : Returned s' x rest) (hsaved : SavedOwn s'.log s'.contexts) : Owned s' := by
  have hcallers := h.callers
  rw [hs] at hcallers
  obtain ⟨hcaller, hrest⟩ := CallersOwn.mono hcallers hb
  refine ⟨fun y rest' hy => ?_, hsaved, ?_⟩
  · have hne : activations rest ≠ [] := by
      rw [← hret.1, hy]
      simp
    obtain ⟨r, hr, hown⟩ := hcaller hne
    have hregs := hret.2 r hr
    rw [← hregs] at hown
    exact hown
  · rw [hret.1]
    exact hrest

/-- `event_loop` is called by the main program only, each `coroutine::resume` names a
coroutine suspended in `coroutine::yield`, and no `coroutine_create` is refused. -/
def Orderly (s : State) (a : Action) : Prop :=
  (∀ site, a = .eventLoop site → activations s.stack = []) ∧
    (∀ site arg, a = .resume site arg → ∃ t c, YieldedUnder s (toInt arg) t c) ∧
    ∀ site slots callback, a = .create site slots callback → ¬ LimitReached s

/-- A call that suspends outside of all coroutines has no next state. -/
theorem Orderly.wellNested {s s' : State} {a : Action} (h : Orderly s a)
    (hstep : step s a = .ok s') : WellNested s a := by
  obtain ⟨hloop, hresume, _⟩ := h
  refine ⟨⟨hloop, fun s₁ hy hnil => ?_⟩, hresume⟩
  obtain ⟨hstack, _⟩ := jump_of_yields hy
  obtain ⟨_, _, rfl, _⟩ | ⟨_, _, _, rfl, _⟩ | ⟨_, _, _, rfl, _⟩ | ⟨_, o, ho, hs⟩ := step_cases hstep
  · cases hy
  · cases hy
  · cases hy
  · cases hy.symm.trans ho
    obtain ⟨x, hx, _⟩ := coroYield_cases hs
    rw [hstack, hnil] at hx
    cases hx

theorem saved_returnFrom {s s' : State} {switch : Switch} {ret : ℤ} (hret : 0 ≤ ret)
    (h : returnFrom s switch ret = .ok s') (c : Ptr) (ctx : PhpContext)
    (hc : s'.contexts c = .saved ctx) : s.contexts c = .saved ctx := by
  cases switch with
  | create frame prevCheckpoint ctx required callback =>
    obtain ⟨buf, tasks, _, _, rfl⟩ := coroutineCreateTail_cases hret h
    exact hc
  | resume frame prevCheckpoint context ctx required =>
    obtain ⟨buf, _, rfl⟩ := coroutineResumeTail_cases h
    exact saved_of_update (by simp) c _ hc
  | invoke fd event context =>
    obtain ⟨_, rfl⟩ := aioInvokeTail_cases h
    exact saved_of_update (by simp) c _ hc

theorem saved_coroYield {s s' : State} (h : coroYield s = .ok s') (c : Ptr) (ctx : PhpContext)
    (hc : s'.contexts c = .saved ctx) : s.contexts c = .saved ctx := by
  obtain ⟨x, stack, _, hret⟩ := coroYield_eq_ok.mp h
  exact saved_returnFrom (by decide) hret c ctx hc

/-- A context that is switched to gives the coroutine its registers back. -/
theorem ownRegisters_cCoroResume {s s' : State} {c : Ptr} {retval : Option Zval} {w : Wait}
    {switch : Switch} (h : SavedOwn s.log s.contexts)
    (hr : cCoroResume s c retval w switch = .ok s') :
    OwnRegisters s'.log s'.corog.currentCoro s'.corog.allocatedReturnValuePtr s'.eg ∧
      (∀ c' ctx, s'.contexts c' = .saved ctx → s.contexts c' = .saved ctx) ∧
      ∃ x, s'.stack = .activation x :: s.stack := by
  obtain ⟨ctx, current, frames, result, hctx, hex, _, _, hj⟩ := cCoroResume_cases hr
  obtain ⟨buf, _, _, rfl⟩ := setjmp_eq_ok.mp hj
  refine ⟨(h c ctx current frames hctx hex).mono ?_, saved_of_update (by simp), _, rfl⟩
  exact (sameLives_cons s.log rfl).bornKept

theorem Starts.ownRegisters {s s' : State} {slots : ℕ} {t : Ptr} {cid : ℤ} {retval : Ptr}
    (h : Starts s slots t cid retval s') (hfits : FrameFits s slots) :
    OwnRegisters s'.log s'.corog.currentCoro s'.corog.allocatedReturnValuePtr s'.eg := by
  have hpage := h.page.mpr hfits
  obtain ⟨act, hlog⟩ := h.log
  refine ⟨h.frames, ?_, cid, retval, ?_, h.slot⟩
  · rw [hpage]
    exact h.currentCoro
  · rw [hpage, hlog]
    exact Function.update_self ..

/-- A coroutine that calls `coroutine_create` or `coroutine::resume` keeps its registers. -/
theorem Owned.caller {s s' : State} {a : Action} {x : Activation} (h : Owned s) (hs : Sched s)
    (hphp : phpRuns s) (ha : s.checkPoint ≠ none → isSwitch s a) (hok : WellNested s a)
    (hstep : step s a = .ok s') (hpush : s'.stack = .activation x :: s.stack)
    (hne : activations s.stack ≠ []) : ∃ r, x.switch.registers = some r ∧
      OwnRegisters s.log r.currentCoro r.allocatedReturnValuePtr r.eg := by
  have hcp : s.checkPoint ≠ none := fun hcp => hne (hs.activations_eq_nil hcp)
  obtain ⟨y, rest, hstack⟩ := activation_of_ne_nil hphp hne
  rcases switch_step hs (ha hcp) hok hstep with ⟨hsame, _⟩ | ⟨x', hx', hr⟩
  · rw [hpush] at hsame
    exact absurd hsame (List.cons_ne_self _ _)
  · cases hpush.symm.trans hx'
    exact ⟨registers s, hr, h.running y rest hstack⟩

/-- A coroutine is suspended: the context has its registers. -/
theorem Owned.suspend {s s₁ s' : State} {x : Activation} {rest : List CFrame} (h : Owned s) (hs : s.stack = .activation x :: rest)
    (hl : Links (activations s.stack) s.checkPoint s.jmpBufs s.corog.currentCoro)
    (hstack : s₁.stack = s.stack) (hcp : s₁.checkPoint = s.checkPoint)
    (hbufs : s₁.jmpBufs = s.jmpBufs) (hcorog : s₁.corog = s.corog)
    (hcontexts : ∃ (t : State) (site : CallSite) (c : Ptr), t.corog = s.corog ∧
      t.eg = (enterCall s site).eg ∧
      s₁.contexts = Function.update s.contexts c (.saved (coroSave t)))
    (hb : BornKept s.log s'.log) (hc : coroYield s₁ = .ok s') : Owned s' := by
  obtain ⟨t, site, c, ht, heg, hctx⟩ := hcontexts
  have hret : Returned s' x rest := by
    refine returned_coroYield (hstack.trans hs) ?_ hc
    rw [hstack, hcp, hbufs, hcorog]
    exact hl
  refine h.pop hb hs hret fun c' ctx call frames hc' hex => ?_
  have hsaved := saved_coroYield hc c' ctx hc'
  rw [hctx] at hsaved
  rcases saved_of_update_saved hsaved with rfl | hsaved
  · simp only [coroSave, heg, enterCall, List.cons.injEq] at hex
    obtain ⟨rfl, rfl⟩ := hex
    have hrun := (h.running x rest hs).mono hb
    rw [coroSave, ht, heg]
    exact (caller_callFrame s site).symm ▸ hrun
  · exact (h.saved c' ctx call frames hsaved hex).mono hb

theorem owned_step {s s' : State} {a : Action} (hr : TableWf s.rg) (hs : Sched s) (hh : Hosted s)
    (hrec : TrueRecord s.log s.next) (h : Owned s) (hok : Orderly s a)
    (hfits : ∀ site slots callback, a = .create site slots callback → FrameFits s slots)
    (hstep : step s a = .ok s') : Owned s' := by
  have hwell := hok.wellNested hstep
  have hb := (disposal_step hr hok.2.2 hstep).bornKept hrec
  have hloops := hh.loops
  cases step_move hr hstep with
  | quiet hq hstack hk =>
    refine h.quiet hq (by rw [hstack]) fun x rest hx => ?_
    exact (h.running x rest (hstack.symm.trans hx)).keep hk
  | enterLoop site ha hphp hq hs' =>
    refine h.quiet hq (by rw [hs']; rfl) fun x rest hx => ?_
    cases hs'.symm.trans hx
  | loop l l' stack hq hstack hs' _ _ =>
    refine h.quiet hq (by rw [hstack, hs']; rfl) fun x rest hx => ?_
    cases hs'.symm.trans hx
  | leaveLoop l stack hq hstack hs' _ =>
    refine h.quiet hq (by rw [hstack, hs']; rfl) fun x rest hx => ?_
    -- only the main program called the event_loop
    rw [hstack] at hloops
    have hnil := hloops.1
    rw [hs'.symm.trans hx] at hnil
    cases hnil
  | invoke l l' stack fd ev c v hstack _ _ _ _ hres =>
    rw [hstack] at hloops
    obtain ⟨hown, hcontexts, x, hpush⟩ := ownRegisters_cCoroResume (s := { s with
      rg := invokeTable s.rg fd
      stack := .eventLoop l' :: stack }) h.saved hres
    refine h.push hb hpush (by rw [hstack]; rfl) hcontexts (fun hne => absurd ?_ hne) hown
    rw [hstack]
    exact hloops.1
  | create site slots callback ha hphp hc =>
    obtain ⟨t, cid, retval, hst⟩ := starts_create (hok.2.2 site slots callback ha) hc
    obtain ⟨x, hpush⟩ := hst.stack
    refine h.push hb hpush rfl (fun c ctx hctx => ?_) (h.caller hs hphp ?_ hwell hstep hpush) ?_
    · rw [hst.contexts] at hctx
      exact hctx
    · rw [ha]
      exact id
    · exact hst.ownRegisters (hfits site slots callback ha)
  | resume site arg c ha hphp _ _ hres =>
    obtain ⟨hown, hcontexts, x, hpush⟩ :=
      ownRegisters_cCoroResume (s := newCheckPoint (enterCall s site)) h.saved hres
    refine h.push hb hpush rfl hcontexts (h.caller hs hphp (fun _ => ?_) hwell hstep hpush) hown
    rw [ha]
    trivial
  | yield site s₁ ha hphp hy hc =>
    subst ha
    obtain ⟨x, rest, hstack⟩ := activation_of_ne_nil hphp (hwell.1.2 s₁ (phpStep_yield hy))
    obtain ⟨t, task, _, _, _, hs₁⟩ := coroutineYield_cases hy
    refine h.suspend hstack hs.links ?_ ?_ ?_ ?_
      ⟨enterCall s site, site, (enterCall s site).next, rfl, rfl, ?_⟩ hb hc
    all_goals
      rw [hs₁]
      rfl
  | block fd c s₁ _ hphp ho hbl hc =>
    obtain ⟨x, rest, hstack⟩ := activation_of_ne_nil hphp (hwell.1.2 s₁ ho)
    obtain ⟨site, heg⟩ := hbl.eg
    exact h.suspend hstack hs.links hbl.stack hbl.checkPoint hbl.jmpBufs hbl.corog
      ⟨s₁, site, c, hbl.corog, heg, hbl.contexts⟩ hb hc
  | finish x rest base s₁ _ hstack _ hc hret =>
    obtain ⟨t, task, retval, _, _, _, hs₁⟩ := coroClose_eq_ok.mp hc
    have hrest := (returnFrom_cases (by decide) hret).1
    have hreturned : Returned s' x rest :=
      ⟨hrest.trans (by rw [hs₁]), fun r hr => registers_returnFrom (by decide) hr hret⟩
    refine h.pop hb hstack hreturned (h.saved.mono (fun c ctx hctx => ?_) hb)
    have hctx' := saved_returnFrom (by decide) hret c ctx hctx
    rw [hs₁] at hctx'
    exact hctx'

/-- A `coroutine_create` finds a free cid, and the frame of its callback fits on the page
of the new coroutine. -/
def HasRoom (s : State) (a : Action) : Prop :=
  ∀ site slots callback, a = .create site slots callback →
    s.cids.cidmap.nrFree ≠ 0 ∧ FrameFits s slots

/-- Every coroutine has its own registers, and the cids and pages in use are those of the
coroutines that are not closed. -/
structure Ledger (s : State) : Prop where
  owned : Owned s
  recorded : TrueRecord s.log s.next
  cids : ∀ n : ℕ, s.cids.held n = true → ∃ t, cidOf s.log t = some ((n : ℤ) + 1)
  pages : ∀ p, s.tasks p ≠ none → cidOf s.log p ≠ none

theorem Ledger.finishes {s s' : State} {x : Activation} {rest : List CFrame} {base : ExecuteData}
    {t : Ptr} {task : CoroTask} {retval : Ptr} (h : Ledger s) (hs : Sched s) (hh : Hosted s)
    (hstack : s.stack = .activation x :: rest) (hex : s.eg.currentExecuteData = [base])
    (hf : Finishes s t task retval s') : s.eg.vm.stack = t ∧ cidOf s.log t = some task.cid ∧
      born s.log t = some (task.cid, retval) ∧ status s.log t = .running x.id := by
  have hrun := h.owned.running x rest hstack
  have hpage := hrun.page
  obtain ⟨cid, r, hborn, hr⟩ := hrun.slot
  rw [hex] at hpage hborn
  change _ = some s.eg.vm.stack at hpage
  change born s.log s.eg.vm.stack = _ at hborn
  obtain rfl : s.eg.vm.stack = t := Option.some.inj (hpage.symm.trans hf.currentCoro)
  obtain rfl : r = retval := Option.some.inj (hr.symm.trans hf.slot)
  have hcore := hs.core
  rw [hstack] at hcore
  have htask : x.task = some s.eg.vm.stack := (hh.current hstack hs.links).symm.trans hf.currentCoro
  have hcid := hs.cidOf_eq hcore htask hf.coroTask
  obtain ⟨r', hborn'⟩ := h.recorded.named _ _ hcid
  obtain ⟨rfl, rfl⟩ : cid = task.cid ∧ r = r' := by
    simpa using hborn.symm.trans hborn'
  exact ⟨rfl, hcid, hborn, hcore.status_head htask⟩

theorem Ledger.starts {s s' : State} {slots : ℕ} {t : Ptr} {cid : ℤ} {retval : Ptr}
    (h : Ledger s) (howned : Owned s') (hst : Starts s slots t cid retval s') : Ledger s' := by
  obtain ⟨act, hlog⟩ := hst.log
  obtain ⟨hle, htr, hrn⟩ := hst.fresh
  have hnew := (h.recorded.fresh hle).2
  have hold : ∀ t' cid', cidOf s.log t' = some cid' → cidOf s'.log t' = some cid' := by
    intro t' cid' hc
    have hne : t' ≠ t := by
      rintro rfl
      rw [hnew] at hc
      cases hc
    rw [hlog, cidOf_created, Function.update_of_ne hne]
    exact hc
  refine ⟨howned, ?_, fun n hn => ?_, fun p hp => ?_⟩
  · rw [hlog]
    exact h.recorded.created hle (hle.trans htr.le) (htr.trans hrn) hrn
      (hle.trans (htr.trans hrn).le)
  · rcases allocCidmap_cases hst.alloc with ⟨_, hheld⟩ | ⟨k, _, hk, _, _, hheld, _⟩
    · rw [hheld] at hn
      obtain ⟨t', ht'⟩ := h.cids n hn
      exact ⟨t', hold t' _ ht'⟩
    · rw [hheld] at hn
      split_ifs at hn with hnk
      · refine ⟨t, ?_⟩
        rw [hlog, cidOf_created, Function.update_self, hk, hnk]
      · obtain ⟨t', ht'⟩ := h.cids n hn
        exact ⟨t', hold t' _ ht'⟩
  · rw [hst.tasks] at hp
    rw [hlog, cidOf_created]
    by_cases hpt : p = t
    · simp [hpt]
    · rw [Function.update_of_ne hpt] at hp ⊢
      exact h.pages p hp

theorem Ledger.finished {s s' : State} {t : Ptr} {task : CoroTask} {retval : Ptr} (h : Ledger s)
    (howned : Owned s') (hf : Finishes s t task retval s') (hpage : s.eg.vm.stack = t)
    (hcid : cidOf s.log t = some task.cid) (hborn : born s.log t = some (task.cid, retval))
    (hheld : ∀ n : ℕ, s'.cids.held n = true → s.cids.held n = true ∧ (n : ℤ) + 1 ≠ task.cid) :
    Ledger s' := by
  have hlog := hf.lives
  rw [hpage] at hlog
  refine ⟨howned, (h.recorded.close hcid hborn).mono hlog hf.next, fun n hn => ?_, fun p hp => ?_⟩
  · obtain ⟨hn, hne⟩ := hheld n hn
    obtain ⟨t', ht'⟩ := h.cids n hn
    have htt : t' ≠ t := by
      rintro rfl
      exact hne (Option.some.inj (ht'.symm.trans hcid))
    refine ⟨t', ?_⟩
    rw [hlog.cidOf, cidOf_closed, Function.update_of_ne htt]
    exact ht'
  · have hnot := mt (hf.tasks p).mpr hp
    rw [hpage, not_or] at hnot
    rw [hlog.cidOf, cidOf_closed, Function.update_of_ne hnot.1]
    exact h.pages p hnot.2

/-- `free_cidmap` gives back the position of the cid, or none for the cid -1. -/
theorem held_freeCidmap_of_cidHeld {a : CidAllocator} {cid : ℤ}
    (h : cid = -1 ∨ ∃ n : ℕ, n < 0x8000 ∧ cid = n + 1 ∧ a.held n = true) (k : ℕ) :
    (freeCidmap cid a).held k = true ↔ a.held k = true ∧ (k : ℤ) + 1 ≠ cid := by
  rcases h with rfl | ⟨n, _, rfl, _⟩
  · rw [held_freeCidmap_neg_one]
    have hne : (k : ℤ) + 1 ≠ -1 := by omega
    simp [hne]
  · rw [held_freeCidmap]
    by_cases hk : k = n
    · simp [hk]
    · rw [if_neg hk]
      exact ⟨fun hheld => ⟨hheld, by omega⟩, And.left⟩

theorem ledger_step {s s' : State} {a : Action} (hr : TableWf s.rg) (hs : Sched s) (hh : Hosted s)
    (h : Ledger s) (hok : Orderly s a)
    (hfits : ∀ site slots callback, a = .create site slots callback → FrameFits s slots)
    (hstep : step s a = .ok s') : Ledger s' := by
  have howned := owned_step hr hs hh h.recorded h.owned hok hfits hstep
  cases disposal_step hr hok.2.2 hstep with
  | keeps _ hk =>
    refine ⟨howned, h.recorded.mono hk.lives hk.next, ?_, fun p hp => ?_⟩
    · rw [hk.cids, hk.lives.cidOf]
      exact h.cids
    · rw [hk.lives.cidOf]
      exact h.pages p (mt (hk.tasks.eq_none_iff p).mpr hp)
  | starts site slots callback t cid retval _ hst => exact h.starts howned hst
  | finishes x rest base t task retval _ hstack hex hf =>
    obtain ⟨hpage, hcid, hborn, _⟩ := h.finishes hs hh hstack hex hf
    refine h.finished howned hf hpage hcid hborn fun n hn => ?_
    rw [hf.cids] at hn
    exact (held_freeCidmap_of_cidHeld (hs.core.cidHeld t _ hcid) n).mp hn

theorem ledger_initial {s : State} (h : Initial s) : Ledger s := by
  have howned := owned_initial h
  obtain ⟨_, _, _, _, rfl⟩ := h
  refine ⟨howned, trueRecord_nil _, fun n hn => ?_, fun p hp => ?_⟩
  · simp [initial, held, CidAllocator.initial, bitAt] at hn
  · exact absurd rfl hp

end Phpco
