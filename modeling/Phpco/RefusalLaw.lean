import Phpco.CidLaw

/-!
# When no coroutine can be started

`coroutine_create` looks for a negative status, and `CORO_LIMIT` is positive:
it does not refuse, but answers `TRUE` and keeps the cid that `c_coro_create`
took.
-/

namespace Phpco
open Except CidAllocator Transition

/-- The limit is reached, or no cid is free. -/
def CannotStart (s : State) : Prop :=
  (ensureInit s).corog.maxCoroNum ≤ (ensureInit s).corog.coroNum ∨ s.cids.cidmap.nrFree = 0

instance (s : State) : Decidable (CannotStart s) := inferInstanceAs (Decidable (_ ∨ _))

/-- `coroutine_create` returned `FALSE`, ran nothing and left the state as it was. -/
structure Refused (s s' : State) : Prop where
  returned : s'.log = .returned (.bool false) :: s.log
  stack : s'.stack = s.stack
  eg : s'.eg = s.eg
  currentCoro : s'.corog.currentCoro = s.corog.currentCoro
  checkPoint : s'.checkPoint = s.checkPoint
  coroNum : s'.corog.coroNum = s.corog.coroNum
  cids : s'.cids = s.cids
  tasks : s'.tasks = s.tasks

/-- `coroutine_create` returned `TRUE`, ran nothing, and lost a cid; the coroutine that
called it, if one did, refers to the new callback. -/
structure LostCid (s s' : State) (callback : Zval) : Prop where
  returned : s'.log = .returned (.bool true) :: s.log
  stack : s'.stack = s.stack
  eg : s'.eg = s.eg
  currentCoro : s'.corog.currentCoro = s.corog.currentCoro
  checkPoint : s'.checkPoint = s.checkPoint
  coroNum : s'.corog.coroNum = s.corog.coroNum
  nrFree : s'.cids.cidmap.nrFree ≠ s.cids.cidmap.nrFree
  function : ∀ t, s.corog.currentCoro = some t →
    ∃ task, s'.tasks t = some task ∧ task.function = some callback

/-- A coroutine runs under cid -1. -/
def RunsWithoutCid (s s' : State) : Prop :=
  ∃ t retval act, s'.log = .created t (-1) retval act :: s.log

theorem not_refused_of_lostCid {s s' : State} {callback : Zval} (h : LostCid s s' callback) :
    ¬ Refused s s' := by
  intro hr
  have hlog := h.returned.symm.trans hr.returned
  simp at hlog

theorem not_refused_of_runsWithoutCid {s s' : State} (h : RunsWithoutCid s s') :
    ¬ Refused s s' := by
  intro hr
  obtain ⟨t, retval, act, hlog⟩ := h
  have hlog := hlog.symm.trans hr.returned
  simp at hlog

theorem nrFree_ne_of_allocCidmap {a a' : CidAllocator} {cid : ℤ}
    (h : allocCidmap a = some (cid, a')) (hcid : cid ≠ -1) :
    a'.cidmap.nrFree ≠ a.cidmap.nrFree := by
  rcases allocCidmap_cases h with ⟨hm, _⟩ | ⟨n, _, _, _, hfree, _, hnr, _⟩
  · exact absurd hm hcid
  · omega

theorem setFunction_current {s s' : State} {callback : Zval} {t : Ptr}
    (h : setFunction s callback = .ok s') (hcur : s.corog.currentCoro = some t) :
    ∃ task, s'.tasks t = some task ∧ task.function = some callback := by
  simp only [setFunction, hcur] at h
  obtain ⟨task, _, h⟩ := bind_eq_ok.mp h
  cases h
  exact ⟨{ task with function := some callback }, Function.update_self .., rfl⟩

/-- The function field that `coroutine_create` sets is the calling coroutine's. -/
theorem coroutineCreateTail_function {s s' : State} {frame : InternalCall}
    {prevCheckpoint : Option Ptr} {ctx : PhpContext} {required : Bool} {callback : Zval} {ret : ℤ}
    {t : Ptr} (h : coroutineCreateTail s frame prevCheckpoint ctx required callback ret = .ok s')
    (hcur : s.corog.currentCoro = some t) :
    ∃ task, s'.tasks t = some task ∧ task.function = some callback := by
  unfold coroutineCreateTail at h
  obtain ⟨s₁, hs₁, h⟩ := bind_eq_ok.mp h
  obtain ⟨buf, _, h⟩ := bind_eq_ok.mp h
  have htask := setFunction_current hs₁ hcur
  split_ifs at h <;> cases h <;> exact htask

theorem lostCid_of_limit {s s' : State} {site : CallSite} {callback : Zval} {cid : ℤ}
    {cids : CidAllocator} (ha : allocCidmap s.cids = some (cid, cids)) (hcid : cid ≠ -1)
    (h : coroutineCreateTail { newCheckPoint (enterCall s site) with cids := cids }
      (callFrame s site) (enterCall s site).checkPoint (coroSave (enterCall s site))
      (enterCall s site).corog.require callback coroLimit = .ok s') : LostCid s s' callback := by
  have hfunction : ∀ t, s.corog.currentCoro = some t →
      ∃ task, s'.tasks t = some task ∧ task.function = some callback :=
    fun t ht => coroutineCreateTail_function h ht
  obtain ⟨buf, tasks, _, _, rfl⟩ := coroutineCreateTail_cases (by decide) h
  refine ⟨rfl, rfl, ?_, rfl, rfl, rfl, nrFree_ne_of_allocCidmap ha hcid, hfunction⟩
  simp [backInCaller, coroSave, enterCall, callFrame]

/-- The first call of `coroutine_create` is below the limit. -/
theorem checkPoint_of_limit {s : State}
    (h : (ensureInit s).corog.maxCoroNum ≤ (ensureInit s).corog.coroNum) : s.checkPoint ≠ none := by
  intro hcp
  rw [ensureInit, if_pos hcp] at h
  simp only [coroInit] at h
  split_ifs at h with hmax
  · exact absurd h (by decide)
  · omega

theorem create_cannotStart {s s' : State} {site : CallSite} {slots : ℕ} {callback : Zval}
    (hno : CannotStart s) (h : step s (.create site slots callback) = .ok s') :
    LostCid s s' callback ∨ RunsWithoutCid s s' := by
  obtain ⟨_, hc⟩ := step_create h
  obtain ⟨hcoroNum, hmax, _, _, _⟩ := ensureInit_enterCall s site
  obtain ⟨cid, cids, ha, ⟨hlimit, hcid, ht⟩ | ⟨hstart, hj⟩⟩ := coroutineCreate_cases hc
  · left
    have hi : ensureInit (enterCall s site) = enterCall s site :=
      ensureInit_of_checkPoint (checkPoint_of_limit hlimit)
    rw [hi] at ha ht
    exact lostCid_of_limit ha hcid ht
  · right
    have hm : cid = -1 := by
      rcases hstart with hlt | hm
      · rw [hcoroNum, hmax] at hlt
        have hfree : (ensureInit (enterCall s site)).cids.cidmap.nrFree = 0 := by
          rw [ensureInit_cids]
          exact hno.resolve_left (not_le.mpr hlt)
        rw [allocCidmap, if_pos hfree] at ha
        exact (congrArg Prod.fst (Option.some.inj ha)).symm
      · exact hm
    obtain ⟨buf, _, _, rfl⟩ := setjmp_eq_ok.mp hj
    subst hm
    exact ⟨_, _, _, congrArg (List.cons _) (ensureInit_log (enterCall s site))⟩

/-- `coroutine_create` refuses in no state in which no coroutine can be started. -/
theorem create_never_refuses {s : State} (hno : CannotStart s) (site : CallSite) (slots : ℕ)
    (callback : Zval) :
    (¬ ∃ s', step s (.create site slots callback) = .ok s' ∧ Refused s s') ∧
    ∀ s', step s (.create site slots callback) = .ok s' →
      LostCid s s' callback ∨ RunsWithoutCid s s' := by
  refine ⟨?_, fun s' => create_cannotStart hno⟩
  rintro ⟨s', hs', hr⟩
  rcases create_cannotStart hno hs' with hlost | hruns
  · exact not_refused_of_lostCid hlost hr
  · exact not_refused_of_runsWithoutCid hruns hr

theorem AtMain.cannotStart {s : State} {free : ℕ} (h : AtMain s 3000 free) : CannotStart s :=
  .inl (by rw [h.coroNum, h.maxCoroNum])

def limitRun : List Action := (List.replicate 3000 [createCall 1, yieldCall]).flatten

theorem exists_limitRun : ∃ s s', runFrom step (initial 0 0) limitRun = .ok s ∧
    AtMain s 3000 29768 ∧ step s (createCall 1) = .ok s' := by
  obtain ⟨s, hrun, h⟩ := atMain_initial.exists_started 29768 3000 (by omega)
  obtain ⟨s', hs', _⟩ := h.refused 29767
  exact ⟨s, s', hrun, h, hs'⟩

theorem create_never_refuses_limit : ∃ s s', runFrom step (initial 0 0) limitRun = .ok s ∧
    step s (createCall 1) = .ok s' ∧ (LostCid s s' (.value 1) ∨ RunsWithoutCid s s') := by
  obtain ⟨s, s', hrun, h, hs'⟩ := exists_limitRun
  exact ⟨s, s', hrun, hs',
    (create_never_refuses h.cannotStart callSite 8 (.value 1)).2 s' hs'⟩

/-- `coroutine_create` answers `TRUE` at the limit. -/
theorem limit_not_refused : ∃ s s', runFrom step (initial 0 0) limitRun = .ok s ∧
    Reached (fun _ _ => True) s ∧ CannotStart s ∧ step s (createCall 1) = .ok s' ∧
    ¬ Refused s s' := by
  obtain ⟨s, s', hrun, h, hs'⟩ := exists_limitRun
  have hinit : Reached (fun _ _ => True) (initial 0 0) :=
    .init ⟨0, by decide, 0, by decide, rfl⟩
  refine ⟨s, s', hrun, hinit.run hrun, h.cannotStart, hs', fun hr => ?_⟩
  rcases create_cannotStart h.cannotStart hs' with hlost | hruns
  · exact not_refused_of_lostCid hlost hr
  · exact not_refused_of_runsWithoutCid hruns hr

end Phpco
