import Phpco.SchedulerRuns

/-!
# Counting coroutines

`coro_num` counts the coroutines that are not closed and their cids are those
taken in the cidmap, as long as every `coroutine_create` finds a free cid.
-/

namespace Phpco
open Except CidAllocator Transition

structure SameCounts (s s' : State) : Prop where
  coroNum : s'.corog.coroNum = s.corog.coroNum
  maxCoroNum : s'.corog.maxCoroNum = s.corog.maxCoroNum
  cids : s'.cids = s.cids
  live : liveTasks s'.log = liveTasks s.log
  cidOf : cidOf s'.log = cidOf s.log

theorem SameCounts.trans {s₁ s₂ s₃ : State} (h : SameCounts s₁ s₂) (h' : SameCounts s₂ s₃) :
    SameCounts s₁ s₃ :=
  ⟨h'.coroNum.trans h.coroNum, h'.maxCoroNum.trans h.maxCoroNum, h'.cids.trans h.cids,
    h'.live.trans h.live, h'.cidOf.trans h.cidOf⟩

theorem Quiet.sameCounts {s s' : State} (h : Quiet s s') : SameCounts s s' := by
  obtain ⟨vs, hlog⟩ := h.log
  exact ⟨by rw [h.corog], by rw [h.corog], h.cids, by rw [hlog, liveTasks_returned],
    by rw [hlog, cidOf_returned]⟩

theorem sameCounts_cCoroResume {s s' : State} {c : Ptr} {retval : Option Zval} {w : Wait}
    {switch : Switch} (h : cCoroResume s c retval w switch = .ok s') : SameCounts s s' := by
  have hu := unswitched_cCoroResume h
  obtain ⟨t, act, result, hlog⟩ := log_cCoroResume h
  refine ⟨hu.coroNum, hu.maxCoroNum, hu.cids, ?_, ?_⟩
  · rw [hlog]
    rfl
  · rw [hlog]
    rfl

theorem sameCounts_returnFrom {s s' : State} {switch : Switch} {ret : ℤ} (hret : 0 ≤ ret)
    (h : returnFrom s switch ret = .ok s') : SameCounts s s' := by
  obtain ⟨hu, _⟩ := unswitched_returnFrom hret h
  obtain ⟨vs, hlog⟩ := returned_of_log (log_returnFrom hret h)
  exact ⟨hu.coroNum, hu.maxCoroNum, hu.cids, by rw [hlog, liveTasks_returned],
    by rw [hlog, cidOf_returned]⟩

theorem sameCounts_coroYield {s s' : State} (h : coroYield s = .ok s') : SameCounts s s' := by
  obtain ⟨x, stack, _, hret⟩ := coroYield_eq_ok.mp h
  have h := sameCounts_returnFrom (by decide) hret
  exact ⟨h.coroNum, h.maxCoroNum, h.cids, h.live, h.cidOf⟩

/-- `coro_num` is the number of coroutines that are not closed, it respects the limit,
and their cids are distinct cids of the cidmap. -/
structure CidLaw (s : State) : Prop where
  coroNum : s.corog.coroNum = (liveTasks s.log).length
  limit : s.corog.coroNum ≤ s.corog.maxCoroNum
  distinct : ((liveTasks s.log).map (cidOf s.log)).Nodup
  range : ∀ t ∈ liveTasks s.log, ∃ task, s.tasks t = some task ∧
    cidOf s.log t = some task.cid ∧ 1 ≤ task.cid ∧ task.cid ≤ 32768

/-- The counter, the limit, the cidmap and the coroutines agree. -/
structure Counted (s : State) : Prop where
  coroNum : s.corog.coroNum = (liveTasks s.log).length
  limit : s.corog.coroNum ≤ s.corog.maxCoroNum
  maxCoroNum : s.corog.maxCoroNum < 2 ^ 32
  cids : s.cids.Counts
  nodup : (liveTasks s.log).Nodup
  mem : ∀ t, t ∈ liveTasks s.log ↔ cidOf s.log t ≠ none
  numbered : ∀ t, cidOf s.log t ≠ some (-1)
  uninit : s.checkPoint = none → liveTasks s.log = []

theorem Counted.congr {s s' : State} (h : Counted s) (hs : SameCounts s s')
    (hcp : s'.checkPoint = none → s.checkPoint = none) : Counted s' where
  coroNum := by rw [hs.coroNum, hs.live]; exact h.coroNum
  limit := by rw [hs.coroNum, hs.maxCoroNum]; exact h.limit
  maxCoroNum := by rw [hs.maxCoroNum]; exact h.maxCoroNum
  cids := by rw [hs.cids]; exact h.cids
  nodup := by rw [hs.live]; exact h.nodup
  mem := by rw [hs.live, hs.cidOf]; exact h.mem
  numbered := by rw [hs.cidOf]; exact h.numbered
  uninit := fun hn => by rw [hs.live]; exact h.uninit (hcp hn)

theorem Counted.cidLaw {s : State} (h : Counted s) (hs : Sched s) : CidLaw s where
  coroNum := h.coroNum
  limit := h.limit
  distinct := by
    refine List.Nodup.map_on (fun t ht t' ht' heq => ?_) h.nodup
    obtain ⟨cid, hcid⟩ := Option.ne_none_iff_exists'.mp ((h.mem t).mp ht)
    have hne : cid ≠ -1 := fun hm => h.numbered t (hm ▸ hcid)
    exact hs.core.cidInj t t' cid hcid (heq.symm.trans hcid) hne
  range := by
    intro t ht
    obtain ⟨cid, hcid⟩ := Option.ne_none_iff_exists'.mp ((h.mem t).mp ht)
    obtain ⟨task, htask, rfl⟩ := Option.map_eq_some_iff.mp (hs.tasks t cid hcid)
    refine ⟨task, htask, hcid, ?_⟩
    rcases hs.core.cidHeld t _ hcid with hm | ⟨n, hn, hm, _⟩
    · exact absurd (hm ▸ hcid) (h.numbered t)
    · omega

theorem Counted.ensureInit {s : State} (h : Counted s) : Counted (ensureInit s) := by
  rcases ensureInit_cases s with ⟨_, he⟩ | ⟨hn, he⟩
  · rw [he]
    exact h
  · rw [he]
    have hmax : (coroInit s).corog.maxCoroNum < 2 ^ 32 := by
      simp only [coroInit]
      split_ifs
      · decide
      · exact h.maxCoroNum
    refine ⟨?_, Nat.zero_le _, hmax, h.cids, h.nodup, h.mem, h.numbered, fun hn => ?_⟩
    · change 0 = (liveTasks s.log).length
      rw [h.uninit hn]
      rfl
    · simp [coroInit] at hn

theorem Counted.started {s s' : State} {t act retval : Ptr} {n : ℕ} (h : Counted s)
    (hnew : t ∉ liveTasks s.log) (hnum : s.corog.coroNum < s.corog.maxCoroNum)
    (hcids : s'.cids.Counts)
    (hcoroNum : s'.corog.coroNum = (s.corog.coroNum + 1) % 2 ^ 32)
    (hmax : s'.corog.maxCoroNum = s.corog.maxCoroNum)
    (hlog : s'.log = .created t (n + 1) retval act :: s.log) (hcp : s'.checkPoint ≠ none) :
    Counted s' := by
  have hlt := h.maxCoroNum
  have hnum' : s'.corog.coroNum = s.corog.coroNum + 1 := by omega
  refine ⟨?_, by omega, by omega, hcids, ?_, fun t' => ?_, fun t' => ?_, fun hn => absurd hn hcp⟩
  · rw [hnum', hlog, h.coroNum]
    rfl
  · rw [hlog]
    exact List.nodup_cons.mpr ⟨hnew, h.nodup⟩
  · rw [hlog]
    by_cases htt : t' = t
    · simp [htt, liveTasks]
    · simpa [htt, liveTasks] using h.mem t'
  · rw [hlog]
    by_cases htt : t' = t
    · simp only [htt, cidOf_created, Function.update_self, ne_eq, Option.some.injEq]
      omega
    · simpa [htt] using h.numbered t'

def FreeCid (s : State) (a : Action) : Prop :=
  ∀ site slots callback, a = .create site slots callback → s.cids.cidmap.nrFree ≠ 0

theorem counted_create {s s' : State} {frame : InternalCall} {slots : ℕ} {callback : Zval}
    (h : Counted s) (hs : Sched s) (hfree : s.cids.cidmap.nrFree ≠ 0)
    (hc : coroutineCreate s frame slots callback = .ok s') : Counted s' := by
  have hi := h.ensureInit
  have hlog := ensureInit_log s
  have hnext := le_next_ensureInit s
  have hcp := checkPoint_ensureInit s
  have hcids := ensureInit_cids s
  obtain ⟨cid, cids, ha, hcase⟩ := coroutineCreate_cases hc
  have hcounts := hi.cids.alloc_counts (hcids ▸ hfree) ha
  have hcid : ∃ n : ℕ, cid = n + 1 := by
    obtain ⟨n, _, a', ha'⟩ := hi.cids.alloc (hcids ▸ hfree)
    rw [ha] at ha'
    exact ⟨n, congrArg Prod.fst (Option.some.inj ha')⟩
  obtain ⟨n, rfl⟩ := hcid
  obtain ⟨_, _, ht⟩ | ⟨hnum, hj⟩ := hcase
  · obtain ⟨buf, tasks, _, _, rfl⟩ := coroutineCreateTail_cases (by decide) ht
    exact ⟨hi.coroNum, hi.limit, hi.maxCoroNum, hcounts.1, hi.nodup, hi.mem, hi.numbered,
      fun hn => absurd hn hcp⟩
  · obtain ⟨buf, hbuf, _, rfl⟩ := setjmp_eq_ok.mp hj
    -- a coroutine starts below the limit only, as its cid is not -1
    have hlt : (ensureInit s).corog.coroNum < (ensureInit s).corog.maxCoroNum := by
      rcases hnum with hnum | hm
      · exact hnum
      · omega
    refine hi.started (t := (ensureInit s).next + 1) (n := n) (fun hmem => ?_) hlt hcounts.1 rfl rfl
      rfl (by simp [startTask, newCheckPoint])
    -- the page of the coroutine is fresh
    rw [hi.mem, hlog] at hmem
    exact hmem ((hs.core.live _).mpr (.inl (hs.core.fresh _ (hnext.trans (Nat.le_succ _))).1))

theorem Counted.closed {s s' : State} {t page retval : Ptr} {n : ℕ} (h : Counted s)
    (hcid : cidOf s.log t = some ((n : ℤ) + 1)) (hn : n < 0x8000) (hheld : s.cids.held n = true)
    (hcids : s'.cids = freeCidmap (n + 1) s.cids)
    (hcoroNum : s'.corog.coroNum = (s.corog.coroNum + (2 ^ 32 - 1)) % 2 ^ 32)
    (hmax : s'.corog.maxCoroNum = s.corog.maxCoroNum)
    (hlog : s'.log = .closed t (n + 1) page retval :: s.log)
    (hcp : s'.checkPoint = none → s.checkPoint = none) : Counted s' := by
  have hmem : t ∈ liveTasks s.log := (h.mem t).mpr (by simp [hcid])
  have hlive : liveTasks s'.log = (liveTasks s.log).erase t := by rw [hlog]; rfl
  -- the counter wraps, but at least the closed coroutine was counted
  have hlen := List.length_erase_of_mem hmem
  have hpos := List.length_pos_of_mem hmem
  have hnum := h.coroNum
  have hlimit := h.limit
  have hlt := h.maxCoroNum
  refine ⟨?_, by omega, by omega, ?_, ?_, fun t' => ?_, fun t' => ?_, fun hn => ?_⟩
  · rw [hlive, hlen, hcoroNum]
    omega
  · rw [hcids]
    exact h.cids.free hn hheld
  · rw [hlive]
    exact h.nodup.erase t
  · rw [hlive, h.nodup.mem_erase_iff, hlog]
    by_cases htt : t' = t
    · simp [htt]
    · simpa [htt] using h.mem t'
  · rw [hlog]
    by_cases htt : t' = t
    · simp [htt]
    · simpa [htt] using h.numbered t'
  · rw [hlive, h.uninit (hcp hn)]
    rfl

theorem counted_finish {s s₁ s' : State} {x : Activation} {stack : List CFrame} (h : Counted s)
    (hs : Sched s) (hstack : s.stack = .activation x :: stack) (hcur : s.corog.currentCoro = x.task)
    (hc : coroClose { s with eg := ⟨s.eg.vm, []⟩, stack := stack } = .ok s₁)
    (hret : returnFrom s₁ x.switch coroEnd = .ok s')
    (hcp : s'.checkPoint = none → s.checkPoint = none) : Counted s' := by
  obtain ⟨t, task, retval, hcur', htask, _, hs₁⟩ := coroClose_eq_ok.mp hc
  have hcore := hs.core
  rw [hstack] at hcore
  have hcid : cidOf s.log t = some task.cid := hs.cidOf_eq hcore (hcur.symm.trans hcur') htask
  -- cid -1 is excluded, so the cid of the coroutine is one of the bitmap
  obtain ⟨n, hn, htn, hheld⟩ : ∃ n : ℕ, n < 0x8000 ∧ task.cid = n + 1 ∧ s.cids.held n = true := by
    rcases hcore.cidHeld t _ hcid with hm | hheld
    · exact absurd (hm ▸ hcid) (h.numbered t)
    · exact hheld
  have hcids : s₁.cids = freeCidmap (n + 1) s.cids := by rw [hs₁, htn]
  have hlog : s₁.log = .closed t (n + 1) s.eg.vm.stack retval :: s.log := by rw [hs₁, htn]
  have hcp₁ : s₁.checkPoint = s.checkPoint := by rw [hs₁]
  have hnum : s₁.corog.coroNum = (s.corog.coroNum + (2 ^ 32 - 1)) % 2 ^ 32 := by simp only [hs₁]
  have hmax : s₁.corog.maxCoroNum = s.corog.maxCoroNum := by simp only [hs₁]
  have h₁ : Counted s₁ := h.closed (htn ▸ hcid) hn hheld hcids hnum hmax hlog fun hn => hcp₁ ▸ hn
  exact h₁.congr (sameCounts_returnFrom (by decide) hret) fun hn => hcp₁.trans (hcp hn)

theorem counted_step {s s' : State} {a : Action} (hr : TableWf s.rg) (hb : Bounded s) (hs : Sched s)
    (h : Counted s) (hown : FinishesOwn s a) (hfree : FreeCid s a) (hstep : step s a = .ok s') :
    Counted s' := by
  have hcp := (bounded_step hr hb hstep).2.2
  have henter : ∀ site, SameCounts s (enterCall s site) := fun site =>
    (quiet_enterCall s site).sameCounts
  cases step_move hr hstep with
  | quiet hq _ _ => exact h.congr hq.sameCounts hcp
  | enterLoop _ _ _ hq _ => exact h.congr hq.sameCounts hcp
  | loop _ _ _ hq _ _ _ _ => exact h.congr hq.sameCounts hcp
  | leaveLoop _ _ hq _ _ _ => exact h.congr hq.sameCounts hcp
  | invoke l l' stack fd ev c v _ _ _ _ _ hres =>
    have hsame := sameCounts_cCoroResume hres
    exact h.congr ⟨hsame.coroNum, hsame.maxCoroNum, hsame.cids, hsame.live, hsame.cidOf⟩ hcp
  | create site slots callback ha _ hc =>
    exact counted_create (h.congr (henter site) id) (hs.enterCall site)
      (hfree site slots callback ha) hc
  | resume site arg c _ _ _ _ hres =>
    have hnew : SameCounts (enterCall s site) (newCheckPoint (enterCall s site)) :=
      ⟨rfl, rfl, rfl, rfl, rfl⟩
    exact h.congr ((henter site).trans (hnew.trans (sameCounts_cCoroResume hres))) hcp
  | yield site s₁ _ _ hy hc =>
    obtain ⟨t, task, _, _, _, rfl⟩ := coroutineYield_cases hy
    have hsame := sameCounts_coroYield hc
    exact h.congr ⟨hsame.coroNum, hsame.maxCoroNum, hsame.cids, hsame.live, hsame.cidOf⟩ hcp
  | block fd c s₁ _ _ _ hbl hc =>
    have hsame : SameCounts s s₁ := ⟨by rw [hbl.corog], by rw [hbl.corog], hbl.cids,
      by rw [hbl.log]; rfl, by rw [hbl.log]; rfl⟩
    exact h.congr (hsame.trans (sameCounts_coroYield hc)) hcp
  | finish x stack base s₁ ha hstack hex hc hret =>
    -- `coro_close` frees the cid of `current_coro`, which is the coroutine that ends
    exact counted_finish h hs hstack (hown ha x stack base hstack hex).1 hc hret hcp

theorem counted_of_reached {s : State}
    (h : Reached (fun s a => FinishesOwn s a ∧ FreeCid s a) s) : Counted s := by
  refine h.invariant_of (fun s hs => ?_) fun s a s' hreach hc hok hstep =>
    counted_step (tableWf_of_reached hreach) (bounded_of_reached hreach)
      (sched_of_reached (fun _ _ => And.left) hreach) hc hok.1 hok.2 hstep
  obtain ⟨maxCoroNum, hmax, _, _, rfl⟩ := hs
  exact ⟨rfl, Nat.zero_le _, hmax, initial_counts, List.nodup_nil,
    fun t => by simp [initial, liveTasks, cidOf], fun t => by simp [initial, cidOf], fun _ => rfl⟩

/-- Without a free cid the new coroutine gets cid -1. -/
theorem not_cidLaw_of_full {s s' : State} {a : Action} (ha : ¬ FreeCid s a)
    (h : step s a = .ok s') : ¬ CidLaw s' := by
  simp only [FreeCid, not_forall, not_not] at ha
  obtain ⟨site, slots, callback, rfl, hfull⟩ := ha
  obtain ⟨_, hc⟩ := step_create h
  obtain ⟨cid, cids, hal, hcase⟩ := coroutineCreate_cases hc
  have hfull' : (enterCall s site).cids.cidmap.nrFree = 0 := hfull
  rw [ensureInit_cids, allocCidmap, if_pos hfull'] at hal
  cases hal
  obtain ⟨_, hm, _⟩ | ⟨_, hj⟩ := hcase
  · exact absurd rfl hm
  · obtain ⟨buf, _, _, rfl⟩ := setjmp_eq_ok.mp hj
    intro hlaw
    obtain ⟨task, _, hcid, hpos, _⟩ := hlaw.range _ List.mem_cons_self
    have hcid' : some (-1) = some task.cid := by
      rw [← hcid]
      simp [startTask]
    have hm : -1 = task.cid := Option.some.inj hcid'
    omega

/-- The law holds in every run in which each coroutine that finishes is the current one and
each `coroutine_create` finds a free cid, and it breaks at the first one that does not. -/
theorem cids_counted_iff_free {s : State}
    (h : Reached (fun s a => FinishesOwn s a ∧ FreeCid s a) s) :
    CidLaw s ∧ ∀ a s', FinishesOwn s a → step s a = .ok s' → (CidLaw s' ↔ FreeCid s a) := by
  have hlaw : ∀ s, Reached (fun s a => FinishesOwn s a ∧ FreeCid s a) s → CidLaw s := fun s h =>
    (counted_of_reached h).cidLaw (sched_of_reached (fun _ _ => And.left) h)
  refine ⟨hlaw s h, fun a s' hown hstep => ⟨fun hl => ?_, fun hfree => ?_⟩⟩
  · by_contra hfull
    exact not_cidLaw_of_full hfull hstep hl
  · exact hlaw s' (h.next ⟨hown, hfree⟩ hstep)

theorem cids_counted_iff_free_yielded : ∃ s s',
    runFrom step (initial 0 0) [createCall 1, yieldCall] = .ok s ∧
    (liveTasks s.log).length = 1 ∧ CidLaw s ∧ step s (createCall 2) = .ok s' ∧ CidLaw s' := by
  have hok : ∀ s a, decide (a ≠ .finish ∧ s.cids.cidmap.nrFree ≠ 0) = true →
      FinishesOwn s a ∧ FreeCid s a := fun s a ha =>
    have ha := of_decide_eq_true ha
    ⟨fun hfin => absurd hfin ha.1, fun _ _ _ _ => ha.2⟩
  obtain ⟨s, hrun, hs, hp⟩ := exists_reached_of _ hok [createCall 1, yieldCall]
    (fun s => (liveTasks s.log).length = 1 ∧ s.cids.cidmap.nrFree ≠ 0 ∧
      (step s (createCall 2)).isOk) (by decide)
  simp only [decide_eq_true_eq] at hp
  obtain ⟨hlive, hfree, hstep⟩ := hp
  obtain ⟨s', hs'⟩ := exists_of_isOk hstep
  obtain ⟨hlaw, hiff⟩ := cids_counted_iff_free hs
  have hown : FinishesOwn s (createCall 2) := fun hfin => by cases hfin
  exact ⟨s, s', hrun, hlive, hlaw, hs', (hiff _ s' hown hs').mpr fun _ _ _ _ => hfree⟩

theorem started_bind (x : Except Halt State) (f : State → ℤ → Except Halt State) :
    ((x >>= fun s => pure (s, none)) >>= fun p => match p.2 with
      | none => pure p.1
      | some ret => f p.1 ret) = x := by
  cases x <;> rfl

theorem coroutineCreate_eq {s : State} {frame : InternalCall} {slots : ℕ} {callback : Zval}
    {cid : ℤ} {cids : CidAllocator} (ha : allocCidmap (ensureInit s).cids = some (cid, cids)) :
    coroutineCreate s frame slots callback =
      if (ensureInit s).corog.maxCoroNum ≤ (ensureInit s).corog.coroNum ∧ cid ≠ -1 then
        coroutineCreateTail { newCheckPoint (ensureInit s) with cids := cids } frame
          (ensureInit s).checkPoint (coroSave (ensureInit s)) (ensureInit s).corog.require
          callback coroLimit
      else setjmp (startTask { newCheckPoint (ensureInit s) with cids := cids } cid slots)
        (.create frame (ensureInit s).checkPoint (coroSave (ensureInit s))
          (ensureInit s).corog.require callback) := by
  have ha' : allocCidmap (newCheckPoint (ensureInit s)).cids = some (cid, cids) := ha
  have hc : (newCheckPoint (ensureInit s)).corog = (ensureInit s).corog := rfl
  unfold coroutineCreate cCoroCreate
  simp only [ha', hc]
  split_ifs with hlimit
  · rfl
  · exact started_bind _ fun s' ret => coroutineCreateTail s' frame (ensureInit s).checkPoint
      (coroSave (ensureInit s)) (ensureInit s).corog.require callback ret

theorem step_create_eq {s : State} (hphp : phpRuns s) (site : CallSite) (slots : ℕ)
    (callback : Zval) : step s (.create site slots callback) =
      coroutineCreate (enterCall s site) (callFrame s site) slots callback := by
  rw [step_eq_phpStep hphp rfl]
  exact runs_bind _

theorem exists_setFunction {s : State} (h : ∀ t, s.corog.currentCoro = some t → s.tasks t ≠ none)
    (callback : Zval) : ∃ tasks, setFunction s callback = .ok { s with tasks := tasks } := by
  cases hcur : s.corog.currentCoro with
  | none =>
    refine ⟨s.tasks, ?_⟩
    simp only [setFunction, hcur]
  | some t =>
    obtain ⟨task, htask⟩ := Option.ne_none_iff_exists'.mp (h t hcur)
    refine ⟨Function.update s.tasks t (some { task with function := some callback }), ?_⟩
    simp only [setFunction, hcur, htask, deref]
    rfl

theorem exists_coroutineCreateTail {s : State} {buf : Ptr} {ret : ℤ} (frame : InternalCall)
    (prevCheckpoint : Option Ptr) (ctx : PhpContext) (required : Bool) (callback : Zval)
    (hret : 0 ≤ ret) (hcur : ∀ t, s.corog.currentCoro = some t → s.tasks t ≠ none)
    (hcp : s.checkPoint = some buf) :
    ∃ s', coroutineCreateTail s frame prevCheckpoint ctx required callback ret = .ok s' ∧
      s'.stack = s.stack ∧ s'.corog.currentCoro = ctx.task ∧ s'.checkPoint = prevCheckpoint ∧
      SameCounts s s' := by
  obtain ⟨tasks, hf⟩ := exists_setFunction hcur callback
  refine ⟨backInCaller { s with tasks := tasks } frame prevCheckpoint ctx required buf, ?_, rfl,
    rfl, rfl, ⟨rfl, rfl, rfl, rfl, rfl⟩⟩
  simp only [coroutineCreateTail, hf, bind, Except.bind, hcp, deref, if_neg (not_lt.mpr hret)]
  rfl

theorem coroutineYield_eq {s : State} {t : Ptr} {task : CoroTask}
    (hcur : s.corog.currentCoro = some t) (htask : s.tasks t = some task)
    (hin : inContextMap task.cid) : coroutineYield s = .ok { s with
      contexts := Function.update s.contexts s.next (.saved (coroSave s))
      next := s.next + 1
      cidContextMap := Function.update s.cidContextMap task.cid (some s.next)
      log := .suspended (some t) (.yield task.cid) s.next :: s.log } := by
  simp only [coroutineYield, getCurrentCid, hcur, htask, deref, check, bind, Except.bind, pure,
    Except.pure, if_pos hin]

section

variable {s : State} {x : Activation} {stack : List CFrame} {t : Ptr} {task : CoroTask}
  {frame : InternalCall} {prevCheckpoint : Option Ptr} {ctx : PhpContext} {required : Bool}
  {callback : Zval}

theorem exists_coroYield (hs : s.stack = .activation x :: stack)
    (hcur : s.corog.currentCoro = some t) (htask : s.tasks t = some task)
    (hcp : s.checkPoint = some x.buf) (hset : s.jmpBufs x.buf = .set x.id)
    (hsw : x.switch = .create frame prevCheckpoint ctx required callback) :
    ∃ s', coroYield s = .ok s' ∧ s'.stack = stack ∧ s'.corog.currentCoro = ctx.task ∧
      s'.checkPoint = prevCheckpoint := by
  have hj : jumpTarget s = .ok (x, stack) :=
    jumpTarget_eq_ok.mpr ⟨x.buf, x.id, hcp, hset, by simp [hs, unwind]⟩
  have hrunning : ∀ t', s.corog.currentCoro = some t' → s.tasks t' ≠ none := by
    intro t' ht'
    obtain rfl := Option.some.inj (hcur.symm.trans ht')
    simp [htask]
  obtain ⟨s', hs', hstack, hcur', hcp', _⟩ := exists_coroutineCreateTail (s := { s with
    eg := ⟨s.corog.originVmStack, s.eg.currentExecuteData⟩
    corog := { s.corog with require := false }
    stack := stack }) frame prevCheckpoint ctx required callback
    (by decide : 0 ≤ coroYielded) (fun t' ht' => hrunning t' ht') hcp
  refine ⟨s', coroYield_eq_ok.mpr ⟨x, stack, hj, ?_⟩, hstack, hcur', hcp'⟩
  rw [hsw]
  exact hs'

theorem exists_yield (hs : s.stack = .activation x :: stack) (hcur : s.corog.currentCoro = some t)
    (htask : s.tasks t = some task) (hin : inContextMap task.cid)
    (hcp : s.checkPoint = some x.buf) (hset : s.jmpBufs x.buf = .set x.id)
    (hsw : x.switch = .create frame prevCheckpoint ctx required callback) (site : CallSite) :
    ∃ s', step s (.yield site) = .ok s' ∧ s'.stack = stack ∧ s'.corog.currentCoro = ctx.task ∧
      s'.checkPoint = prevCheckpoint ∧ SameCounts s s' := by
  have hphp := phpRuns_of_activation hs
  have hy := coroutineYield_eq (s := enterCall s site) hcur htask hin
  obtain ⟨s', hs', hrest⟩ := exists_coroYield (s := { enterCall s site with
    contexts := Function.update (enterCall s site).contexts (enterCall s site).next
      (.saved (coroSave (enterCall s site)))
    next := (enterCall s site).next + 1
    cidContextMap := Function.update (enterCall s site).cidContextMap task.cid
      (some (enterCall s site).next)
    log := .suspended (some t) (.yield task.cid) (enterCall s site).next ::
      (enterCall s site).log }) hs hcur htask hcp hset hsw
  have hsame := sameCounts_coroYield hs'
  refine ⟨s', ?_, hrest.1, hrest.2.1, hrest.2.2, ⟨hsame.coroNum, hsame.maxCoroNum, hsame.cids,
    hsame.live, hsame.cidOf⟩⟩
  rw [step_eq_phpStep hphp rfl]
  simp only [phpStep, hy, bind, Except.bind]
  exact hs'

end

structure AtMain (s : State) (num free : ℕ) : Prop where
  stack : s.stack = []
  currentCoro : s.corog.currentCoro = none
  coroNum : (ensureInit s).corog.coroNum = num
  maxCoroNum : (ensureInit s).corog.maxCoroNum = 3000
  cids : s.cids.Counts
  nrFree : s.cids.cidmap.nrFree = free

theorem AtMain.alloc {s : State} {num : ℕ} (free : ℕ) (h : AtMain s num (free + 1)) :
    ∃ (n : ℕ) (cids : CidAllocator), n < 0x8000 ∧
      allocCidmap (ensureInit (enterCall s callSite)).cids = some ((n : ℤ) + 1, cids) ∧
      cids.Counts ∧ cids.cidmap.nrFree = free := by
  have hfree : s.cids.cidmap.nrFree ≠ 0 := by rw [h.nrFree]; omega
  obtain ⟨n, hn, cids, ha⟩ := h.cids.alloc hfree
  obtain ⟨hcounts, hnr⟩ := h.cids.alloc_counts hfree ha
  have hnrFree := h.nrFree
  exact ⟨n, cids, hn, (ensureInit_cids _).symm ▸ ha, hcounts, by omega⟩

theorem ensureInit_enterCall (s : State) (site : CallSite) :
    (ensureInit (enterCall s site)).corog.coroNum = (ensureInit s).corog.coroNum ∧
    (ensureInit (enterCall s site)).corog.maxCoroNum = (ensureInit s).corog.maxCoroNum ∧
    (ensureInit (enterCall s site)).corog.currentCoro = s.corog.currentCoro ∧
    (ensureInit (enterCall s site)).stack = s.stack ∧
    (ensureInit (enterCall s site)).checkPoint ≠ none := by
  by_cases hcp : s.checkPoint = none
  · simp [ensureInit, hcp, coroInit, enterCall]
  · simp [ensureInit, hcp, enterCall]

/-- Beyond the limit `coroutine_create` returns at once, but keeps the cid it took. -/
theorem AtMain.refused {s : State} (free : ℕ) (h : AtMain s 3000 (free + 1)) :
    ∃ s', step s (createCall 1) = .ok s' ∧ AtMain s' 3000 free := by
  obtain ⟨n, cids, hn, ha, hcounts, hfree⟩ := h.alloc free
  obtain ⟨hnum, hmax, hcur, hstack, hcp⟩ := ensureInit_enterCall s callSite
  have hlimit : (ensureInit (enterCall s callSite)).corog.maxCoroNum ≤
      (ensureInit (enterCall s callSite)).corog.coroNum ∧ ((n : ℤ) + 1 ≠ -1) := by
    rw [hnum, hmax, h.coroNum, h.maxCoroNum]
    exact ⟨le_rfl, by omega⟩
  obtain ⟨s', hs', hstack', hcur', hcp', hsame⟩ := exists_coroutineCreateTail
    (s := { newCheckPoint (ensureInit (enterCall s callSite)) with cids := cids })
    (callFrame s callSite) (ensureInit (enterCall s callSite)).checkPoint
    (coroSave (ensureInit (enterCall s callSite)))
    (ensureInit (enterCall s callSite)).corog.require (.value 1) (by decide : 0 ≤ coroLimit)
    (fun t ht => by simp [newCheckPoint, hcur, h.currentCoro] at ht) rfl
  have hi : ensureInit s' = s' := ensureInit_of_checkPoint (by rw [hcp']; exact hcp)
  -- the page is freed and the caller goes on, but nothing gives the cid back
  refine ⟨s', ?_, hstack'.trans (hstack.trans h.stack), hcur'.trans (hcur.trans h.currentCoro),
    ?_, ?_, hsame.cids ▸ hcounts, hsame.cids ▸ hfree⟩
  · rw [createCall, step_create_eq (phpRuns_of_stack h.stack), coroutineCreate_eq ha, if_pos hlimit]
    exact hs'
  · rw [hi, hsame.coroNum]
    exact hnum.trans h.coroNum
  · rw [hi, hsame.maxCoroNum]
    exact hmax.trans h.maxCoroNum

theorem AtMain.started {s : State} {num : ℕ} (free : ℕ) (h : AtMain s num (free + 1)) (hnum : num < 3000) :
    ∃ s', runFrom step s [createCall 1, yieldCall] = .ok s' ∧ AtMain s' (num + 1) free := by
  obtain ⟨n, cids, hn, ha, hcounts, hfree⟩ := h.alloc free
  obtain ⟨hcoroNum, hmax, hcur, hstack, hcp⟩ := ensureInit_enterCall s callSite
  generalize hi : ensureInit (enterCall s callSite) = i at ha hcoroNum hmax hcur hstack hcp
  have hbelow : ¬ (i.corog.maxCoroNum ≤ i.corog.coroNum ∧ ((n : ℤ) + 1 ≠ -1)) := by
    rw [hcoroNum, hmax, h.coroNum, h.maxCoroNum]
    omega
  obtain ⟨s₁, hj⟩ : ∃ s₁, setjmp (startTask { newCheckPoint i with cids := cids } (n + 1) 8)
      (.create (callFrame s callSite) i.checkPoint (coroSave i) i.corog.require (.value 1)) =
        .ok s₁ :=
    ⟨_, setjmp_eq_ok.mpr ⟨i.next, rfl, by simp [startTask, newCheckPoint], rfl⟩⟩
  have hcreate : step s (createCall 1) = .ok s₁ := by
    rw [createCall, step_create_eq (phpRuns_of_stack h.stack), coroutineCreate_eq (hi ▸ ha), hi,
      if_neg hbelow]
    exact hj
  obtain ⟨buf, hbuf, _, hs₁⟩ := setjmp_eq_ok.mp hj
  have htask₁ : s₁.tasks (i.next + 1) = some ⟨n + 1, none⟩ := by
    simp [hs₁, startTask, newCheckPoint]
  obtain ⟨s', hyield, hstack', hcur', hcp', hsame⟩ := exists_yield (s := s₁) (t := i.next + 1)
    (by rw [hs₁]) (by simp only [hs₁]; rfl)
    htask₁ (by simp only [inContextMap]; omega)
    (by rw [hs₁]; exact hbuf) (by simp [hs₁]) rfl callSite
  have hinit : ensureInit s' = s' := ensureInit_of_checkPoint (by rw [hcp']; exact hcp)
  have hcoroNum₁ : s₁.corog.coroNum = (i.corog.coroNum + 1) % 2 ^ 32 := by simp only [hs₁]; rfl
  have hmax₁ : s₁.corog.maxCoroNum = i.corog.maxCoroNum := by simp only [hs₁]; rfl
  have hcids₁ : s₁.cids = cids := by simp only [hs₁]; rfl
  -- the yield changes neither the counts nor the bitmap
  refine ⟨s', ?_, hstack'.trans ?_, hcur'.trans (hcur.trans h.currentCoro), ?_, ?_, ?_, ?_⟩
  · simp only [runFrom, hcreate, yieldCall, hyield]
  · exact hstack.trans h.stack
  · rw [hinit, hsame.coroNum, hcoroNum₁, hcoroNum, h.coroNum]
    omega
  · rw [hinit, hsame.maxCoroNum, hmax₁, hmax, h.maxCoroNum]
  · rw [hsame.cids, hcids₁]
    exact hcounts
  · rw [hsame.cids, hcids₁]
    exact hfree

theorem AtMain.exists_started {s : State} {num : ℕ} (free k : ℕ) (h : AtMain s num (free + k))
    (hk : num + k ≤ 3000) : ∃ s', runFrom step s (List.replicate k [createCall 1, yieldCall]).flatten =
      .ok s' ∧ AtMain s' (num + k) free := by
  induction k generalizing s num with
  | zero => exact ⟨s, rfl, h⟩
  | succ k ih =>
    obtain ⟨s₁, hs₁, h₁⟩ := h.started (free + k) (by omega)
    obtain ⟨s', hs', h'⟩ := ih h₁ (by omega)
    rw [Nat.add_right_comm, Nat.add_assoc] at h'
    exact ⟨s', runFrom_append hs₁ hs', h'⟩

theorem AtMain.exists_refused {s : State} (free k : ℕ) (h : AtMain s 3000 (free + k)) :
    ∃ s', runFrom step s (List.replicate k (createCall 1)) = .ok s' ∧ AtMain s' 3000 free := by
  induction k generalizing s with
  | zero => exact ⟨s, rfl, h⟩
  | succ k ih =>
    obtain ⟨s₁, hs₁, h₁⟩ := h.refused (free + k)
    obtain ⟨s', hs', h'⟩ := ih h₁
    have hrun : runFrom step s [createCall 1] = .ok s₁ := runFrom_one hs₁
    exact ⟨s', runFrom_append hrun hs', h'⟩

theorem atMain_initial : AtMain (initial 0 0) 0 32768 :=
  ⟨rfl, rfl, rfl, rfl, initial_counts, rfl⟩

def fillCidmap : List Action :=
  (List.replicate 3000 [createCall 1, yieldCall]).flatten ++ List.replicate 29768 (createCall 1)

theorem exists_fillCidmap :
    ∃ s, runFrom step (initial 0 0) fillCidmap = .ok s ∧ AtMain s 3000 0 := by
  obtain ⟨s₁, hs₁, h₁⟩ := atMain_initial.exists_started 29768 3000 (by omega)
  obtain ⟨s, hs, h⟩ := h₁.exists_refused 0 29768
  exact ⟨s, runFrom_append hs₁ hs, h⟩

/-- With no free cid left a coroutine still starts. -/
theorem AtMain.exists_create {s : State} {num : ℕ} (h : AtMain s num 0) :
    ∃ s', step s (createCall 1) = .ok s' := by
  obtain ⟨_, _, _, _, hcp⟩ := ensureInit_enterCall s callSite
  have ha : allocCidmap (ensureInit (enterCall s callSite)).cids = some (-1, s.cids) := by
    rw [ensureInit_cids, allocCidmap]
    exact if_pos h.nrFree
  rw [createCall, step_create_eq (phpRuns_of_stack h.stack), coroutineCreate_eq ha,
    if_neg (fun hm => hm.2 rfl)]
  exact ⟨_, setjmp_eq_ok.mpr ⟨_, rfl, by simp [startTask, newCheckPoint], rfl⟩⟩

/-- The coroutine past the last cid gets cid -1. -/
theorem coroutine_created_without_cid : ∃ s',
    runFrom step (initial 0 0) (fillCidmap ++ [createCall 1]) = .ok s' ∧
    Reached (fun _ _ => True) s' ∧ ¬ CidLaw s' := by
  obtain ⟨s, hrun, h⟩ := exists_fillCidmap
  obtain ⟨s', hs'⟩ := h.exists_create
  have hrun' : runFrom step (initial 0 0) (fillCidmap ++ [createCall 1]) = .ok s' :=
    runFrom_append hrun (runFrom_one hs')
  have hinit : Reached (fun _ _ => True) (initial 0 0) :=
    .init ⟨0, by decide, 0, by decide, rfl⟩
  refine ⟨s', hrun', hinit.run hrun', not_cidLaw_of_full (fun hfree => ?_) hs'⟩
  exact hfree _ _ _ rfl h.nrFree

end Phpco
