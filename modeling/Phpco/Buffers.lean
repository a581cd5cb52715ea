import Phpco.SchedulerRuns

/-!
# The jump buffers in use

`coro_init` allocates the buffer that `checkPoint` refers to while no coroutine runs,
and `aio_invoke` calls `setjmp` on it.  It is never freed: what is freed when a
`coroutine_create` or `coroutine::resume` returns is the buffer it has allocated.
-/

namespace Phpco
open Except Transition

def outermost : Option Ptr → List Activation → Option Ptr
  | cp, [] => cp
  | _, x :: xs => outermost x.outerCheckPoint xs

/-- The buffer that was allocated for the activation. -/
def Activation.ownBuf (x : Activation) : Option Ptr := x.switch.ctx.map fun _ => x.buf

def usedBufs (s : State) : List Ptr :=
  (activations s.stack).filterMap Activation.ownBuf ++
    (outermost s.checkPoint (activations s.stack)).toList

/-- The buffers in use are allocated, each for one purpose, and no other one is. -/
structure Based (s : State) : Prop where
  nodup : (usedBufs s).Nodup
  mem : ∀ b, b ∈ usedBufs s ↔ s.jmpBufs b ≠ .unallocated

variable {s s' : State} {x y : Activation}

theorem ownBuf_eq_some {b : Ptr} : x.ownBuf = some b ↔ x.switch.ctx ≠ none ∧ x.buf = b := by
  simp [Activation.ownBuf, Option.ne_none_iff_exists']

theorem usedBufs_congr (hcp : s'.checkPoint = s.checkPoint)
    (hact : activations s'.stack = activations s.stack) : usedBufs s' = usedBufs s := by
  rw [usedBufs, usedBufs, hcp, hact]

theorem usedBufs_push (hact : activations s'.stack = y :: activations s.stack)
    (hout : y.outerCheckPoint = s.checkPoint) : usedBufs s' = y.ownBuf.toList ++ usedBufs s := by
  rw [usedBufs, usedBufs, hact, outermost, hout, List.filterMap_cons]
  cases y.ownBuf <;> rfl

theorem length_usedBufs_le (s : State) :
    (usedBufs s).length ≤ (activations s.stack).length + 1 := by
  have hown : ((activations s.stack).filterMap Activation.ownBuf).length ≤
      (activations s.stack).length := List.length_filterMap_le _ _
  have hbase : (outermost s.checkPoint (activations s.stack)).toList.length ≤ 1 := by
    cases outermost s.checkPoint (activations s.stack) <;> simp
  rw [usedBufs, List.length_append]
  omega

theorem outermost_lt {cp : Option Ptr} {xs : List Activation} {n b : Ptr}
    (hcp : ∀ b, cp = some b → b < n) (hxs : ∀ x ∈ xs, ∃ b, x.outerCheckPoint = some b ∧ b < n)
    (h : outermost cp xs = some b) : b < n := by
  induction xs generalizing cp with
  | nil => exact hcp b h
  | cons x xs ih =>
    refine ih (fun b' hb' => ?_) (fun y hy => hxs y (List.mem_cons_of_mem _ hy)) h
    obtain ⟨c, hc, hlt⟩ := hxs x List.mem_cons_self
    cases hc.symm.trans hb'
    exact hlt

theorem buf_lt {cp : Option Ptr} {xs : List Activation} {n : Ptr} (h : BufAgrees cp xs)
    (hcp : ∀ b, cp = some b → b < n) (hxs : ∀ x ∈ xs, ∃ b, x.outerCheckPoint = some b ∧ b < n) :
    ∀ x ∈ xs, x.buf < n := by
  induction xs generalizing cp with
  | nil => exact fun x hx => absurd hx List.not_mem_nil
  | cons x xs ih =>
    intro y hy
    rcases List.mem_cons.mp hy with rfl | hy
    · exact hcp _ h.1
    · refine ih h.2 (fun b hb => ?_) (fun z hz => hxs z (List.mem_cons_of_mem _ hz)) y hy
      obtain ⟨c, hc, hlt⟩ := hxs x List.mem_cons_self
      cases hc.symm.trans hb
      exact hlt

theorem usedBufs_lt (hb : Bounded s) (hl : BufAgrees s.checkPoint (activations s.stack)) {b : Ptr}
    (h : b ∈ usedBufs s) : b < s.next := by
  rcases List.mem_append.mp h with hown | hbase
  · obtain ⟨x, hx, hxb⟩ := List.mem_filterMap.mp hown
    obtain ⟨_, rfl⟩ := ownBuf_eq_some.mp hxb
    exact buf_lt hl hb.checkPoint hb.outer x hx
  · exact outermost_lt hb.checkPoint hb.outer (Option.mem_toList.mp hbase)

theorem bufAgrees_ensureInit (h : BufAgrees s.checkPoint (activations s.stack))
    (hnil : s.checkPoint = none → activations s.stack = []) :
    BufAgrees (ensureInit s).checkPoint (activations (ensureInit s).stack) := by
  rcases ensureInit_cases s with ⟨_, he⟩ | ⟨hcp, he⟩
  · rw [he]
    exact h
  · rw [he, show activations (coroInit s).stack = [] from hnil hcp]
    trivial

namespace Based

theorem allocated (h : Based s) {b : Ptr}
    (hb : outermost s.checkPoint (activations s.stack) = some b) : s.jmpBufs b ≠ .unallocated :=
  (h.mem b).mp (List.mem_append_right _ (Option.mem_toList.mpr hb))

theorem unallocated (h : Based s) (hb : Bounded s)
    (hl : BufAgrees s.checkPoint (activations s.stack)) {b : Ptr} (hle : s.next ≤ b) :
    s.jmpBufs b = .unallocated := by
  by_contra hne
  exact absurd (usedBufs_lt hb hl ((h.mem b).mpr hne)) (Nat.not_lt.mpr hle)

theorem keep (h : Based s) (hcp : s'.checkPoint = s.checkPoint)
    (hact : activations s'.stack = activations s.stack)
    (hj : ∀ b, s'.jmpBufs b ≠ .unallocated ↔ s.jmpBufs b ≠ .unallocated) : Based s' where
  nodup := by
    rw [usedBufs_congr hcp hact]
    exact h.nodup
  mem b := by
    rw [usedBufs_congr hcp hact, h.mem, hj]

/-- A switch uses a buffer of its own, or the one that `checkPoint` refers to. -/
theorem push (h : Based s) (hact : activations s'.stack = y :: activations s.stack)
    (hout : y.outerCheckPoint = s.checkPoint)
    (hfresh : ∀ b, y.ownBuf = some b → s.jmpBufs b = .unallocated)
    (hj : ∀ b, s'.jmpBufs b ≠ .unallocated ↔ y.ownBuf = some b ∨ s.jmpBufs b ≠ .unallocated) :
    Based s' where
  nodup := by
    rw [usedBufs_push hact hout]
    refine List.nodup_append.mpr ⟨by cases y.ownBuf <;> simp, h.nodup, fun b hb b' hb' => ?_⟩
    rintro rfl
    exact (h.mem b).mp hb' (hfresh b (Option.mem_toList.mp hb))
  mem b := by
    rw [usedBufs_push hact hout, List.mem_append, Option.mem_toList, h.mem, hj]

/-- The activation that is left gives back its own buffer. -/
theorem pop (h : Based s) (hact : activations s.stack = x :: activations s'.stack)
    (hcp : x.outerCheckPoint = s'.checkPoint)
    (hj : ∀ b, s'.jmpBufs b ≠ .unallocated ↔ s.jmpBufs b ≠ .unallocated ∧ x.ownBuf ≠ some b) :
    Based s' := by
  have hused : usedBufs s = x.ownBuf.toList ++ usedBufs s' := usedBufs_push hact hcp
  have hnodup := h.nodup
  rw [hused] at hnodup
  refine ⟨hnodup.of_append_right, fun b => ?_⟩
  rw [hj, ← h.mem, hused, List.mem_append, Option.mem_toList]
  constructor
  · intro hb
    refine ⟨.inr hb, fun hx => ?_⟩
    exact (List.nodup_append.mp hnodup).2.2 b (Option.mem_toList.mpr hx) b hb rfl
  · rintro ⟨hb, hne⟩
    exact hb.resolve_left hne

theorem ensureInit (h : Based s) (hnil : s.checkPoint = none → activations s.stack = []) :
    Based (ensureInit s) := by
  rcases ensureInit_cases s with ⟨_, he⟩ | ⟨hcp, he⟩
  · rw [he]
    exact h
  · rw [he]
    have hact := hnil hcp
    have hnone : usedBufs s = [] := by
      rw [usedBufs, hact, hcp]
      rfl
    have hused : usedBufs (coroInit s) = [s.next + 1] := by
      rw [usedBufs, show activations (coroInit s).stack = [] from hact]
      rfl
    refine ⟨by simp [hused], fun b => ?_⟩
    have hb : s.jmpBufs b = .unallocated := by simpa [hnone] using h.mem b
    rw [hused, List.mem_singleton]
    by_cases hbb : b = s.next + 1
    · simp [hbb, coroInit]
    · simp [hbb, coroInit, hb]

end Based

theorem jmpBufs_returnFrom {ret : ℤ} (hret : 0 ≤ ret) (hcp : s.checkPoint = some x.buf)
    (h : returnFrom s x.switch ret = .ok s') :
    x.outerCheckPoint = s'.checkPoint ∧
      ∀ b, s'.jmpBufs b ≠ .unallocated ↔ s.jmpBufs b ≠ .unallocated ∧ x.ownBuf ≠ some b := by
  cases hsw : x.switch with
  | create frame prevCheckpoint ctx required callback =>
    rw [hsw] at h
    obtain ⟨buf, tasks, hbuf, _, rfl⟩ := coroutineCreateTail_cases hret h
    obtain rfl : x.buf = buf := Option.some.inj (hcp.symm.trans hbuf)
    refine ⟨by simp only [Activation.outerCheckPoint, hsw]; rfl, fun b => ?_⟩
    by_cases hb : b = x.buf
    · simp [backInCaller, Activation.ownBuf, hsw, Switch.ctx, hb]
    · simp [backInCaller, Activation.ownBuf, hsw, Switch.ctx, hb, Ne.symm hb]
  | resume frame prevCheckpoint context ctx required =>
    rw [hsw] at h
    obtain ⟨buf, hbuf, rfl⟩ := coroutineResumeTail_cases h
    obtain rfl : x.buf = buf := Option.some.inj (hcp.symm.trans hbuf)
    refine ⟨by simp only [Activation.outerCheckPoint, hsw]; rfl, fun b => ?_⟩
    by_cases hb : b = x.buf
    · simp [backInCaller, Activation.ownBuf, hsw, Switch.ctx, hb]
    · simp [backInCaller, Activation.ownBuf, hsw, Switch.ctx, hb, Ne.symm hb]
  | invoke fd event context =>
    rw [hsw] at h
    obtain ⟨_, rfl⟩ := aioInvokeTail_cases h
    refine ⟨?_, fun b => by simp [Activation.ownBuf, hsw, Switch.ctx]⟩
    simp only [Activation.outerCheckPoint, hsw]
    exact hcp.symm

theorem Based.leave {u : State} {ret : ℤ} (h : Based s)
    (hl : BufAgrees s.checkPoint (activations s.stack)) (hret : 0 ≤ ret)
    (hstack : s.stack = .activation x :: u.stack) (hcp : u.checkPoint = s.checkPoint)
    (hj : u.jmpBufs = s.jmpBufs) (hr : returnFrom u x.switch ret = .ok s') : Based s' := by
  rw [hstack] at hl
  obtain ⟨hcp', hj'⟩ := jmpBufs_returnFrom hret (hcp.trans hl.1) hr
  have hrest := (returnFrom_cases hret hr).1
  refine h.pop (x := x) ?_ hcp' fun b => ?_
  · rw [hrest, hstack]
    rfl
  · rw [hj' b, hj]

theorem Based.yield {s₁ : State} (h : Based s) (hphp : phpRuns s)
    (hl : Links (activations s.stack) s.checkPoint s.jmpBufs s.corog.currentCoro)
    (hstack : s₁.stack = s.stack) (hcp : s₁.checkPoint = s.checkPoint)
    (hj : s₁.jmpBufs = s.jmpBufs) (hcorog : s₁.corog = s.corog)
    (hc : coroYield s₁ = .ok s') : Based s' := by
  obtain ⟨x, rest, hjump, hret⟩ := coroYield_eq_ok.mp hc
  have hl₁ := hl
  rw [← hstack, ← hcp, ← hj, ← hcorog] at hl₁
  obtain ⟨hs₁, _⟩ := jump_top hl₁ (by unfold phpRuns; rw [hstack]; exact hphp) hjump
  have hret₀ : 0 ≤ coroYielded := by decide
  exact h.leave (u := { s₁ with
    eg := ⟨s₁.corog.originVmStack, s₁.eg.currentExecuteData⟩
    stack := rest }) hl.bufs hret₀ (hstack.symm.trans hs₁) hcp hj hret

/-- `setjmp` on the buffer of a new check point. -/
theorem Based.push_own {switch : Switch} {n : Ptr} {task : Option Ptr} (h : Based s) (hb : Bounded s)
    (hl : BufAgrees s.checkPoint (activations s.stack)) {buf : Ptr} (hctx : switch.ctx ≠ none)
    (hle : s.next ≤ buf)
    (hact : activations s'.stack = ⟨n, task, buf, switch⟩ :: activations s.stack)
    (hout : Activation.outerCheckPoint ⟨n, task, buf, switch⟩ = s.checkPoint)
    (hset : s'.jmpBufs buf ≠ .unallocated) (hj : ∀ b ≠ buf, s'.jmpBufs b = s.jmpBufs b) :
    Based s' := by
  have hown : ∀ b, Activation.ownBuf ⟨n, task, buf, switch⟩ = some b ↔ buf = b := fun b => by
    rw [ownBuf_eq_some, and_iff_right hctx]
  refine h.push hact hout (fun b hbb => ?_) fun b => ?_
  · obtain rfl := (hown b).mp hbb
    exact h.unallocated hb hl hle
  · rw [hown]
    by_cases hbb : b = buf
    · simp [hbb, hset]
    · simp [hj b hbb, Ne.symm hbb]

theorem based_initial (h : Initial s) : Based s := by
  obtain ⟨_, _, _, _, rfl⟩ := h
  exact ⟨List.nodup_nil, fun b => by simp [usedBufs, initial, outermost]⟩

theorem Based.create {frame : InternalCall} {slots : ℕ} {callback : Zval} (h : Based s)
    (hb : Bounded s) (hl : BufAgrees s.checkPoint (activations s.stack))
    (hnil : s.checkPoint = none → activations s.stack = [])
    (hc : coroutineCreate s frame slots callback = .ok s') : Based s' := by
  have hi := h.ensureInit hnil
  have hbi := hb.ensureInit
  have hli := bufAgrees_ensureInit hl hnil
  obtain ⟨cid, cids, _, ⟨_, _, ht⟩ | ⟨_, hj⟩⟩ := coroutineCreate_cases hc
  · obtain ⟨buf, tasks, hbuf, _, rfl⟩ := coroutineCreateTail_cases (by decide) ht
    obtain rfl : (Phpco.ensureInit s).next = buf := Option.some.inj hbuf
    refine hi.keep rfl rfl fun b => ?_
    by_cases hbb : b = (Phpco.ensureInit s).next
    · simp [backInCaller, newCheckPoint, hbb, hi.unallocated hbi hli le_rfl]
    · simp [backInCaller, newCheckPoint, hbb]
  · obtain ⟨buf, hbuf, _, rfl⟩ := setjmp_eq_ok.mp hj
    obtain rfl : (Phpco.ensureInit s).next = buf := Option.some.inj hbuf
    refine hi.push_own hbi hli ?_ le_rfl rfl rfl ?_ fun b hne => ?_
    · simp [Switch.ctx]
    · simp [startTask, newCheckPoint]
    · simp [startTask, newCheckPoint, hne]

theorem based_step {a : Action} (hr : TableWf s.rg) (hb : Bounded s) (hs : Sched s)
    (h : Based s) (hstep : step s a = .ok s') : Based s' := by
  have hquiet : Quiet s s' → activations s'.stack = activations s.stack → Based s' :=
    fun hq hact => h.keep hq.checkPoint hact fun b => by rw [hq.jmpBufs]
  have henter : ∀ site, Based (enterCall s site) ∧ Bounded (enterCall s site) := fun site =>
    ⟨h.keep rfl rfl fun _ => Iff.rfl, hb.mono rfl (List.Subset.refl _) (Nat.le_succ _) rfl⟩
  cases step_move hr hstep with
  | quiet hq hstack _ => exact hquiet hq (by rw [hstack])
  | enterLoop _ _ _ hq hstack => exact hquiet hq (by rw [hstack]; rfl)
  | loop _ _ _ hq hstack hstack' _ _ => exact hquiet hq (by rw [hstack, hstack']; rfl)
  | leaveLoop _ _ hq hstack hstack' _ => exact hquiet hq (by rw [hstack, hstack']; rfl)
  | invoke l l' stack fd ev c v hstack _ _ _ _ hres =>
    obtain ⟨ctx, current, frames, result, _, _, _, _, hj⟩ := cCoroResume_cases hres
    obtain ⟨buf, hbuf, hset, rfl⟩ := setjmp_eq_ok.mp hj
    have hown : Activation.ownBuf ⟨s.next, ctx.task, buf, .invoke fd ev.addr c⟩ = none := rfl
    refine h.push (y := ⟨s.next, ctx.task, buf, .invoke fd ev.addr c⟩) ?_ hbuf.symm
      (fun b hb => ?_) fun b => ?_
    · rw [hstack]
      rfl
    · rw [hown] at hb
      cases hb
    · by_cases hbb : b = buf
      · have hset : s.jmpBufs buf ≠ .unallocated := hset
        simp [hbb, hown, hset]
      · simp [hbb, hown, resumed]
  | create site slots callback _ _ hc =>
    exact (henter site).1.create (henter site).2 hs.links.bufs
      (fun hcp => hs.links.activations_eq_nil hcp) hc
  | resume site arg c _ _ _ _ hres =>
    obtain ⟨ctx, current, frames, result, _, _, _, _, hj⟩ := cCoroResume_cases hres
    obtain ⟨buf, hbuf, _, rfl⟩ := setjmp_eq_ok.mp hj
    obtain rfl : s.next + 1 = buf := Option.some.inj hbuf
    refine h.push_own hb hs.links.bufs ?_ (Nat.le_succ _) rfl rfl ?_ fun b hne => ?_
    · simp [Switch.ctx]
    · simp
    · simp [resumed, newCheckPoint, enterCall, hne]
  | yield site s₁ _ hphp hy hc =>
    obtain ⟨t, task, _, _, _, hs₁⟩ := coroutineYield_cases hy
    exact h.yield hphp hs.links (by rw [hs₁]; rfl) (by rw [hs₁]; rfl) (by rw [hs₁]; rfl)
      (by rw [hs₁]; rfl) hc
  | block fd c s₁ _ hphp _ hbl hc =>
    exact h.yield hphp hs.links hbl.stack hbl.checkPoint hbl.jmpBufs hbl.corog hc
  | finish x stack base s₁ _ hstack _ hc hret =>
    obtain ⟨t, task, retval, _, _, _, hs₁⟩ := coroClose_eq_ok.mp hc
    have hret₀ : 0 ≤ coroEnd := by decide
    refine h.leave (u := s₁) hs.links.bufs hret₀ ?_ (by rw [hs₁]) (by rw [hs₁]) hret
    rw [hs₁]
    exact hstack

theorem based_of_reached {ok : State → Action → Prop} (hok : ∀ s a, ok s a → FinishesOwn s a)
    (h : Reached ok s) : Based s :=
  h.invariant_of (fun _ => based_initial) fun _ _ _ hreach hb _ hstep =>
    based_step (tableWf_of_reached hreach) (bounded_of_reached hreach) (sched_of_reached hok hreach)
      hb hstep

end Phpco
