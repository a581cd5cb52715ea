import Phpco.Buffers
import Phpco.LifeLaw
import Phpco.OwnershipLaw
import Phpco.StackSteps

/-!
# What the coroutines hold

Every coroutine that is not closed holds one cid and one page, and it is either
on the C stack or in one saved context.  So the C stack is never deeper than the
limit on the number of coroutines allows, and no context, page or cid is lost.
-/

namespace Phpco
open Except Transition

variable {s s' : State} {a : Action}

def Seated (s : State) : Prop :=
  ∀ t act, status s.log t = .running act → ∃ x ∈ activations s.stack, x.task = some t

theorem seated_step (h : LifeStep s a s') (hk : Seated s) : Seated s' := by
  intro t act ht
  -- a coroutine other than `t'` is where it was
  have hold : ∀ {es t' σ}, Adds s s' es → status (es ++ s.log) = Function.update (status s.log) t' σ →
      t ≠ t' → ∃ x ∈ activations s.stack, x.task = some t := by
    intro es t' σ hlog hupdate hne
    rw [hlog.status, hupdate, Function.update_of_ne hne] at ht
    exact hk t act ht
  cases h with
  | same hact hlog _ _ =>
    rw [hlog.status] at ht
    rw [hact]
    exact hk t act ht
  | starts x t' cid retval hact hx _ hlog _ _ =>
    rw [hact]
    by_cases hne : t = t'
    · exact ⟨x, List.mem_cons_self, hne ▸ hx⟩
    · obtain ⟨y, hy, hyt⟩ := hold hlog rfl hne
      exact ⟨y, List.mem_cons_of_mem _ hy, hyt⟩
  | switches x t' w c result hact hx _ _ _ hlog _ _ =>
    have hadds : Adds s s' [.switched (some t') w c x.id result] := ⟨[], hlog⟩
    rw [hact]
    by_cases hne : t = t'
    · exact ⟨x, List.mem_cons_self, hne ▸ hx⟩
    · obtain ⟨y, hy, hyt⟩ := hold hadds rfl hne
      exact ⟨y, List.mem_cons_of_mem _ hy, hyt⟩
  | suspends x t' w c hact hx _ _ hlog _ _ =>
    have hne : t ≠ t' := by
      rintro rfl
      rw [hlog.status] at ht
      simp at ht
    obtain ⟨y, hy, hyt⟩ := hold hlog rfl hne
    rw [hact] at hy
    rcases List.mem_cons.mp hy with rfl | hy
    · exact absurd (Option.some.inj (hyt.symm.trans hx)) hne
    · exact ⟨y, hy, hyt⟩
  | finishes x t' cid page retval hact hx _ hlog _ _ =>
    have hne : t ≠ t' := by
      rintro rfl
      rw [hlog.status] at ht
      simp at ht
    obtain ⟨y, hy, hyt⟩ := hold hlog rfl hne
    rw [hact] at hy
    rcases List.mem_cons.mp hy with rfl | hy
    · exact absurd (Option.some.inj (hyt.symm.trans hx)) hne
    · exact ⟨y, hy, hyt⟩

theorem seated_of_reached (h : Reached FinishesOwn s) : Seated s := by
  refine h.invariant_of ?_ fun s a s' hreach hk hok hstep =>
    seated_step (lifeStep_of_reached (fun _ _ => id) hreach hok hstep) hk
  rintro s ⟨_, _, _, _, rfl⟩ t act ht
  cases ht

def LoopAtBottom (s : State) : Prop :=
  ∀ l below, .eventLoop l :: below <:+ s.stack → below = []

theorem stack_eq_nil (hphp : phpRuns s) (h : activations s.stack = []) : s.stack = [] := by
  rcases hs : s.stack with _ | ⟨f, below⟩
  · rfl
  · cases f with
    | activation x =>
      rw [hs] at h
      cases h
    | eventLoop l => exact absurd hs (hphp l below)

theorem loopAtBottom_step {ok : State → Action → Prop} (hreach : Reached ok s)
    (h : LoopAtBottom s) (hh : Hosted s') (hstep : step s a = .ok s') : LoopAtBottom s' := by
  intro l below hl
  cases stackMove hreach hstep with
  | same _ hs =>
    rw [hs] at hl
    exact h l below hl
  | push x _ _ hs =>
    rw [hs] at hl
    rcases List.suffix_cons_iff.mp hl with heq | hl
    · cases heq
    · exact h l below hl
  | enter l' _ hphp _ hs =>
    have hloops := hh.loops
    rw [hs] at hl hloops
    have hnil := stack_eq_nil hphp hloops.1
    rcases List.suffix_cons_iff.mp hl with heq | hl
    · cases heq
      exact hnil
    · exact h l below hl
  | pop x _ hs => exact h l below (hs ▸ hl.trans (List.suffix_cons _ _))
  | loop l₀ l' below₀ hs _ hs' =>
    have hbelow : .eventLoop l' :: below₀ <:+ s'.stack := by
      rcases hs' with hs' | ⟨_, x, hs'⟩
      · rw [hs']
      · rw [hs']
        exact List.suffix_cons _ _
    obtain rfl : below₀ = [] := h l₀ below₀ (by rw [hs])
    have hnot : ∀ {rest : List CFrame}, .eventLoop l :: below <:+ .eventLoop l' :: rest →
        rest = [] → below = [] := by
      rintro rest hsuffix rfl
      have hlt := hsuffix.length_le
      simpa using hlt
    rcases hs' with hs' | ⟨_, x, hs'⟩
    · rw [hs'] at hl
      exact hnot hl rfl
    · rw [hs'] at hl
      rcases List.suffix_cons_iff.mp hl with heq | hl
      · cases heq
      · exact hnot hl rfl
  | leave l₀ hs _ => exact h l below (hs ▸ hl.trans (List.suffix_cons _ _))

theorem length_stack_le {stack : List CFrame}
    (h : ∀ l below, .eventLoop l :: below <:+ stack → below = []) :
    stack.length ≤ (activations stack).length + 1 := by
  induction stack with
  | nil => exact Nat.zero_le _
  | cons f below ih =>
    cases f with
    | activation x =>
      have hle := ih fun l rest hl => h l rest (hl.trans (List.suffix_cons _ _))
      simpa using hle
    | eventLoop l =>
      obtain rfl := h l below (List.suffix_refl _)
      exact le_rfl

theorem loopAtBottom_of_reached (h : Reached InRoom s) : LoopAtBottom s := by
  refine h.invariant_of ?_ fun s a s' hreach hl hok hstep => ?_
  · rintro s ⟨_, _, _, _, rfl⟩ l below hl
    cases List.suffix_nil.mp hl
  · obtain ⟨_, hh, _⟩ := scheduled_of_inRoom (hreach.next hok hstep)
    exact loopAtBottom_step hreach hl hh hstep

def Status.isRunning : Status → Bool
  | .running _ => true
  | _ => false

def Status.context : Status → Option Ptr
  | .suspended _ c => some c
  | _ => none

theorem Status.context_eq_some {σ : Status} {c : Ptr} :
    σ.context = some c ↔ ∃ w, σ = .suspended w c := by
  cases σ <;> simp [Status.context]

def savedContexts (s : State) : List Ptr :=
  (liveTasks s.log).filterMap fun t => (status s.log t).context

theorem status_of_live (hs : Sched s) (hc : Counted s) {t : Ptr} (ht : t ∈ liveTasks s.log) :
    status s.log t ≠ .absent ∧ status s.log t ≠ .closed := by
  have hlive : cidOf s.log t = none ↔ status s.log t = .absent ∨ status s.log t = .closed :=
    hs.core.live t
  exact ⟨fun h => (hc.mem t).mp ht (hlive.mpr (.inl h)),
    fun h => (hc.mem t).mp ht (hlive.mpr (.inr h))⟩

theorem live_of_status (hs : Sched s) (hc : Counted s) {t : Ptr} (ha : status s.log t ≠ .absent)
    (hcl : status s.log t ≠ .closed) : t ∈ liveTasks s.log :=
  (hc.mem t).mpr fun hn => ((hs.core.live t).mp hn).elim ha hcl

theorem mem_savedContexts (hs : Sched s) (hc : Counted s) (hk : Kept s) (c : Ptr) :
    c ∈ savedContexts s ↔ ∃ ctx, s.contexts c = .saved ctx := by
  rw [savedContexts, List.mem_filterMap]
  constructor
  · rintro ⟨t, _, ht⟩
    obtain ⟨w, hst⟩ := Status.context_eq_some.mp ht
    obtain ⟨ctx, hctx, _⟩ := saver_eq_some.mp (hk t w c hst)
    exact ⟨ctx, hctx⟩
  · rintro ⟨ctx, hctx⟩
    obtain ⟨t, w, _, hst⟩ := hs.core.saved c ctx.task (saver_eq_some.mpr ⟨ctx, hctx, rfl⟩)
    have hst : status s.log t = .suspended w c := hst
    have hlive := live_of_status hs hc (t := t) (by simp [hst]) (by simp [hst])
    exact ⟨t, hlive, by rw [hst]; rfl⟩

theorem nodup_savedContexts (hc : Counted s) (hk : Kept s) : (savedContexts s).Nodup := by
  refine List.Nodup.filterMap (fun t t' c ht ht' => ?_) hc.nodup
  obtain ⟨w, hst⟩ := Status.context_eq_some.mp ht
  obtain ⟨w', hst'⟩ := Status.context_eq_some.mp ht'
  simpa using (hk t w c hst).symm.trans (hk t' w' c hst')

theorem running_perm (hs : Sched s) (hc : Counted s) (hseat : Seated s) :
    ((activations s.stack).filterMap Activation.task).Perm
      ((liveTasks s.log).filter fun t => (status s.log t).isRunning) := by
  have hrunning : ∀ x ∈ activations s.stack, ∀ t, x.task = some t →
      status s.log t = .running x.id := by
    intro x hx t ht
    obtain ⟨t', ht', hst⟩ := hs.core.running x hx
    cases ht.symm.trans ht'
    exact hst
  refine (List.perm_ext_iff_of_nodup ?_ (hc.nodup.filter _)).mpr fun t => ?_
  · -- the activation of a coroutine is in its status
    rw [List.Nodup, List.pairwise_filterMap]
    refine hs.core.descending.imp_of_mem fun {x y} hx hy hlt t ht t' ht' heq => ?_
    subst heq
    have hid : x.id = y.id := by simpa using (hrunning x hx t ht).symm.trans (hrunning y hy t ht')
    exact hlt.ne' hid
  · rw [List.mem_filterMap, List.mem_filter]
    constructor
    · rintro ⟨x, hx, ht⟩
      have hst := hrunning x hx t ht
      exact ⟨live_of_status hs hc (by simp [hst]) (by simp [hst]), by rw [hst]; rfl⟩
    · rintro ⟨_, hrun⟩
      cases hst : status s.log t with
      | running act => exact hseat t act hst
      | absent => simp [hst, Status.isRunning] at hrun
      | suspended w c => simp [hst, Status.isRunning] at hrun
      | closed => simp [hst, Status.isRunning] at hrun

theorem length_tasks (hs : Sched s) :
    ((activations s.stack).filterMap Activation.task).length = (activations s.stack).length := by
  rw [List.length_filterMap_eq_countP, List.countP_eq_length]
  intro x hx
  obtain ⟨t, ht, _⟩ := hs.core.running x hx
  rw [ht]
  rfl

/-- Each coroutine that is not closed runs in an activation or is suspended in a context. -/
theorem length_savedContexts (hs : Sched s) (hc : Counted s) (hseat : Seated s) :
    (activations s.stack).length + (savedContexts s).length = s.corog.coroNum := by
  have hcount := List.length_eq_countP_add_countP (fun t => (status s.log t).isRunning)
    (l := liveTasks s.log)
  have hrunning : (activations s.stack).length =
      (liveTasks s.log).countP fun t => (status s.log t).isRunning := by
    rw [← length_tasks hs, (running_perm hs hc hseat).length_eq, List.countP_eq_length_filter]
  have hsuspended : (savedContexts s).length =
      (liveTasks s.log).countP fun t => ¬ (status s.log t).isRunning := by
    rw [savedContexts, List.length_filterMap_eq_countP]
    refine List.countP_congr fun t ht => ?_
    obtain ⟨ha, hcl⟩ := status_of_live hs hc ht
    cases hst : status s.log t with
    | absent => exact absurd hst ha
    | closed => exact absurd hst hcl
    | running act => simp [Status.isRunning, Status.context]
    | suspended w c => simp [Status.isRunning, Status.context]
  rw [hc.coroNum, hcount, hrunning, hsuspended]

/-- Each coroutine that is not closed holds one cid. -/
theorem card_heldSet (hs : Sched s) (hc : Counted s) (hl : Ledger s) :
    s.cids.heldSet.card = s.corog.coroNum := by
  have hcid : ∀ t ∈ liveTasks s.log, ∃ n : ℕ, cidOf s.log t = some ((n : ℤ) + 1) ∧
      n ∈ s.cids.heldSet := by
    intro t ht
    obtain ⟨cid, hcid⟩ := Option.ne_none_iff_exists'.mp ((hc.mem t).mp ht)
    rcases hs.core.cidHeld t cid hcid with hm | ⟨n, hn, hm, hheld⟩
    · exact absurd (hm ▸ hcid) (hc.numbered t)
    · exact ⟨n, hm ▸ hcid, CidAllocator.mem_heldSet.mpr ⟨hn, hheld⟩⟩
  choose! n hn hmem using hcid
  have himage : s.cids.heldSet = (liveTasks s.log).toFinset.image n := by
    ext k
    rw [Finset.mem_image]
    constructor
    · intro hk
      obtain ⟨t, ht⟩ := hl.cids k (CidAllocator.mem_heldSet.mp hk).2
      have hlive : t ∈ liveTasks s.log := (hc.mem t).mpr (by simp [ht])
      refine ⟨t, List.mem_toFinset.mpr hlive, ?_⟩
      have heq := Option.some.inj ((hn t hlive).symm.trans ht)
      omega
    · rintro ⟨t, ht, rfl⟩
      exact hmem t (List.mem_toFinset.mp ht)
  rw [himage, Finset.card_image_of_injOn, List.toFinset_card_of_nodup hc.nodup, hc.coroNum]
  intro t ht t' ht' heq
  have ht := List.mem_toFinset.mp ht
  have ht' := List.mem_toFinset.mp ht'
  have hsame : cidOf s.log t' = some ((n t : ℤ) + 1) := by
    rw [show n t = n t' from heq]
    exact hn t' ht'
  exact hs.core.cidInj t t' _ (hn t ht) hsame (by omega)

/-- The C stack, the contexts, the jump buffers, the pages and the cids are those of the
coroutines that are not closed, and there are no more of these than `max_coro_num`. -/
structure Holdings (s : State) : Prop where
  limit : s.corog.coroNum ≤ s.corog.maxCoroNum
  stack : s.stack.length ≤ s.corog.coroNum + 1
  contexts : ∃ cs : List Ptr, cs.Nodup ∧ (∀ c, c ∈ cs ↔ ∃ ctx, s.contexts c = .saved ctx) ∧
    (activations s.stack).length + cs.length = s.corog.coroNum
  bufs : ∃ bs : List Ptr, bs.Nodup ∧ (∀ b, b ∈ bs ↔ s.jmpBufs b ≠ .unallocated) ∧
    bs.length ≤ (activations s.stack).length + 1
  pages : ∃ ps : List Ptr, ps.Nodup ∧ (∀ p, p ∈ ps ↔ s.tasks p ≠ none) ∧
    ps.length = s.corog.coroNum
  cids : s.cids.cidmap.nrFree + s.corog.coroNum = 0x8000

/-- In every run in which there is room, whoever waits and whatever was lost. -/
theorem holds_its_own (h : Reached InRoom s) : Holdings s := by
  obtain ⟨hs, hh, hl, hc⟩ := scheduled_of_inRoom h
  have hown : Reached FinishesOwn s := by
    refine h.mono fun s a s' _ hreach _ _ => ?_
    obtain ⟨hs, hh, _⟩ := scheduled_of_inRoom hreach
    exact hh.finishesOwn hs a
  have hcontexts := length_savedContexts hs hc (seated_of_reached hown)
  constructor
  case limit => exact hc.limit
  case stack =>
    have hle := length_stack_le (loopAtBottom_of_reached h)
    omega
  case contexts =>
    have hk := kept_of_reached hown
    exact ⟨savedContexts s, nodup_savedContexts hc hk, mem_savedContexts hs hc hk, hcontexts⟩
  case bufs =>
    have hb : Based s := based_of_reached (fun _ _ => id) hown
    exact ⟨usedBufs s, hb.nodup, hb.mem, length_usedBufs_le s⟩
  case pages =>
    refine ⟨liveTasks s.log, hc.nodup, fun p => ?_, hc.coroNum.symm⟩
    rw [hc.mem]
    exact ((ownershipLaw_of_reached h).pages p).symm
  case cids =>
    rw [← card_heldSet hs hc hl]
    exact hc.cids.nrFree

theorem holds_its_own_readers : ∃ s, runFrom step (initial 0 0)
      [createCall 1, readCall 3, createCall 2, readCall 3, createCall 3] = .ok s ∧
    s.corog.coroNum = 3 ∧ (activations s.stack).length = 1 ∧ Holdings s := by
  have hok : ∀ s a, testInRoom s a = true → InRoom s a := fun _ _ => inRoom_of_test
  obtain ⟨s, hrun, hs, hp⟩ := exists_reached_of _ hok
    [createCall 1, readCall 3, createCall 2, readCall 3, createCall 3]
    (fun s => s.corog.coroNum = 3 ∧ (activations s.stack).length = 1) (by decide +kernel)
  obtain ⟨hnum, hdepth⟩ := of_decide_eq_true hp
  exact ⟨s, hrun, hnum, hdepth, holds_its_own hs⟩

end Phpco
