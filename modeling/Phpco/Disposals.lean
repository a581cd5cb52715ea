import Phpco.CidLaw
import Phpco.NestingLaw

namespace Phpco
open Except CidAllocator

/-- The cid and the return value each coroutine was created with. -/
def born : List Event → Ptr → Option (ℤ × Ptr)
  | [] => fun _ => none
  | .created t cid retval _ :: log => Function.update (born log) t (some (cid, retval))
  | _ :: log => born log

def Event.closes (t : Ptr) : Event → Bool
  | .closed t' _ _ _ => t' = t
  | _ => false

def closings (log : List Event) (t : Ptr) : ℕ := log.countP (Event.closes t)

def Event.passes : Event → Bool
  | .created _ _ _ _ => false
  | .closed _ _ _ _ => false
  | _ => true

section

variable {log log' log'' : List Event} {e : Event} {next next' t cid retval act page : Ptr}

structure SameLives (log log' : List Event) : Prop where
  born : born log' = born log
  cidOf : cidOf log' = cidOf log
  closings : ∀ t, closings log' t = closings log t
  closed : ∀ t cid page retval, .closed t cid page retval ∈ log' →
    .closed t cid page retval ∈ log

theorem SameLives.refl (log : List Event) : SameLives log log :=
  ⟨rfl, rfl, fun _ => rfl, fun _ _ _ _ h => h⟩

theorem SameLives.trans (h : SameLives log log') (h' : SameLives log' log'') :
    SameLives log log'' :=
  ⟨h'.born.trans h.born, h'.cidOf.trans h.cidOf, fun t => (h'.closings t).trans (h.closings t),
    fun t cid page retval hm => h.closed t cid page retval (h'.closed t cid page retval hm)⟩

theorem sameLives_cons (log : List Event) (he : e.passes = true) : SameLives log (e :: log) := by
  cases e with
  | created _ _ _ _ => cases he
  | closed _ _ _ _ => cases he
  | switched τ w c act result =>
    exact ⟨rfl, rfl, fun _ => rfl, fun _ _ _ _ h => by simpa using h⟩
  | suspended τ w c => exact ⟨rfl, rfl, fun _ => rfl, fun _ _ _ _ h => by simpa using h⟩
  | returned v => exact ⟨rfl, rfl, fun _ => rfl, fun _ _ _ _ h => by simpa using h⟩

theorem sameLives_returned (vs : List Zval) (log : List Event) :
    SameLives log (vs.map .returned ++ log) := by
  induction vs with
  | nil => exact .refl log
  | cons v vs ih => exact ih.trans (sameLives_cons _ rfl)

theorem born_of_absent (log : List Event) (h : status log t = .absent) : born log t = none := by
  induction log with
  | nil => rfl
  | cons e log ih =>
    cases e with
    | created t' _ _ _ =>
      by_cases htt : t = t'
      · simp [htt] at h
      · rw [status_created, Function.update_of_ne htt] at h
        rw [born, Function.update_of_ne htt]
        exact ih h
    | switched τ _ _ _ _ =>
      cases τ with
      | none => exact ih h
      | some t' =>
        by_cases htt : t = t'
        · simp [htt] at h
        · rw [status_switched, Function.update_of_ne htt] at h
          exact ih h
    | suspended τ _ _ =>
      cases τ with
      | none => exact ih h
      | some t' =>
        by_cases htt : t = t'
        · simp [htt] at h
        · rw [status_suspended, Function.update_of_ne htt] at h
          exact ih h
    | closed t' _ _ _ =>
      by_cases htt : t = t'
      · simp [htt] at h
      · rw [status_closed, Function.update_of_ne htt] at h
        exact ih h
    | returned _ => exact ih h

/-- The record of the coroutines created so far, with addresses below `next`. -/
structure TrueRecord (log : List Event) (next : Ptr) : Prop where
  lt : ∀ t cid retval, born log t = some (cid, retval) → t < next ∧ retval < next
  named : ∀ t cid, cidOf log t = some cid → ∃ retval, born log t = some (cid, retval)
  distinct : ∀ t t' cid cid' retval, born log t = some (cid, retval) →
    born log t' = some (cid', retval) → t = t'
  closed : ∀ t cid page retval, .closed t cid page retval ∈ log →
    page = t ∧ born log t = some (cid, retval)
  once : ∀ t, closings log t = if born log t ≠ none ∧ cidOf log t = none then 1 else 0

theorem trueRecord_nil (next : Ptr) : TrueRecord [] next := by
  refine ⟨?_, ?_, ?_, ?_, fun _ => rfl⟩ <;> simp [born, cidOf]

theorem TrueRecord.mono (h : TrueRecord log next) (hs : SameLives log log') (hn : next ≤ next') :
    TrueRecord log' next' where
  lt t cid retval hb := by
    rw [hs.born] at hb
    exact (h.lt t cid retval hb).imp (·.trans_le hn) (·.trans_le hn)
  named := by
    rw [hs.born, hs.cidOf]
    exact h.named
  distinct := by
    rw [hs.born]
    exact h.distinct
  closed t cid page retval hm := by
    rw [hs.born]
    exact h.closed t cid page retval (hs.closed t cid page retval hm)
  once t := by
    rw [hs.closings, hs.born, hs.cidOf]
    exact h.once t

theorem TrueRecord.fresh (h : TrueRecord log next) (ht : next ≤ t) :
    born log t = none ∧ cidOf log t = none := by
  have hb : born log t = none := by
    by_contra hne
    obtain ⟨⟨cid, retval⟩, hb⟩ := Option.ne_none_iff_exists'.mp hne
    exact absurd (h.lt t cid retval hb).1 (not_lt.mpr ht)
  refine ⟨hb, ?_⟩
  by_contra hne
  obtain ⟨cid, hc⟩ := Option.ne_none_iff_exists'.mp hne
  obtain ⟨retval, hb'⟩ := h.named t cid hc
  rw [hb] at hb'
  cases hb'

theorem TrueRecord.created {cid : ℤ} (h : TrueRecord log next) (ht : next ≤ t) (hr : next ≤ retval)
    (htn : t < next') (hrn : retval < next') (hn : next ≤ next') :
    TrueRecord (.created t cid retval act :: log) next' := by
  obtain ⟨hb, hc⟩ := h.fresh ht
  -- the slot for the return value is fresh, so nobody was given it before
  have hslot : ∀ t' cid', born log t' ≠ some (cid', retval) := by
    intro t' cid' hb'
    exact absurd (h.lt t' cid' retval hb').2 (not_lt.mpr hr)
  constructor
  case lt =>
    intro t' cid' retval' hb'
    by_cases htt : t' = t
    · subst htt
      simp only [born, Function.update_self, Option.some.injEq, Prod.mk.injEq] at hb'
      exact ⟨htn, hb'.2 ▸ hrn⟩
    · rw [born, Function.update_of_ne htt] at hb'
      exact (h.lt t' cid' retval' hb').imp (·.trans_le hn) (·.trans_le hn)
  case named =>
    intro t' cid' hc'
    by_cases htt : t' = t
    · subst htt
      rw [cidOf_created, Function.update_self] at hc'
      cases hc'
      exact ⟨retval, Function.update_self ..⟩
    · rw [cidOf_created, Function.update_of_ne htt] at hc'
      rw [born, Function.update_of_ne htt]
      exact h.named t' cid' hc'
  case distinct =>
    intro t₁ t₂ cid₁ cid₂ r h₁ h₂
    by_cases ht₁ : t₁ = t
    · by_cases ht₂ : t₂ = t
      · exact ht₁.trans ht₂.symm
      · simp only [ht₁, born, Function.update_self, Option.some.injEq, Prod.mk.injEq] at h₁
        rw [born, Function.update_of_ne ht₂, ← h₁.2] at h₂
        exact absurd h₂ (hslot _ _)
    · rw [born, Function.update_of_ne ht₁] at h₁
      by_cases ht₂ : t₂ = t
      · simp only [ht₂, born, Function.update_self, Option.some.injEq, Prod.mk.injEq] at h₂
        rw [← h₂.2] at h₁
        exact absurd h₁ (hslot _ _)
      · rw [born, Function.update_of_ne ht₂] at h₂
        exact h.distinct t₁ t₂ cid₁ cid₂ r h₁ h₂
  case closed =>
    intro t' cid' page retval' hm
    have hm' : .closed t' cid' page retval' ∈ log := by simpa using hm
    obtain ⟨hp, hb'⟩ := h.closed t' cid' page retval' hm'
    -- what was closed was created before, and the new coroutine was not
    have htt : t' ≠ t := by
      rintro rfl
      rw [hb] at hb'
      cases hb'
    rw [born, Function.update_of_ne htt]
    exact ⟨hp, hb'⟩
  case once =>
    intro t'
    have hsame : closings (.created t cid retval act :: log) t' = closings log t' := rfl
    rw [hsame, h.once t', born, cidOf_created]
    by_cases htt : t' = t
    · simp [htt, hb]
    · rw [Function.update_of_ne htt, Function.update_of_ne htt]

theorem TrueRecord.close {cid : ℤ} (h : TrueRecord log next) (hc : cidOf log t = some cid)
    (hb : born log t = some (cid, retval)) : TrueRecord (.closed t cid t retval :: log) next := by
  constructor
  case lt => exact h.lt
  case named =>
    intro t' cid' hc'
    by_cases htt : t' = t
    · rw [htt, cidOf_closed, Function.update_self] at hc'
      cases hc'
    · rw [cidOf_closed, Function.update_of_ne htt] at hc'
      exact h.named t' cid' hc'
  case distinct => exact h.distinct
  case closed =>
    intro t' cid' page retval' hm
    rcases List.mem_cons.mp hm with heq | hm
    · cases heq
      exact ⟨rfl, hb⟩
    · exact h.closed t' cid' page retval' hm
  case once =>
    intro t'
    have hcount : closings (.closed t cid t retval :: log) t' =
        closings log t' + if t = t' then 1 else 0 := by
      simp [closings, Event.closes, List.countP_cons]
    have hborn : born (.closed t cid t retval :: log) = born log := rfl
    -- a coroutine is closed once it has a birth and no cid any more
    rw [hcount, h.once t', hborn, cidOf_closed]
    by_cases htt : t = t'
    · subst htt
      simp [hc, hb]
    · rw [Function.update_of_ne (Ne.symm htt), if_neg htt]
      rfl

end

/-- No coroutine begins or ends, and no cid is taken or freed. -/
structure Keeps (s s' : State) : Prop where
  lives : SameLives s.log s'.log
  cids : s'.cids = s.cids
  tasks : SameTasks s'.tasks s.tasks
  next : s.next ≤ s'.next

theorem SameTasks.eq_none_iff {f g : Ptr → Option CoroTask} (h : SameTasks f g) (p : Ptr) :
    f p = none ↔ g p = none := by
  rw [← Option.map_eq_none_iff (f := (·.cid)), h p, Option.map_eq_none_iff]

theorem SameTasks.trans {f g k : Ptr → Option CoroTask} (h : SameTasks f g) (h' : SameTasks g k) :
    SameTasks f k := fun t => (h t).trans (h' t)

theorem Keeps.trans {s₁ s₂ s₃ : State} (h : Keeps s₁ s₂) (h' : Keeps s₂ s₃) : Keeps s₁ s₃ :=
  ⟨h.lives.trans h'.lives, h'.cids.trans h.cids, h'.tasks.trans h.tasks, h.next.trans h'.next⟩

theorem Quiet.keeps {s s' : State} (h : Quiet s s') : Keeps s s' := by
  obtain ⟨vs, hlog⟩ := h.log
  refine ⟨?_, h.cids, ?_, h.next⟩
  · rw [hlog]
    exact sameLives_returned vs s.log
  · rw [h.tasks]
    exact .refl _

theorem keeps_cCoroResume {s s' : State} {c : Ptr} {retval : Option Zval} {w : Wait}
    {switch : Switch} (h : cCoroResume s c retval w switch = .ok s') : Keeps s s' := by
  have hu := unswitched_cCoroResume h
  obtain ⟨ctx, current, frames, result, _, _, _, _, hj⟩ := cCoroResume_cases h
  obtain ⟨buf, _, _, rfl⟩ := setjmp_eq_ok.mp hj
  exact ⟨sameLives_cons _ rfl, hu.cids, hu.tasks, Nat.le_succ _⟩

theorem keeps_returnFrom {s s' : State} {switch : Switch} {ret : ℤ} (hret : 0 ≤ ret)
    (h : returnFrom s switch ret = .ok s') : Keeps s s' := by
  obtain ⟨hu, _, hnext⟩ := unswitched_returnFrom hret h
  obtain ⟨vs, hlog⟩ := returned_of_log (log_returnFrom hret h)
  refine ⟨?_, hu.cids, hu.tasks, hnext.ge⟩
  rw [hlog]
  exact sameLives_returned vs s.log

theorem keeps_coroYield {s s' : State} (h : coroYield s = .ok s') : Keeps s s' := by
  obtain ⟨x, stack, _, hret⟩ := coroYield_eq_ok.mp h
  have h := keeps_returnFrom (by decide) hret
  exact ⟨h.lives, h.cids, h.tasks, h.next⟩

def LimitReached (s : State) : Prop :=
  (ensureInit s).corog.maxCoroNum ≤ (ensureInit s).corog.coroNum ∧ s.cids.cidmap.nrFree ≠ 0

instance (s : State) : Decidable (LimitReached s) := inferInstanceAs (Decidable (_ ∧ _))

def FrameFits (s : State) (slots : ℕ) : Prop :=
  zendVmStackElements + 1 + taskSlot + slots ≤ stackSlots (ensureInit s).corog.stackSize

instance (s : State) (slots : ℕ) : Decidable (FrameFits s slots) :=
  inferInstanceAs (Decidable (_ ≤ _))

/-- The coroutine `t` starts, on a page of its own if its frame fits there. -/
structure Starts (s : State) (slots : ℕ) (t : Ptr) (cid : ℤ) (retval : Ptr) (s' : State) :
    Prop where
  alloc : allocCidmap s.cids = some (cid, s'.cids)
  fresh : s.next ≤ t ∧ t < retval ∧ retval < s'.next
  tasks : s'.tasks = Function.update s.tasks t (some ⟨cid, none⟩)
  contexts : s'.contexts = s.contexts
  log : ∃ act, s'.log = .created t cid retval act :: s.log
  stack : ∃ x, s'.stack = .activation x :: s.stack
  currentCoro : s'.corog.currentCoro = some t
  slot : s'.corog.allocatedReturnValuePtr = some retval
  frames : s'.eg.currentExecuteData ≠ []
  page : basePage s'.eg.vm s'.eg.currentExecuteData = t ↔ FrameFits s slots

theorem starts_create {s s' : State} {site : CallSite} {slots : ℕ} {callback : Zval}
    (hlimit : ¬ LimitReached s)
    (h : coroutineCreate (enterCall s site) (callFrame s site) slots callback = .ok s') :
    ∃ t cid retval, Starts s slots t cid retval s' := by
  have hle : s.next ≤ (enterCall s site).next := Nat.le_succ _
  obtain ⟨_, hstack, hcontexts, htasks, hnext, _⟩ := ensureInit_kept (enterCall s site)
  obtain ⟨hcoroNum, hmax, _, _, _⟩ := ensureInit_enterCall s site
  have hcids : (ensureInit (enterCall s site)).cids = s.cids := ensureInit_cids _
  have hlog : (ensureInit (enterCall s site)).log = s.log := ensureInit_log _
  have hsize : (ensureInit (enterCall s site)).corog.stackSize = (ensureInit s).corog.stackSize := by
    by_cases hcp : s.checkPoint = none
    · simp [ensureInit, hcp, coroInit, enterCall]
    · simp [ensureInit, hcp, enterCall]
  obtain ⟨cid, cids, ha, ⟨hfull, hcid, _⟩ | ⟨_, hj⟩⟩ := coroutineCreate_cases h
  · -- a cid was found, so the limit made it return
    rw [hcoroNum, hmax] at hfull
    refine absurd ⟨hfull, fun hz => hcid ?_⟩ hlimit
    rw [hcids, allocCidmap, if_pos hz] at ha
    cases ha
    rfl
  · generalize ensureInit (enterCall s site) = i at hstack hcontexts htasks hnext hcids hlog hsize ha hj
    obtain ⟨buf, _, _, rfl⟩ := setjmp_eq_ok.mp hj
    have hfresh : s.next ≤ i.next + 1 := (hle.trans hnext).trans (Nat.le_succ _)
    refine ⟨i.next + 1, cid, i.next + 2, hcids ▸ ha, ⟨hfresh, Nat.lt_succ_self _, ?_⟩, ?_,
      hcontexts, ⟨i.next + 4, ?_⟩, ⟨_, congrArg (List.cons _) hstack⟩, rfl, rfl,
      by simp [startTask], ?_⟩
    · exact Nat.lt_add_of_pos_right (k := 3) (by decide)
    · simp only [startTask, newCheckPoint, htasks]
      rfl
    · simp only [startTask, newCheckPoint, hlog]
    · simp only [startTask, newCheckPoint, basePage, pushCallFrame, hsize, FrameFits]
      -- a frame that does not fit gets a page of its own, on top of the first
      split_ifs with hfits
      · simp [hfits]
      · simp [hfits]

/-- The coroutine `t` finishes, and what the registers refer to is released. -/
structure Finishes (s : State) (t : Ptr) (task : CoroTask) (retval : Ptr) (s' : State) : Prop where
  currentCoro : s.corog.currentCoro = some t
  coroTask : s.tasks t = some task
  slot : s.corog.allocatedReturnValuePtr = some retval
  cids : s'.cids = freeCidmap task.cid s.cids
  tasks : ∀ p, s'.tasks p = none ↔ p = s.eg.vm.stack ∨ s.tasks p = none
  log : ∃ vs : List Zval,
    s'.log = vs.map .returned ++ .closed t task.cid s.eg.vm.stack retval :: s.log
  next : s.next ≤ s'.next

theorem Finishes.lives {s s' : State} {t : Ptr} {task : CoroTask} {retval : Ptr}
    (h : Finishes s t task retval s') :
    SameLives (.closed t task.cid s.eg.vm.stack retval :: s.log) s'.log := by
  obtain ⟨vs, hlog⟩ := h.log
  rw [hlog]
  exact sameLives_returned vs _

theorem finishes_finish {s s₁ s' : State} {x : Activation} {stack : List CFrame}
    (hc : coroClose { s with eg := ⟨s.eg.vm, []⟩, stack := stack } = .ok s₁)
    (hret : returnFrom s₁ x.switch coroEnd = .ok s') :
    ∃ t task retval, Finishes s t task retval s' := by
  obtain ⟨t, task, retval, hcur, htask, hr, rfl⟩ := coroClose_eq_ok.mp hc
  have hk := keeps_returnFrom (by decide) hret
  refine ⟨t, task, retval, hcur, htask, hr, hk.cids, fun p => ?_, ?_, hk.next⟩
  · rw [hk.tasks.eq_none_iff]
    by_cases hp : p = s.eg.vm.stack
    · simp [hp]
    · simp [hp]
  · exact returned_of_log (log_returnFrom (by decide) hret)

/-- What a step does with the cids, the pages and the return values. -/
inductive Disposal (s : State) (a : Action) (s' : State) : Prop
  | keeps : a ≠ .finish → Keeps s s' → Disposal s a s'
  | starts (site : CallSite) (slots : ℕ) (callback : Zval) (t : Ptr) (cid : ℤ) (retval : Ptr) :
      a = .create site slots callback → Starts s slots t cid retval s' → Disposal s a s'
  | finishes (x : Activation) (rest : List CFrame) (base : ExecuteData) (t : Ptr) (task : CoroTask)
      (retval : Ptr) : a = .finish → s.stack = .activation x :: rest →
      s.eg.currentExecuteData = [base] → Finishes s t task retval s' → Disposal s a s'

theorem step_finish {s s' : State} (h : step s .finish = .ok s') :
    ∃ x stack base s₁, s.stack = .activation x :: stack ∧ s.eg.currentExecuteData = [base] ∧
      coroClose { s with eg := ⟨s.eg.vm, []⟩, stack := stack } = .ok s₁ ∧
      returnFrom s₁ x.switch coroEnd = .ok s' := by
  obtain ⟨_, o, ho, hs⟩ := php_step_cases rfl h
  cases phpStep_cases rfl ho with
  | finish x stack base s₁ s₂ hstack hex hc hret =>
    cases hs
    exact ⟨x, stack, base, s₁, hstack, hex, hc, hret⟩

theorem disposal_step {s s' : State} {a : Action} (hr : TableWf s.rg)
    (hlimit : ∀ site slots callback, a = .create site slots callback → ¬ LimitReached s)
    (h : step s a = .ok s') : Disposal s a s' := by
  by_cases hfin : a = .finish
  · subst hfin
    obtain ⟨x, stack, base, s₁, hstack, hex, hc, hret⟩ := step_finish h
    obtain ⟨t, task, retval, hf⟩ := finishes_finish hc hret
    exact .finishes x stack base t task retval rfl hstack hex hf
  cases step_move hr h with
  | quiet hq _ _ => exact .keeps hfin hq.keeps
  | enterLoop _ _ _ hq _ => exact .keeps hfin hq.keeps
  | loop _ _ _ hq _ _ _ _ => exact .keeps hfin hq.keeps
  | leaveLoop _ _ hq _ _ _ => exact .keeps hfin hq.keeps
  | invoke l l' stack fd ev c v _ _ _ _ _ hres =>
    have hk := keeps_cCoroResume hres
    exact .keeps hfin ⟨hk.lives, hk.cids, hk.tasks, hk.next⟩
  | create site slots callback ha _ hc =>
    obtain ⟨t, cid, retval, hs⟩ := starts_create (hlimit site slots callback ha) hc
    exact .starts site slots callback t cid retval ha hs
  | resume site arg c _ _ _ _ hres =>
    have hnew : Keeps (enterCall s site) (newCheckPoint (enterCall s site)) :=
      ⟨.refl _, rfl, .refl _, Nat.le_succ _⟩
    exact .keeps hfin ((quiet_enterCall s site).keeps.trans (hnew.trans (keeps_cCoroResume hres)))
  | yield site s₁ _ _ hy hc =>
    obtain ⟨t, task, _, _, _, rfl⟩ := coroutineYield_cases hy
    have hk := keeps_coroYield hc
    -- a coroutine that is saved still lives
    have hsave : SameLives s.log (.suspended (some t) (.yield task.cid) (enterCall s site).next ::
        (enterCall s site).log) := sameLives_cons _ rfl
    exact .keeps hfin ⟨hsave.trans hk.lives, hk.cids, hk.tasks,
      (Nat.le_add_right s.next 2).trans hk.next⟩
  | block fd c s₁ _ _ _ hbl hc =>
    have hblock : Keeps s s₁ := by
      refine ⟨?_, hbl.cids, ?_, hbl.fresh.1.trans hbl.fresh.2.le⟩
      · rw [hbl.log]
        exact sameLives_cons _ rfl
      · rw [hbl.tasks]
        exact .refl _
    exact .keeps hfin (hblock.trans (keeps_coroYield hc))
  | finish x stack base s₁ ha _ _ _ _ => exact absurd ha hfin

end Phpco
