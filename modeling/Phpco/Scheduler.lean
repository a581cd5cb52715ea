import Phpco.CoroutineUtil

/-!
# The scheduler

What remains of a request when only the coroutines are looked at: who is saved
in which context, under which cid, waiting for what.  Starting, switching to,
suspending and closing a coroutine keep one invariant.
-/

namespace Phpco

def CFrame.activation? : CFrame → Option Activation
  | .activation x => some x
  | .eventLoop _ => none

def activations (stack : List CFrame) : List Activation := stack.filterMap CFrame.activation?

@[simp] theorem activations_nil : activations [] = [] := rfl

@[simp] theorem activations_cons_activation (x : Activation) (stack : List CFrame) :
    activations (.activation x :: stack) = x :: activations stack := rfl

@[simp] theorem activations_cons_eventLoop (l : EventLoop) (stack : List CFrame) :
    activations (.eventLoop l :: stack) = activations stack := rfl

def Switch.context : Switch → Option Ptr
  | .create .. => none
  | .resume _ _ context _ _ => some context
  | .invoke _ _ context => some context

/-- `saved` gives the coroutine of each context that can be switched to, `cidOf` the
cid of each coroutine that is not closed, and `held` the positions of the cidmap taken. -/
structure Scheduler where
  next : Ptr
  saved : Ptr → Option (Option Ptr)
  cidOf : Ptr → Option ℤ
  contextMap : ℤ → Option Ptr
  held : ℕ → Bool
  waiter : ℤ → Option Ptr
  log : List Event

/-- What `cid_context_map` holds for a cid. -/
def Scheduler.EntryOk (v : Scheduler) (cid : ℤ) : Entry → Prop
  | .never => v.contextMap cid = none
  | .yielded c => v.contextMap cid = some c ∧ ∃ t, status v.log t = .suspended (.yield cid) c
  | .resumed c => v.contextMap cid = some c ∧ c < v.next ∧ v.saved c = none

/-- The coroutines of the activations `xs` run, one inside the other, and every
context that is saved is the one its coroutine is suspended with. -/
structure Core (xs : List Activation) (v : Scheduler) : Prop where
  ids : ∀ x ∈ xs, x.id < v.next ∧ x.buf < v.next
  descending : xs.Pairwise fun x y => y.id < x.id
  running : ∀ x ∈ xs, ∃ t, x.task = some t ∧ status v.log t = .running x.id
  holders : ∀ x ∈ xs, ∀ c, x.switch.context = some c → c < v.next ∧ v.saved c = none
  live : ∀ t, v.cidOf t = none ↔ status v.log t = .absent ∨ status v.log t = .closed
  fresh : ∀ t, v.next ≤ t → status v.log t = .absent ∧ v.saved t = none
  saved : ∀ c τ, v.saved c = some τ → ∃ t w, τ = some t ∧ status v.log t = .suspended w c
  yielded : ∀ t cid c, status v.log t = .suspended (.yield cid) c →
    v.saved c = some (some t) ∧ v.cidOf t = some cid ∧ entry v.log cid = .yielded c
  entries : ∀ cid, v.EntryOk cid (entry v.log cid)
  waiters : ∀ fd c, v.waiter fd = some c →
    ∃ t, v.saved c = some (some t) ∧ status v.log t = .suspended (.io fd) c
  cidHeld : ∀ t cid, v.cidOf t = some cid →
    cid = -1 ∨ ∃ n : ℕ, n < 0x8000 ∧ cid = n + 1 ∧ v.held n = true
  cidInj : ∀ t t' cid, v.cidOf t = some cid → v.cidOf t' = some cid → cid ≠ -1 → t = t'
  unswitched : ∀ c, v.next ≤ c ∨ v.saved c ≠ none → switches v.log c = 0
  switchedOnce : ∀ c, switches v.log c ≤ 1

/-- An entry stands as long as no coroutine suspended under its cid is switched to and no
context is saved at an address that was handed out. -/
theorem Scheduler.EntryOk.mono {v v' : Scheduler} {cid : ℤ} {e : Entry} (h : v.EntryOk cid e)
    (hnext : v.next ≤ v'.next) (hmap : v'.contextMap cid = v.contextMap cid)
    (hyielded : ∀ c t, e = .yielded c → status v.log t = .suspended (.yield cid) c →
      status v'.log t = .suspended (.yield cid) c)
    (hresumed : ∀ c < v.next, v.saved c = none → v'.saved c = none) : v'.EntryOk cid e := by
  cases e with
  | never => exact hmap.trans h
  | yielded c =>
    obtain ⟨hm, t, hs⟩ := h
    exact ⟨hmap.trans hm, t, hyielded c t rfl hs⟩
  | resumed c =>
    obtain ⟨hm, hlt, hsaved⟩ := h
    exact ⟨hmap.trans hm, hlt.trans_le hnext, hresumed c hlt hsaved⟩

namespace Core

variable {xs : List Activation} {x y : Activation} {v v' : Scheduler}

theorem mono (h : Core xs v) (hnext : v.next ≤ v'.next) (hsaved : v'.saved = v.saved)
    (hcid : v'.cidOf = v.cidOf) (hmap : v'.contextMap = v.contextMap)
    (hheld : ∀ n, v.held n = true → v'.held n = true)
    (hwait : ∀ fd c, v'.waiter fd = some c → v.waiter fd = some c)
    (hlog : ∃ vs : List Zval, v'.log = vs.map .returned ++ v.log) : Core xs v' := by
  obtain ⟨vs, hlog⟩ := hlog
  have hst : status v'.log = status v.log := by rw [hlog, status_returned]
  have hen : entry v'.log = entry v.log := by rw [hlog, entry_returned]
  have hsw : ∀ c, switches v'.log c = switches v.log c := fun c => by rw [hlog, switches_returned]
  constructor
  case ids => exact fun x hx => (h.ids x hx).imp hnext.trans_lt' hnext.trans_lt'
  case descending => exact h.descending
  case running => simpa only [hst] using h.running
  case holders =>
    intro x hx c hc
    rw [hsaved]
    exact (h.holders x hx c hc).imp hnext.trans_lt' id
  case live => simpa only [hst, hcid] using h.live
  case fresh =>
    intro t ht
    rw [hst, hsaved]
    exact h.fresh t (hnext.trans ht)
  case saved => simpa only [hst, hsaved] using h.saved
  case yielded => simpa only [hst, hsaved, hcid, hen] using h.yielded
  case entries =>
    intro cid
    rw [hen]
    refine (h.entries cid).mono hnext (by rw [hmap]) (fun c t _ hs => ?_) fun c _ hc => ?_
    · rw [hst]
      exact hs
    · rw [hsaved]
      exact hc
  case waiters =>
    intro fd c hc
    simpa only [hst, hsaved] using h.waiters fd c (hwait fd c hc)
  case cidHeld =>
    intro t cid ht
    rw [hcid] at ht
    rcases h.cidHeld t cid ht with hm | ⟨n, hn, hcn, hh⟩
    · exact .inl hm
    · exact .inr ⟨n, hn, hcn, hheld n hh⟩
  case cidInj => simpa only [hcid] using h.cidInj
  case unswitched =>
    intro c hc
    rw [hsw]
    rw [hsaved] at hc
    exact h.unswitched c (hc.imp hnext.trans id)
  case switchedOnce => simpa only [hsw] using h.switchedOnce

theorem lt_next (h : Core xs v) {t : Ptr} (ht : status v.log t ≠ .absent) : t < v.next :=
  lt_of_not_ge fun hle => ht (h.fresh t hle).1

theorem saved_lt_next (h : Core xs v) {c : Ptr} (hc : v.saved c ≠ none) : c < v.next :=
  lt_of_not_ge fun hle => hc (h.fresh c hle).2

/-- A coroutine is saved in one context at most. -/
theorem saved_inj (h : Core xs v) {c c' t : Ptr} (hc : v.saved c = some (some t))
    (hc' : v.saved c' = some (some t)) : c = c' := by
  obtain ⟨_, w, ⟨⟩, hs⟩ := h.saved c _ hc
  obtain ⟨_, w', ⟨⟩, hs'⟩ := h.saved c' _ hc'
  rw [hs] at hs'
  cases hs'
  rfl

theorem ids_cons (h : Core xs v) {n : Ptr} (hid : v.next ≤ y.id)
    (hn : v.next ≤ n ∧ y.id < n ∧ y.buf < n) : (∀ x ∈ y :: xs, x.id < n ∧ x.buf < n) ∧
      (y :: xs).Pairwise fun x y => y.id < x.id := by
  refine ⟨fun x hx => ?_, List.pairwise_cons.mpr ⟨fun x hx => ?_, h.descending⟩⟩
  · rcases List.mem_cons.mp hx with rfl | hx
    · exact hn.2
    · exact (h.ids x hx).imp hn.1.trans_lt' hn.1.trans_lt'
  · exact (h.ids x hx).1.trans_le hid

/-- A new coroutine gets a cid that no other one has, or -1. -/
theorem start (h : Core xs v) {t n retval : Ptr} {cid : ℤ} (ht : v.next ≤ t) (hid : v.next ≤ y.id)
    (hn : v.next ≤ n ∧ t < n ∧ y.id < n ∧ y.buf < n) (htask : y.task = some t)
    (hctx : y.switch.context = none)
    (hheld : cid = -1 ∨ ∃ n : ℕ, n < 0x8000 ∧ cid = n + 1 ∧ v.held n = true)
    (hnew : cid ≠ -1 → ∀ t, v.cidOf t ≠ some cid) :
    Core (y :: xs) { v with
      next := n
      cidOf := Function.update v.cidOf t (some cid)
      log := .created t cid retval y.id :: v.log } := by
  -- the new coroutine's address is above all that the state knows
  have hold : ∀ t', status v.log t' ≠ .absent → t' ≠ t :=
    fun _ h' => ((h.lt_next h').trans_le ht).ne
  constructor
  case ids => exact (h.ids_cons hid ⟨hn.1, hn.2.2⟩).1
  case descending => exact (h.ids_cons hid ⟨hn.1, hn.2.2⟩).2
  case running =>
    intro x hx
    rcases List.mem_cons.mp hx with rfl | hx
    · exact ⟨t, htask, by simp⟩
    · obtain ⟨t', ht', hrun⟩ := h.running x hx
      have hne := hold t' (by simp [hrun])
      exact ⟨t', ht', by simpa [hne] using hrun⟩
  case holders =>
    intro x hx c hc
    rcases List.mem_cons.mp hx with rfl | hx
    · simp [hctx] at hc
    · exact (h.holders x hx c hc).imp hn.1.trans_lt' id
  case live =>
    intro t'
    by_cases htt : t' = t
    · simp [htt]
    · simpa [htt] using h.live t'
  case fresh =>
    intro t' ht'
    have hne : t' ≠ t := (hn.2.1.trans_le ht').ne'
    simpa [hne] using h.fresh t' (hn.1.trans ht')
  case saved =>
    intro c τ hc
    obtain ⟨t', w, ht', hs⟩ := h.saved c τ hc
    have hne := hold t' (by simp [hs])
    exact ⟨t', w, ht', by simpa [hne] using hs⟩
  case yielded =>
    intro t' cid' c hs
    have hne : t' ≠ t := by
      rintro rfl
      simp at hs
    simpa [hne] using h.yielded t' cid' c (by simpa [hne] using hs)
  case entries =>
    intro cid'
    rw [entry_created]
    refine (h.entries cid').mono hn.1 rfl (fun c t' _ hs => ?_) fun _ _ hc => hc
    have hne := hold t' (by simp [hs])
    simpa [hne] using hs
  case waiters =>
    intro fd c hc
    obtain ⟨t', ht', hs⟩ := h.waiters fd c hc
    have hne := hold t' (by simp [hs])
    exact ⟨t', ht', by simpa [hne] using hs⟩
  case cidHeld =>
    intro t' cid' ht'
    by_cases htt : t' = t
    · simp only [htt, Function.update_self, Option.some.injEq] at ht'
      exact ht' ▸ hheld
    · exact h.cidHeld t' cid' (by simpa [htt] using ht')
  case cidInj =>
    intro t₁ t₂ cid' h₁ h₂ hne
    simp only [Function.update_apply] at h₁ h₂
    -- one of the two is the new coroutine, or neither is
    split_ifs at h₁ h₂ with e₁ e₂ e₂
    · exact e₁.trans e₂.symm
    · cases h₁
      exact absurd h₂ (hnew hne t₂)
    · cases h₂
      exact absurd h₁ (hnew hne t₁)
    · exact h.cidInj t₁ t₂ cid' h₁ h₂ hne
  case unswitched => exact fun c hc => h.unswitched c (hc.imp hn.1.trans id)
  case switchedOnce => exact h.switchedOnce

/-- A suspended coroutine runs again with the context it was suspended with. -/
theorem switch (h : Core xs v) {c t n : Ptr} {w : Wait} {result : Option Zval}
    (hc : v.saved c = some (some t)) (hs : status v.log t = .suspended w c)
    (hw : ∀ fd, v.waiter fd ≠ some c) (hid : v.next ≤ y.id)
    (hn : v.next ≤ n ∧ y.id < n ∧ y.buf < n) (htask : y.task = some t)
    (hctx : ∀ c', y.switch.context = some c' → c' = c) :
    Core (y :: xs) { v with
      next := n
      saved := Function.update v.saved c none
      log := .switched (some t) w c y.id result :: v.log } := by
  have hst : ∀ t', status (.switched (some t) w c y.id result :: v.log) t' =
      if t' = t then .running y.id else status v.log t' := fun t' => by
    simp [Function.update_apply]
  have hclt : c < v.next := h.saved_lt_next (by simp [hc])
  -- no other context holds the coroutine that runs again
  have hoth : ∀ c' t', c' ≠ c → v.saved c' = some (some t') → t' ≠ t := by
    rintro c' t' hne hc' rfl
    exact hne (h.saved_inj hc' hc)
  constructor
  case ids => exact (h.ids_cons hid hn).1
  case descending => exact (h.ids_cons hid hn).2
  case running =>
    intro x hx
    rcases List.mem_cons.mp hx with rfl | hx
    · exact ⟨t, htask, by rw [hst, if_pos rfl]⟩
    · obtain ⟨t', ht', hrun⟩ := h.running x hx
      have hne : t' ≠ t := by
        rintro rfl
        simp [hs] at hrun
      exact ⟨t', ht', by rw [hst, if_neg hne, hrun]⟩
  case holders =>
    intro x hx c' hc'
    rcases List.mem_cons.mp hx with rfl | hx
    · obtain rfl := hctx c' hc'
      exact ⟨hclt.trans_le hn.1, by simp⟩
    · obtain ⟨hlt, hns⟩ := h.holders x hx c' hc'
      exact ⟨hlt.trans_le hn.1, by simp [Function.update_apply, hns]⟩
  case live =>
    intro t'
    rw [hst]
    have hl := h.live t'
    split_ifs with htt
    · subst htt
      simpa [hs] using hl
    · exact hl
  case fresh =>
    intro t' ht'
    have hle := hn.1.trans ht'
    have htt : t' ≠ t := ((h.lt_next (t := t) (by simp [hs])).trans_le hle).ne'
    obtain ⟨ha, hf⟩ := h.fresh t' hle
    exact ⟨by rw [hst, if_neg htt, ha], by simp [Function.update_apply, hf]⟩
  case saved =>
    intro c' τ hc'
    by_cases hcc : c' = c
    · simp [hcc] at hc'
    simp only [Function.update_of_ne hcc] at hc'
    obtain ⟨t', w', rfl, hs'⟩ := h.saved c' τ hc'
    exact ⟨t', w', rfl, by rw [hst, if_neg (hoth c' t' hcc hc'), hs']⟩
  case yielded =>
    intro t' cid' c' hs'
    rw [hst] at hs'
    split_ifs at hs' with htt
    obtain ⟨hc', hcid, hen⟩ := h.yielded t' cid' c' hs'
    -- the context that is used up was saved for another coroutine
    have hcc : c' ≠ c := by
      rintro rfl
      rw [hc] at hc'
      cases hc'
      exact htt rfl
    refine ⟨by simpa [hcc] using hc', hcid, ?_⟩
    cases w with
    | io fd => exact hen
    | yield cid =>
      have hne : cid' ≠ cid := by
        rintro rfl
        have hen' := (h.yielded t cid' c hs).2.2
        rw [hen] at hen'
        cases hen'
        exact hcc rfl
      simpa [hne] using hen
  case entries =>
    intro cid'
    -- an entry under another cid is as it was
    have hkeep : w ≠ .yield cid' → Scheduler.EntryOk { v with
        next := n
        saved := Function.update v.saved c none
        log := .switched (some t) w c y.id result :: v.log } cid' (entry v.log cid') := by
      intro hother
      refine (h.entries cid').mono hn.1 rfl (fun c' t' _ hs' => ?_) fun c' _ hc' => ?_
      · have hne : t' ≠ t := by
          rintro rfl
          rw [hs] at hs'
          cases hs'
          exact hother rfl
        rw [hst, if_neg hne]
        exact hs'
      · simp [Function.update_apply, hc']
    cases w with
    | io fd => exact hkeep (by simp)
    | yield cid =>
      by_cases hcid : cid' = cid
      · -- the entry keeps the context that is used up now
        subst hcid
        have he := h.entries cid'
        rw [(h.yielded t cid' c hs).2.2] at he
        rw [entry_switched_yield, Function.update_self]
        exact ⟨he.1, hclt.trans_le hn.1, by simp⟩
      · rw [entry_switched_yield, Function.update_of_ne hcid]
        apply hkeep
        rintro ⟨⟩
        exact hcid rfl
  case waiters =>
    intro fd c' h'
    obtain ⟨t', hc', hs'⟩ := h.waiters fd c' h'
    have hcc : c' ≠ c := by
      rintro rfl
      exact hw fd h'
    exact ⟨t', by simpa [hcc] using hc', by rw [hst, if_neg (hoth c' t' hcc hc'), hs']⟩
  case cidHeld => exact h.cidHeld
  case cidInj => exact h.cidInj
  case unswitched =>
    intro c' hc'
    have hne : c ≠ c' ∧ switches v.log c' = 0 := by
      rcases hc' with hle | hc'
      · exact ⟨(hclt.trans_le (hn.1.trans hle)).ne, h.unswitched c' (.inl (hn.1.trans hle))⟩
      · by_cases hcc : c' = c
        · simp [hcc] at hc'
        · exact ⟨Ne.symm hcc, h.unswitched c' (.inr (by simpa [hcc] using hc'))⟩
    rw [switches_switched, if_neg hne.1, hne.2]
  case switchedOnce =>
    intro c'
    rw [switches_switched]
    split_ifs with hcc
    · subst hcc
      simp [h.unswitched c (.inr (by simp [hc]))]
    · exact h.switchedOnce c'

theorem running_ne (h : Core (x :: xs) v) {t : Ptr} (ht : x.task = some t) (hy : y ∈ xs) {t' : Ptr}
    (hrun : status v.log t' = .running y.id) : t' ≠ t := by
  rintro rfl
  obtain ⟨t'', ht'', hs⟩ := h.running x List.mem_cons_self
  cases ht.symm.trans ht''
  rw [hrun, Status.running.injEq] at hs
  exact absurd ((List.pairwise_cons.mp h.descending).1 y hy) (hs ▸ lt_irrefl _)

theorem status_head (h : Core (x :: xs) v) {t : Ptr} (ht : x.task = some t) :
    status v.log t = .running x.id := by
  obtain ⟨t', ht', hs⟩ := h.running x List.mem_cons_self
  cases ht.symm.trans ht'
  exact hs

/-- The running coroutine is saved in a new context: under its cid if it yields, and
at most in the slot of the descriptor if it waits for one. -/
theorem suspend (h : Core (x :: xs) v) {t c n : Ptr} {w : Wait} {contextMap : ℤ → Option Ptr}
    {waiter : ℤ → Option Ptr} (htask : x.task = some t) (hc : v.next ≤ c) (hn : c < n)
    (hcid : ∀ cid, w = .yield cid → v.cidOf t = some cid ∧ cid ≠ -1)
    (hmap : ∀ cid, contextMap cid = if w = .yield cid then some c else v.contextMap cid)
    (hwait : ∀ fd c', waiter fd = some c' → w = .io fd ∧ c' = c ∨ v.waiter fd = some c') :
    Core xs { v with
      next := n
      saved := Function.update v.saved c (some (some t))
      contextMap := contextMap
      waiter := waiter
      log := .suspended (some t) w c :: v.log } := by
  have hnext : v.next ≤ n := hc.trans hn.le
  have hrun := h.status_head htask
  have hst : ∀ t', status (.suspended (some t) w c :: v.log) t' =
      if t' = t then .suspended w c else status v.log t' := fun t' => by
    simp [Function.update_apply]
  -- the new context's address is above all contexts in use
  have hnew : ∀ c', v.saved c' ≠ none → c' ≠ c := by
    rintro _ hs rfl
    exact absurd (h.saved_lt_next hs) (not_lt.mpr hc)
  have hoth : ∀ t' w' c', status v.log t' = .suspended w' c' → t' ≠ t := by
    rintro _ w' c' hs rfl
    simp [hrun] at hs
  constructor
  case ids => exact fun y hy => (h.ids y (List.mem_cons_of_mem _ hy)).imp hnext.trans_lt' hnext.trans_lt'
  case descending => exact (List.pairwise_cons.mp h.descending).2
  case running =>
    intro y hy
    obtain ⟨t', ht', hs⟩ := h.running y (List.mem_cons_of_mem _ hy)
    exact ⟨t', ht', by rw [hst, if_neg (h.running_ne htask hy hs), hs]⟩
  case holders =>
    intro y hy c' hc'
    obtain ⟨hlt, hns⟩ := h.holders y (List.mem_cons_of_mem _ hy) c' hc'
    have hcc : c' ≠ c := (hlt.trans_le hc).ne
    exact ⟨hlt.trans_le hnext, by simpa [hcc] using hns⟩
  case live =>
    intro t'
    rw [hst]
    have hl := h.live t'
    split_ifs with htt
    · subst htt
      simpa [hrun] using hl
    · exact hl
  case fresh =>
    intro t' ht'
    have hle := hnext.trans ht'
    have htt : t' ≠ t := ((h.lt_next (t := t) (by simp [hrun])).trans_le hle).ne'
    have hcc : t' ≠ c := (hn.trans_le ht').ne'
    obtain ⟨ha, hf⟩ := h.fresh t' hle
    exact ⟨by rw [hst, if_neg htt, ha], by simpa [hcc] using hf⟩
  case saved =>
    intro c' τ hc'
    by_cases hcc : c' = c
    · simp only [hcc, Function.update_self, Option.some.injEq] at hc'
      exact ⟨t, w, hc'.symm, by rw [hst, if_pos rfl, hcc]⟩
    · obtain ⟨t', w', hτ, hs⟩ := h.saved c' τ (by simpa [hcc] using hc')
      exact ⟨t', w', hτ, by rw [hst, if_neg (hoth _ _ _ hs), hs]⟩
  case yielded =>
    intro t' cid' c' hs
    rw [hst] at hs
    split_ifs at hs with htt
    · cases hs
      subst htt
      exact ⟨by simp, (hcid cid' rfl).1, by simp⟩
    · obtain ⟨hsv, hcid', hen⟩ := h.yielded t' cid' c' hs
      have hcc := hnew c' (by simp [hsv])
      refine ⟨by simpa [hcc] using hsv, hcid', ?_⟩
      cases w with
      | io fd => exact hen
      | yield cid =>
        -- two coroutines with one cid would both have been allocated it
        have hne : cid' ≠ cid := by
          rintro rfl
          obtain ⟨hcidt, hm⟩ := hcid cid' rfl
          exact htt (h.cidInj t' t cid' hcid' hcidt hm)
        simpa [hne] using hen
  case entries =>
    intro cid'
    by_cases hw : w = .yield cid'
    · subst hw
      rw [entry_suspended_yield, Function.update_self]
      exact ⟨(hmap cid').trans (if_pos rfl), t, by rw [hst, if_pos rfl]⟩
    · have hen : entry (.suspended (some t) w c :: v.log) cid' = entry v.log cid' := by
        cases w with
        | io fd => rfl
        | yield cid => simp [show cid' ≠ cid by rintro rfl; exact hw rfl]
      have hm : contextMap cid' = v.contextMap cid' := by rw [hmap, if_neg hw]
      rw [hen]
      refine (h.entries cid').mono hnext hm (fun c' t' _ hs => ?_) fun c' hlt hc' => ?_
      · rw [hst, if_neg (hoth _ _ _ hs)]
        exact hs
      · have hcc : c' ≠ c := (hlt.trans_le hc).ne
        simpa [hcc] using hc'
  case waiters =>
    intro fd c' hc'
    rcases hwait fd c' hc' with ⟨rfl, rfl⟩ | hc'
    · exact ⟨t, by simp, by rw [hst, if_pos rfl]⟩
    · obtain ⟨t', hsv, hs⟩ := h.waiters fd c' hc'
      have hcc := hnew c' (by simp [hsv])
      exact ⟨t', by simpa [hcc] using hsv, by rw [hst, if_neg (hoth _ _ _ hs), hs]⟩
  case cidHeld => exact h.cidHeld
  case cidInj => exact h.cidInj
  case unswitched =>
    intro c' hc'
    rw [switches_suspended]
    rcases hc' with hle | hc'
    · exact h.unswitched c' (.inl (hnext.trans hle))
    · by_cases hcc : c' = c
      · exact h.unswitched c' (.inl (hcc ▸ hc))
      · exact h.unswitched c' (.inr (by simpa [hcc] using hc'))
  case switchedOnce => exact h.switchedOnce

/-- The running coroutine is closed, and its cid is free again. -/
theorem close (h : Core (x :: xs) v) {t page retval : Ptr} {cid : ℤ} {held : ℕ → Bool}
    (htask : x.task = some t) (hcid : v.cidOf t = some cid)
    (hheld : ∀ n : ℕ, cid ≠ n + 1 → held n = v.held n) :
    Core xs { v with
      cidOf := Function.update v.cidOf t none
      held := held
      log := .closed t cid page retval :: v.log } := by
  have hrun := h.status_head htask
  have hst : ∀ t', status (.closed t cid page retval :: v.log) t' =
      if t' = t then .closed else status v.log t' := fun t' => by
    simp [Function.update_apply]
  have hoth : ∀ t' w' c', status v.log t' = .suspended w' c' → t' ≠ t := by
    rintro _ w' c' hs rfl
    simp [hrun] at hs
  constructor
  case ids => exact fun y hy => h.ids y (List.mem_cons_of_mem _ hy)
  case descending => exact (List.pairwise_cons.mp h.descending).2
  case running =>
    intro y hy
    obtain ⟨t', ht', hs⟩ := h.running y (List.mem_cons_of_mem _ hy)
    exact ⟨t', ht', by rw [hst, if_neg (h.running_ne htask hy hs), hs]⟩
  case holders => exact fun y hy => h.holders y (List.mem_cons_of_mem _ hy)
  case live =>
    intro t'
    rw [hst]
    by_cases htt : t' = t
    · simp [htt]
    · simpa [htt] using h.live t'
  case fresh =>
    intro t' ht'
    have htt : t' ≠ t := ((h.lt_next (t := t) (by simp [hrun])).trans_le ht').ne'
    rw [hst, if_neg htt]
    exact h.fresh t' ht'
  case saved =>
    intro c τ hc
    obtain ⟨t', w, hτ, hs⟩ := h.saved c τ hc
    exact ⟨t', w, hτ, by rw [hst, if_neg (hoth _ _ _ hs), hs]⟩
  case yielded =>
    intro t' cid' c hs
    rw [hst] at hs
    split_ifs at hs with htt
    simpa [htt] using h.yielded t' cid' c hs
  case entries =>
    intro cid'
    rw [entry_closed]
    refine (h.entries cid').mono le_rfl rfl (fun c t' _ hs => ?_) fun _ _ hc => hc
    rw [hst, if_neg (hoth _ _ _ hs)]
    exact hs
  case waiters =>
    intro fd c hc
    obtain ⟨t', hsv, hs⟩ := h.waiters fd c hc
    exact ⟨t', hsv, by rw [hst, if_neg (hoth _ _ _ hs), hs]⟩
  case cidHeld =>
    intro t' cid' ht'
    by_cases htt : t' = t
    · simp [htt] at ht'
    simp only [Function.update_of_ne htt] at ht'
    rcases h.cidHeld t' cid' ht' with hm | ⟨n, hn, rfl, hh⟩
    · exact .inl hm
    · refine .inr ⟨n, hn, rfl, (hheld n ?_).trans hh⟩
      -- only the closed coroutine had this cid
      rintro rfl
      exact htt (h.cidInj t' t _ ht' hcid (by omega))
  case cidInj =>
    intro t₁ t₂ cid' h₁ h₂ hne
    simp only [Function.update_apply] at h₁ h₂
    split_ifs at h₁ h₂
    exact h.cidInj t₁ t₂ cid' h₁ h₂ hne
  case unswitched => exact h.unswitched
  case switchedOnce => exact h.switchedOnce

end Core

end Phpco
