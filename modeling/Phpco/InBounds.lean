import Phpco.BatchLaw

namespace Phpco
open Except EventTable

abbrev InBounds {α : Type} (r : Except Halt α) : Prop := r ≠ .error .outOfBounds

theorem inBounds_ok {α : Type} (x : α) : InBounds (.ok x : Except Halt α) := nofun

theorem inBounds_error {α : Type} {e : Halt} (he : e ≠ .outOfBounds) :
    InBounds (.error e : Except Halt α) :=
  fun h => he (Except.error.inj h)

theorem inBounds_deref {α : Type} {p : Option α} {e : Halt} (he : e ≠ .outOfBounds) :
    InBounds (deref p e) := by
  cases p with
  | none =>
    intro h
    apply he
    exact Except.error.inj h
  | some x => exact nofun

theorem inBounds_check {p : Prop} [Decidable p] {e : Halt} (h : e = .outOfBounds → p) :
    InBounds (check p e) := by
  unfold check
  split_ifs with hp
  · exact nofun
  · intro he
    apply hp
    exact h (Except.error.inj he)

theorem inBounds_check_of_ne {p : Prop} [Decidable p] {e : Halt} (he : e ≠ .outOfBounds) :
    InBounds (check p e) :=
  inBounds_check fun h => absurd h he

theorem inBounds_setjmp (s : State) (switch : Switch) : InBounds (setjmp s switch) := by
  apply bind_ne_error (inBounds_deref (by decide))
  intro buf _
  apply bind_ne_error (inBounds_check_of_ne (by decide))
  exact fun _ _ => inBounds_ok _

theorem inBounds_cCoroResume (s : State) (c : Ptr) (retval : Option Zval) (w : Wait)
    (switch : Switch) : InBounds (cCoroResume s c retval w switch) := by
  unfold cCoroResume
  cases s.contexts c with
  | free => exact nofun
  | resumed => exact nofun
  | saved ctx =>
    simp only
    split
    · next current caller rest _ =>
      apply bind_ne_error
      · unfold copyResult
        split <;> exact nofun
      · intro result _
        exact inBounds_setjmp _ _
    · exact nofun

theorem inBounds_coroutineCreateTail (s : State) (frame : InternalCall) (prevCheckpoint : Option Ptr)
    (ctx : PhpContext) (required : Bool) (callback : Zval) (ret : ℤ) :
    InBounds (coroutineCreateTail s frame prevCheckpoint ctx required callback ret) := by
  apply bind_ne_error
  · unfold setFunction
    split
    · exact nofun
    · apply bind_ne_error (inBounds_deref (by decide))
      exact fun _ _ => inBounds_ok _
  · intro s₁ _
    apply bind_ne_error (inBounds_deref (by decide))
    intro buf _
    split_ifs <;> exact nofun

theorem inBounds_returnFrom (s : State) (switch : Switch) (ret : ℤ) :
    InBounds (returnFrom s switch ret) := by
  cases switch with
  | create frame prevCheckpoint ctx required callback =>
    exact inBounds_coroutineCreateTail _ _ _ _ _ _ _
  | resume frame prevCheckpoint context ctx required =>
    apply bind_ne_error (inBounds_deref (by decide))
    exact fun _ _ => inBounds_ok _
  | invoke fd event context =>
    -- it goes on with the `aio_event` it was given, and does not look into the table again
    apply bind_ne_error (inBounds_deref (by decide))
    intro ev _
    apply bind_ne_error (inBounds_check_of_ne (by decide))
    exact fun _ _ => inBounds_ok _

theorem inBounds_coroYield (s : State) : InBounds (coroYield s) := by
  apply bind_ne_error
  · apply bind_ne_error (inBounds_deref (by decide))
    intro buf _
    split
    · exact nofun
    · exact nofun
    · exact inBounds_deref (by decide)
  · intro x _
    exact inBounds_returnFrom _ _ _

theorem inBounds_coroClose (s : State) : InBounds (coroClose s) := by
  apply bind_ne_error (inBounds_deref (by decide))
  intro t _
  apply bind_ne_error (inBounds_deref (by decide))
  intro task _
  apply bind_ne_error (inBounds_deref (by decide))
  exact fun _ _ => inBounds_ok _

theorem inBounds_coroutineCreate (s : State) (frame : InternalCall) (slots : ℕ) (callback : Zval) :
    InBounds (coroutineCreate s frame slots callback) := by
  apply bind_ne_error
  · unfold cCoroCreate
    split
    · exact nofun
    · simp only
      split_ifs
      · exact inBounds_ok _
      · apply bind_ne_error (inBounds_setjmp _ _)
        intro s₁ _
        exact inBounds_ok _
  · rintro ⟨s₁, ret⟩ _
    cases ret with
    | none => exact inBounds_ok _
    | some ret => exact inBounds_coroutineCreateTail _ _ _ _ _ _ _

theorem inBounds_getCurrentCid (s : State) : InBounds (getCurrentCid s) := by
  apply bind_ne_error (inBounds_deref (by decide))
  intro t _
  apply bind_ne_error (inBounds_deref (by decide))
  exact fun _ _ => inBounds_ok _

theorem inBounds_settle (o : Outcome) : InBounds (settle o) := by
  cases o with
  | returned s frame v => exact nofun
  | yields s => exact inBounds_coroYield s
  | runs s => exact nofun

theorem inBounds_storeAndYield {s : State} {frame : InternalCall} {q : StoreArgs} {addOk : Bool}
    (h : inTable q.fd) : InBounds (storeAndYield s frame q addOk) := by
  apply bind_ne_error
  · unfold aioEventStore
    rw [if_neg (not_not.mpr h)]
    simp only
    split_ifs <;> exact nofun
  · intro x _
    simp only
    split_ifs <;> exact nofun

theorem inBounds_aioInvoke {s : State} {fd : ℤ} {answer : Zval} (h : inTable fd) :
    InBounds (aioInvoke s fd answer) := by
  apply bind_ne_error (inBounds_check fun _ => h)
  intro _ _
  split
  · exact nofun
  · simp only
    split
    · exact nofun
    · exact inBounds_cCoroResume _ _ _ _ _

/-- The index into `RG.aio_event_fds` that a step uses, or that it leaves to the timeout pass. -/
def slotIndex (s : State) : Action → Option ℤ
  | .socketSetTimeout _ obj garbage _ _ => some (cConvertToFd obj garbage)
  | .socketClose _ io _ _ => io.arguments.head?.map fun zfd => cConvertToFd zfd io.garbage
  | .loopStep _ => dispatchFd s
  | a => (ioRequest s a).map fun q => q.1.fd

def entryIndex (s : State) : Action → Option ℤ
  | .yield _ => (getCurrentCid s).toOption
  | .resume _ cid => some (toInt cid)
  | _ => none

theorem slotIndex_of_ioRequest {s : State} {a : Action} {q : StoreArgs} {addOk : Bool}
    (h : ioRequest s a = some (q, addOk)) : slotIndex s a = some q.fd := by
  cases a <;> first | (simp only [slotIndex, h]; rfl) | cases h

theorem inBounds_requested {s s' : State} {a : Action} {frame : InternalCall} {q : StoreArgs}
    {addOk : Bool} (hfd : ∀ fd, slotIndex s a = some fd → inTable fd)
    (hq : ioRequest s a = some (q, addOk)) : InBounds (storeAndYield s' frame q addOk) := by
  apply inBounds_storeAndYield
  exact hfd _ (slotIndex_of_ioRequest hq)

theorem inBounds_firstFd (io : IoArgs) : InBounds (firstFd io) := by
  apply bind_ne_error (inBounds_deref (by decide))
  exact fun _ _ => inBounds_ok _

theorem inBounds_converted {s s' : State} {a : Action} {frame : InternalCall} {q : StoreArgs}
    {addOk : Bool} {fd : ℤ} {o : Outcome} (hfd : ∀ fd, slotIndex s a = some fd → inTable fd)
    (hq : ¬ fd < 0 → ioRequest s a = some (q, addOk)) :
    InBounds (if fd < 0 then .ok o else storeAndYield s' frame q addOk) := by
  split_ifs with hneg
  · exact inBounds_ok _
  · exact inBounds_requested hfd (hq hneg)

theorem inBounds_io {s : State} {a : Action} (ha : isIo a = true)
    (hfd : ∀ fd, slotIndex s a = some fd → inTable fd) : InBounds (phpStep s a) := by
  cases a with
  | socketAccept site io =>
    apply bind_ne_error (inBounds_firstFd io)
    intro fd h
    obtain ⟨zfd, hz, rfl⟩ := firstFd_eq_ok.mp h
    exact inBounds_requested hfd (by rw [ioRequest, hz]; rfl)
  | socketRead site io =>
    apply bind_ne_error (inBounds_firstFd io)
    intro fd h
    obtain ⟨zfd, hz, rfl⟩ := firstFd_eq_ok.mp h
    apply inBounds_converted hfd
    intro hneg
    rw [ioRequest, hz]
    exact if_neg hneg
  | socketWrite site io =>
    apply bind_ne_error (inBounds_firstFd io)
    intro fd h
    obtain ⟨zfd, hz, rfl⟩ := firstFd_eq_ok.mp h
    apply inBounds_converted hfd
    intro hneg
    rw [ioRequest, hz]
    exact if_neg hneg
  | prepare site origin io =>
    apply inBounds_converted hfd
    intro hneg
    exact if_neg hneg
  | fetchAll site origin io =>
    apply inBounds_converted hfd
    intro hneg
    exact if_neg hneg
  | sleep site timeout tfd clockOk addOk =>
    by_cases hle : timeout ≤ 0
    · simp only [phpStep, coroutineSleep, if_pos hle]
      exact inBounds_ok _
    · simp only [phpStep, coroutineSleep, if_neg hle]
      apply bind_ne_error (inBounds_check_of_ne (by decide))
      intro _ _
      exact inBounds_requested hfd (if_neg hle)
  | _ => simp [isIo] at ha

theorem inBounds_php {s : State} {a : Action} (ha : isIo a = false)
    (hfd : ∀ fd, slotIndex s a = some fd → inTable fd)
    (hcid : ∀ cid, entryIndex s a = some cid → inContextMap cid) : InBounds (phpStep s a) := by
  cases a with
  | call site => exact inBounds_ok _
  | ret =>
    simp only [phpStep]
    split
    · exact inBounds_ok _
    · exact inBounds_error (by decide)
  | finish =>
    simp only [phpStep]
    split
    · apply bind_ne_error (inBounds_coroClose _)
      intro s₁ _
      apply bind_ne_error (inBounds_returnFrom _ _ _)
      exact fun _ _ => inBounds_ok _
    · exact inBounds_error (by decide)
  | create site slots callback =>
    apply bind_ne_error (inBounds_coroutineCreate _ _ _ _)
    intro s₁ _
    exact inBounds_ok _
  | getCurrentCid site =>
    apply bind_ne_error (inBounds_getCurrentCid _)
    exact fun _ _ => inBounds_ok _
  | yield site =>
    apply bind_ne_error
    · apply bind_ne_error (inBounds_getCurrentCid _)
      intro cid h
      apply bind_ne_error _ fun _ _ => inBounds_ok _
      apply inBounds_check
      intro _
      apply hcid
      have hsame : getCurrentCid s = .ok cid := h
      rw [entryIndex, hsame]
      rfl
    · intro s₁ _
      exact inBounds_ok _
  | resume site arg =>
    apply bind_ne_error (inBounds_check fun _ => hcid _ rfl)
    intro _ _
    split
    · exact inBounds_ok _
    · apply bind_ne_error (inBounds_cCoroResume _ _ _ _ _)
      intro s₁ _
      exact inBounds_ok _
  | socketSetTimeout site obj garbage timeout persistent => exact inBounds_ok _
  | socketClose site io closed retval =>
    apply bind_ne_error
    · apply bind_ne_error (inBounds_firstFd io)
      · intro fd h
        obtain ⟨zfd, hz, rfl⟩ := firstFd_eq_ok.mp h
        apply bind_ne_error _ fun _ _ => inBounds_ok _
        apply inBounds_check
        intro _
        apply hfd
        simp only [slotIndex, hz]
        rfl
    · intro s₁ _
      exact inBounds_ok _
  | closeFd fd => exact inBounds_ok _
  | eventLoop site => exact inBounds_ok _
  | tick _ _ => exact inBounds_error (by decide)
  | epollWait _ => exact inBounds_error (by decide)
  | loopStep _ => exact inBounds_error (by decide)
  | _ => simp [isIo] at ha

theorem inBounds_reapTimeout (s : State) (q : Ptr) (f : Option Ptr) :
    InBounds (reapTimeout s q f) := by
  apply bind_ne_error (inBounds_deref (by decide))
  intro node _
  apply bind_ne_error (inBounds_deref (by decide))
  intro element _
  split_ifs
  · exact inBounds_ok _
  · apply bind_ne_error
    · unfold removeNode
      split
      · exact nofun
      · split_ifs
        · exact nofun
        · exact nofun
        · split
          · exact nofun
          · split <;> exact nofun
    · exact fun _ _ => inBounds_ok _

theorem inBounds_eventLoopStep {s : State} {l : EventLoop} {stack : List CFrame} {answer : Zval}
    (hs : s.stack = .eventLoop l :: stack) (hfd : ∀ fd, dispatchFd s = some fd → inTable fd) :
    InBounds (eventLoopStep s l stack answer) := by
  unfold eventLoopStep
  cases hp : l.phase with
  | wait =>
    simp only
    split_ifs <;> exact nofun
  | batch events since =>
    cases events with
    | nil => exact inBounds_ok _
    | cons e events =>
      simp only
      split_ifs with hd
      · apply inBounds_aioInvoke
        apply hfd
        simp [dispatchFd, hs, hp, hd]
      · exact inBounds_ok _
  | timeouts now q f =>
    cases q with
    | none => exact inBounds_ok _
    | some q =>
      apply bind_ne_error (inBounds_deref (by decide))
      intro node hnode
      apply bind_ne_error (inBounds_deref (by decide))
      intro element hel
      split_ifs with hexp
      · apply inBounds_aioInvoke
        apply hfd
        simp [dispatchFd, hs, hp, deref_eq_ok.mp hnode, deref_eq_ok.mp hel, hexp]
      · exact inBounds_ok _
  | expired now q f =>
    apply bind_ne_error (inBounds_reapTimeout _ _ _)
    intro timeouts _
    apply bind_ne_error (inBounds_deref (by decide))
    exact fun _ _ => inBounds_ok _

end Phpco
