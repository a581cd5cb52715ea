import Phpco.Scheduler

/-!
# Jump buffers

Where `checkPoint` points while the activations `xs` are on the C stack, and
what the buffers hold.  A nested `aio_invoke` overwrites the buffer of the
activation below it, which then can not be jumped to any more; any other buffer
leads to its own activation, and while it does, `current_coro` is the coroutine
of that activation.
-/

namespace Phpco

/-- The registers that the caller of an activation puts back. -/
def Switch.ctx : Switch → Option PhpContext
  | .create _ _ ctx _ _ => some ctx
  | .resume _ _ _ ctx _ => some ctx
  | .invoke _ _ _ => none

def Activation.outerCheckPoint (x : Activation) : Option Ptr :=
  match x.switch with
  | .create _ prevCheckpoint _ _ _ => prevCheckpoint
  | .resume _ prevCheckpoint _ _ _ => prevCheckpoint
  | .invoke _ _ _ => some x.buf

def BufAgrees : Option Ptr → List Activation → Prop
  | _, [] => True
  | cp, x :: xs => cp = some x.buf ∧ BufAgrees x.outerCheckPoint xs

/-- `current_coro` is the coroutine of each activation that can be jumped to, when its turn comes. -/
def SeesHost (jmpBufs : Ptr → JmpBuf) : Option Ptr → List Activation → Prop
  | _, [] => True
  | cur, x :: xs => (jmpBufs x.buf = .set x.id → cur = x.task) ∧
      ∀ cur', (∀ ctx, x.switch.ctx = some ctx → cur' = ctx.task) → SeesHost jmpBufs cur' xs

structure Links (xs : List Activation) (checkPoint : Option Ptr) (jmpBufs : Ptr → JmpBuf)
    (cur : Option Ptr) : Prop where
  bufs : BufAgrees checkPoint xs
  jumps : xs.Pairwise fun x y => jmpBufs x.buf ≠ .set y.id
  sees : SeesHost jmpBufs cur xs

variable {xs : List Activation} {x y : Activation} {cp : Option Ptr} {jmpBufs jmpBufs' : Ptr → JmpBuf}
  {cur : Option Ptr}

theorem SeesHost.mono (h : SeesHost jmpBufs cur xs)
    (hj : ∀ x ∈ xs, jmpBufs' x.buf = .set x.id → jmpBufs x.buf = .set x.id) :
    SeesHost jmpBufs' cur xs := by
  induction xs generalizing cur with
  | nil => trivial
  | cons x xs ih =>
    refine ⟨fun hx => h.1 (hj x List.mem_cons_self hx), fun cur' hcur => ?_⟩
    exact ih (h.2 cur' hcur) fun y hy => hj y (List.mem_cons_of_mem _ hy)

/-- Once the innermost buffer is overwritten, `current_coro` does not matter. -/
theorem SeesHost.blind (h : SeesHost jmpBufs cur xs)
    (hx : ∀ x ∈ xs.head?, jmpBufs x.buf ≠ .set x.id) (cur' : Option Ptr) :
    SeesHost jmpBufs cur' xs := by
  cases xs with
  | nil => trivial
  | cons x xs => exact ⟨fun hset => absurd hset (hx x rfl), h.2⟩

theorem activations_unwind {act : Ptr} {stack rest : List CFrame} {x : Activation}
    (h : unwind act stack = some (x, rest)) :
    x.id = act ∧ ∃ popped, activations stack = popped ++ x :: activations rest := by
  induction stack with
  | nil => simp [unwind] at h
  | cons f stack ih =>
    cases f with
    | eventLoop l => exact ih h
    | activation y =>
      by_cases hy : y.id = act
      · simp only [unwind, if_pos hy, Option.some.injEq, Prod.mk.injEq] at h
        obtain ⟨rfl, rfl⟩ := h
        exact ⟨hy, [], rfl⟩
      · simp only [unwind, if_neg hy] at h
        obtain ⟨hid, popped, hstack⟩ := ih h
        exact ⟨hid, y :: popped, congrArg (y :: ·) hstack⟩

theorem unwind_eq_some {act : Ptr} {stack rest : List CFrame} {x : Activation}
    (h : unwind act stack = some (x, rest)) : x ∈ activations stack ∧ x.id = act := by
  obtain ⟨hid, popped, hstack⟩ := activations_unwind h
  rw [hstack]
  exact ⟨List.mem_append_right _ List.mem_cons_self, hid⟩

namespace Links

theorem activations_eq_nil (h : Links xs cp jmpBufs cur) (hcp : cp = none) : xs = [] := by
  have hb := h.bufs
  rw [hcp] at hb
  cases xs with
  | nil => rfl
  | cons x xs => simp [BufAgrees] at hb

/-- A jump can only end in the innermost activation, and then that is the one of
the current coroutine. -/
theorem jump (h : Links (x :: xs) cp jmpBufs cur) {act : Ptr} (hj : jmpBufs x.buf = .set act)
    (hmem : ∃ y ∈ x :: xs, y.id = act) : act = x.id ∧ cur = x.task := by
  obtain ⟨y, hy, rfl⟩ := hmem
  rcases List.mem_cons.mp hy with rfl | hy
  · exact ⟨rfl, h.sees.1 hj⟩
  · exact absurd hj ((List.pairwise_cons.mp h.jumps).1 y hy)

theorem congr (h : Links xs cp jmpBufs cur) (hj : ∀ x ∈ xs, jmpBufs' x.buf = jmpBufs x.buf) :
    Links xs cp jmpBufs' cur where
  bufs := h.bufs
  jumps := h.jumps.imp_of_mem fun {x y} hx _ hxy => by rwa [hj x hx]
  sees := h.sees.mono fun x hx hset => by rwa [hj x hx] at hset

theorem pop (h : Links (x :: xs) cp jmpBufs cur) {ctx : PhpContext} (buf : Ptr)
    (hctx : x.switch.ctx = some ctx) :
    Links xs x.outerCheckPoint (Function.update jmpBufs buf .unallocated) ctx.task where
  bufs := h.bufs.2
  jumps := by
    refine (List.pairwise_cons.mp h.jumps).2.imp fun {y z} hyz => ?_
    by_cases hb : y.buf = buf
    · simp [hb]
    · simpa [hb] using hyz
  sees := by
    refine SeesHost.mono (h.sees.2 ctx.task fun ctx' hctx' => ?_) fun y _ hset => ?_
    · rw [hctx] at hctx'
      cases hctx'
      rfl
    · by_cases hb : y.buf = buf
      · simp [hb] at hset
      · simpa [hb] using hset

/-- `aio_invoke` returns. -/
theorem pop_invoke (h : Links (x :: xs) cp jmpBufs cur) (hctx : x.switch.ctx = none)
    (cur' : Option Ptr) : Links xs x.outerCheckPoint jmpBufs cur' where
  bufs := h.bufs.2
  jumps := (List.pairwise_cons.mp h.jumps).2
  sees := h.sees.2 cur' fun ctx hctx' => by simp [hctx] at hctx'

theorem push (h : Links xs cp jmpBufs cur) {ctx : PhpContext} (hctx : y.switch.ctx = some ctx)
    (hcur : ctx.task = cur) (hout : y.outerCheckPoint = cp)
    (hfresh : ∀ x ∈ xs, x.buf ≠ y.buf ∧ x.id ≠ y.id) (hset : jmpBufs' y.buf = .set y.id)
    (hj : ∀ buf ≠ y.buf, jmpBufs' buf = jmpBufs buf) :
    Links (y :: xs) (some y.buf) jmpBufs' y.task where
  bufs := ⟨rfl, hout ▸ h.bufs⟩
  jumps := by
    refine List.pairwise_cons.mpr ⟨fun x hx => ?_, h.jumps.imp_of_mem fun {x z} hx _ hxz => ?_⟩
    · rw [hset]
      simpa using (hfresh x hx).2.symm
    · rw [hj _ (hfresh x hx).1]
      exact hxz
  sees := by
    refine ⟨fun _ => rfl, fun cur' hcur' => ?_⟩
    obtain rfl : cur' = cur := (hcur' ctx hctx).trans hcur
    exact h.sees.mono fun x hx hxs => by rwa [hj _ (hfresh x hx).1] at hxs

/-- A switch that uses the buffer `checkPoint` refers to already. -/
theorem push_invoke (h : Links xs cp jmpBufs cur) (hcp : cp = some y.buf)
    (hout : y.outerCheckPoint = some y.buf)
    (hfresh : ∀ x ∈ xs, x.id ≠ y.id) :
    Links (y :: xs) (some y.buf) (Function.update jmpBufs y.buf (.set y.id)) y.task where
  bufs := ⟨rfl, by rw [hout, ← hcp]; exact h.bufs⟩
  jumps := by
    refine List.pairwise_cons.mpr ⟨fun x hx => ?_, h.jumps.imp_of_mem fun {x z} _ hz hxz => ?_⟩
    · simpa using (hfresh x hx).symm
    · by_cases hb : x.buf = y.buf
      · simpa [hb] using (hfresh z hz).symm
      · simpa [hb] using hxz
  sees := by
    refine ⟨fun _ => rfl, fun cur' _ => ?_⟩
    have hm : SeesHost (Function.update jmpBufs y.buf (.set y.id)) cur xs := by
      refine h.sees.mono fun x hx hxs => ?_
      -- every activation that shares the buffer loses it to `y`
      by_cases hb : x.buf = y.buf
      · simp only [hb, Function.update_self, JmpBuf.set.injEq] at hxs
        exact absurd hxs.symm (hfresh x hx)
      · simpa [hb] using hxs
    -- the caller's buffer is overwritten, so its `current_coro` is not read any more
    refine hm.blind (fun x hx => ?_) cur'
    cases xs with
    | nil => simp at hx
    | cons x' xs =>
      obtain rfl : x' = x := by simpa using hx
      have hb : x'.buf = y.buf := Option.some.inj (h.bufs.1.symm.trans hcp)
      simpa [hb] using (hfresh x' List.mem_cons_self).symm

end Links

end Phpco
