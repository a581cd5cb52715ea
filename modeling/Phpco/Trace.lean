import Mathlib.Data.List.Basic
import Phpco.Transition

/-!
# Code with a trace

Code that may end in an error and that emits events on its way.  Without the
events it is code of its own; with them, what is emitted can be bounded.
-/

namespace Trace
open Except

variable {ι ε α β : Type}

abbrev Code (ι ε : Type) := StateT (List ι) (Except ε)

def emit (i : ι) : Code ι ε Unit := modify (· ++ [i])

/-- The code computes `y`, whatever was emitted before. -/
def Traces (x : Code ι ε α) (y : Except ε α) : Prop := ∀ is, (x.run is).map Prod.fst = y

variable {x : Code ι ε α} {y : Except ε α} {v : α} {is is' : List ι}

theorem traces_pure (v : α) : Traces (pure v : Code ι ε α) (.ok v) := fun _ => rfl

theorem traces_throw (e : ε) : Traces (throw e : Code ι ε α) (.error e) := fun _ => rfl

theorem traces_emit (i : ι) : Traces (emit i : Code ι ε Unit) (.ok ()) := fun _ => rfl

theorem traces_lift (y : Except ε α) : Traces (liftM y : Code ι ε α) y := by
  intro is
  cases y <;> rfl

theorem Traces.bind {f : α → Code ι ε β} {g : α → Except ε β} (h : Traces x y)
    (hf : ∀ v, Traces (f v) (g v)) : Traces (x >>= f) (y >>= g) := by
  intro is
  have hx := h is
  rw [StateT.run_bind]
  cases hrun : x.run is with
  | error e =>
    rw [hrun] at hx
    rw [← hx]
    rfl
  | ok r =>
    rw [hrun] at hx
    rw [← hx]
    exact hf r.1 r.2

theorem Traces.exists_run (h : Traces x y) (hy : y = .ok v) (is : List ι) :
    ∃ is', x.run is = .ok (v, is') := by
  have hx := h is
  rw [hy] at hx
  cases hrun : x.run is with
  | error e =>
    rw [hrun] at hx
    cases hx
  | ok r =>
    rw [hrun] at hx
    cases hx
    exact ⟨r.2, rfl⟩

/-- What only emits may come before. -/
theorem Traces.bind_ok {f : α → Code ι ε β} {y : Except ε β} (h : Traces x (.ok v))
    (hf : Traces (f v) y) : Traces (x >>= f) y := by
  intro is
  obtain ⟨is', hrun⟩ := h.exists_run rfl is
  rw [StateT.run_bind, hrun]
  exact hf is'

theorem Traces.of_run (h : Traces x y) (hx : x.run is = .ok (v, is')) : y = .ok v := by
  rw [← h is, hx]
  rfl

theorem run_lift : (liftM y : Code ι ε α).run is = .ok (v, is') ↔ y = .ok v ∧ is = is' := by
  cases y with
  | error e =>
    constructor
    · rintro ⟨⟩
    · rintro ⟨⟨⟩, _⟩
  | ok w =>
    constructor
    · rintro ⟨⟩
      exact ⟨rfl, rfl⟩
    · rintro ⟨⟨⟩, rfl⟩
      rfl

/-- All that the code emits, if it ends well, meets `p`. -/
def Emits (p : ι → Prop) (x : Code ι ε α) : Prop := ∀ is v is', x.run is = .ok (v, is') →
  ∃ js, is' = is ++ js ∧ ∀ j ∈ js, p j

variable {p : ι → Prop}

theorem emits_pure (v : α) : Emits p (pure v : Code ι ε α) := by
  rintro is w is' ⟨⟩
  exact ⟨[], (List.append_nil is).symm, nofun⟩

theorem emits_throw (e : ε) : Emits p (throw e : Code ι ε α) := by
  rintro is w is' ⟨⟩

theorem emits_emit {i : ι} (hi : p i) : Emits p (emit i : Code ι ε Unit) := by
  rintro is w is' ⟨⟩
  exact ⟨[i], rfl, fun j hj => List.mem_singleton.mp hj ▸ hi⟩

theorem emits_lift (y : Except ε α) : Emits p (liftM y : Code ι ε α) := by
  intro is v is' h
  obtain ⟨_, rfl⟩ := run_lift.mp h
  exact ⟨[], (List.append_nil is).symm, nofun⟩

theorem Emits.bind {f : α → Code ι ε β} (hx : Emits p x) (hf : ∀ v, Emits p (f v)) :
    Emits p (x >>= f) := by
  intro is w is' h
  rw [StateT.run_bind] at h
  obtain ⟨⟨v, is₁⟩, hrun, hrest⟩ := bind_eq_ok.mp h
  obtain ⟨js, rfl, hjs⟩ := hx is v is₁ hrun
  obtain ⟨ks, rfl, hks⟩ := hf v (is ++ js) w is' hrest
  refine ⟨js ++ ks, List.append_assoc _ _ _, fun j hj => ?_⟩
  rcases List.mem_append.mp hj with hj | hj
  · exact hjs j hj
  · exact hks j hj

end Trace
