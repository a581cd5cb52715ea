import Mathlib.Logic.Function.Basic
import Mathlib.Data.List.Basic

/-!
# Runs of a partial step function

A system is a step function `σ → α → Except ε σ`: `α` is what the environment
chooses, and an error is a step that has no next state.  A run may be held to
a condition `ok s a` on the state before each step and the choice made there.
-/

namespace Transition

variable {σ α ε : Type*}

/-- The states of the runs from `init` whose steps all meet `ok`. -/
inductive Reachable (step : σ → α → Except ε σ) (init : σ → Prop) (ok : σ → α → Prop) : σ → Prop
  | init {s : σ} : init s → Reachable step init ok s
  | next {s s' : σ} {a : α} : Reachable step init ok s → ok s a → step s a = .ok s' →
      Reachable step init ok s'

variable {step : σ → α → Except ε σ} {init : σ → Prop} {ok ok' : σ → α → Prop}

theorem Reachable.invariant {I : σ → Prop} (h0 : ∀ s, init s → I s)
    (hs : ∀ s a s', I s → ok s a → step s a = .ok s' → I s') {s : σ}
    (h : Reachable step init ok s) : I s := by
  induction h with
  | init h => exact h0 _ h
  | next _ hok hstep ih => exact hs _ _ _ ih hok hstep

/-- The step case may use what is already known of every reachable state. -/
theorem Reachable.invariant_of {I : σ → Prop} (h0 : ∀ s, init s → I s)
    (hs : ∀ s a s', Reachable step init ok s → I s → ok s a → step s a = .ok s' → I s') {s : σ}
    (h : Reachable step init ok s) : I s := by
  induction h with
  | init h => exact h0 _ h
  | next hr hok hstep ih => exact hs _ _ _ hr ih hok hstep

/-- A condition that follows from another one, given what the runs under the
first have established, admits every such run. -/
theorem Reachable.mono (h' : ∀ s a s', Reachable step init ok' s → Reachable step init ok s →
    ok s a → step s a = .ok s' → ok' s a) {s : σ}
    (h : Reachable step init ok s) : Reachable step init ok' s := by
  induction h with
  | init h => exact .init h
  | next hr hok hstep ih => exact .next ih (h' _ _ _ ih hr hok hstep) hstep

theorem Reachable.weaken {s : σ} (h : Reachable step init ok s) :
    Reachable step init (fun _ _ => True) s :=
  h.mono fun _ _ _ _ _ _ _ => trivial

def runFrom (step : σ → α → Except ε σ) (s : σ) : List α → Except ε σ
  | [] => .ok s
  | a :: as => match step s a with
    | .ok s' => runFrom step s' as
    | .error e => .error e

theorem runFrom_one {s s' : σ} {a : α} (h : step s a = .ok s') : runFrom step s [a] = .ok s' := by
  simp only [runFrom, h]

theorem runFrom_append {s s' s'' : σ} {as bs : List α} (h : runFrom step s as = .ok s')
    (h' : runFrom step s' bs = .ok s'') : runFrom step s (as ++ bs) = .ok s'' := by
  induction as generalizing s with
  | nil =>
    cases h
    exact h'
  | cons a as ih =>
    cases hstep : step s a with
    | error e => simp [runFrom, hstep] at h
    | ok s₁ =>
      simp only [runFrom, List.cons_append, hstep] at h ⊢
      exact ih h

theorem runFrom_concat (step : σ → α → Except ε σ) (s : σ) (as : List α) (a : α) :
    runFrom step s (as ++ [a]) = runFrom step s as >>= fun s' => step s' a := by
  induction as generalizing s with
  | nil => cases hstep : step s a <;> simp [runFrom, hstep, bind, Except.bind]
  | cons b as ih =>
    cases hstep : step s b with
    | error e => simp [runFrom, hstep, bind, Except.bind]
    | ok s₁ =>
      simp only [runFrom, List.cons_append, hstep]
      exact ih s₁

theorem Reachable.run {s s' : σ} {as : List α} (h : Reachable step init (fun _ _ => True) s)
    (hr : runFrom step s as = .ok s') : Reachable step init (fun _ _ => True) s' := by
  induction as generalizing s with
  | nil => cases hr; exact h
  | cons a as ih =>
    cases hstep : step s a with
    | error e => simp [runFrom, hstep] at hr
    | ok s₁ =>
      simp only [runFrom, hstep] at hr
      exact ih (h.next trivial hstep) hr

theorem runFrom_invariant {I : σ → Prop} {s s' : σ} {as : List α}
    (hs : ∀ s a s', a ∈ as → I s → step s a = .ok s' → I s') (h : I s)
    (hr : runFrom step s as = .ok s') : I s' := by
  induction as generalizing s with
  | nil =>
    cases hr
    exact h
  | cons a as ih =>
    cases hstep : step s a with
    | error e => simp [runFrom, hstep] at hr
    | ok s₁ =>
      simp only [runFrom, hstep] at hr
      have h₁ := hs s a s₁ List.mem_cons_self h hstep
      exact ih (fun s a s' ha => hs s a s' (List.mem_cons_of_mem _ ha)) h₁ hr

/-- A step of a run that brings about what the steps after it preserve. -/
theorem runFrom_established {I J : σ → Prop} {s s' : σ} {as : List α} {a : α}
    (hr : runFrom step s as = .ok s') (ha : a ∈ as) (h : I s)
    (hI : ∀ s a s', I s → step s a = .ok s' → I s')
    (hJ : ∀ s b s', I s → J s → step s b = .ok s' → J s')
    (hest : ∀ s s', I s → step s a = .ok s' → J s') : J s' := by
  induction as generalizing s with
  | nil => cases ha
  | cons b as ih =>
    cases hstep : step s b with
    | error e => simp [runFrom, hstep] at hr
    | ok s₁ =>
      simp only [runFrom, hstep] at hr
      have h₁ := hI s b s₁ h hstep
      rcases List.mem_cons.mp ha with rfl | ha
      · have hJ₁ := hest s s₁ h hstep
        have hboth := runFrom_invariant (I := fun s => I s ∧ J s)
          (fun s a s' _ hs hstep => ⟨hI s a s' hs.1 hstep, hJ s a s' hs.1 hs.2 hstep⟩) ⟨h₁, hJ₁⟩ hr
        exact hboth.2
      · exact ih hr ha h₁

/-- Running a list of choices, testing each step and the last state. -/
def leadsTo (step : σ → α → Except ε σ) (test : σ → α → Bool) (p : σ → Bool) (s : σ) :
    List α → Bool
  | [] => p s
  | a :: as => test s a && match step s a with
    | .ok s' => leadsTo step test p s' as
    | .error _ => false

theorem exists_reachable_of_leadsTo {test : σ → α → Bool} {p : σ → Bool} {s : σ} {as : List α}
    (hs : Reachable step init ok s) (hok : ∀ s a, test s a = true → ok s a)
    (h : leadsTo step test p s as = true) :
    ∃ s', runFrom step s as = .ok s' ∧ Reachable step init ok s' ∧ p s' = true := by
  induction as generalizing s with
  | nil => exact ⟨s, rfl, hs, h⟩
  | cons a as ih =>
    obtain ⟨htest, h⟩ := Bool.and_eq_true_iff.mp h
    cases hstep : step s a with
    | error e => simp [hstep] at h
    | ok s₁ =>
      rw [hstep] at h
      simp only [runFrom, hstep]
      exact ih (hs.next (hok s a htest) hstep) h

section

variable {η : Type*}

/-- The system with a history variable: `note` keeps it, and no step reads it. -/
def withHistory (step : σ → α → Except ε σ) (note : η → σ → α → σ → η) (x : σ × η) (a : α) :
    Except ε (σ × η) :=
  match step x.1 a with
  | .ok s' => .ok (s', note x.2 x.1 a s')
  | .error e => .error e

/-- The states of the runs whose steps meet `ok`, with a history that begins as `h₀`. -/
abbrev Noted (step : σ → α → Except ε σ) (init : σ → Prop) (ok : σ → α → Prop)
    (note : η → σ → α → σ → η) (h₀ : η) : σ × η → Prop :=
  Reachable (withHistory step note) (fun x => init x.1 ∧ x.2 = h₀) (fun x a => ok x.1 a)

variable {note : η → σ → α → σ → η} {h₀ : η}

theorem withHistory_eq_ok {x x' : σ × η} {a : α} :
    withHistory step note x a = .ok x' ↔ step x.1 a = .ok x'.1 ∧ x'.2 = note x.2 x.1 a x'.1 := by
  unfold withHistory
  cases hstep : step x.1 a with
  | error e => simp
  | ok s' =>
    simp only [Except.ok.injEq]
    constructor
    · rintro rfl
      exact ⟨rfl, rfl⟩
    · rintro ⟨rfl, hx⟩
      exact Prod.ext rfl hx.symm

theorem Noted.reachable {x : σ × η} (h : Noted step init ok note h₀ x) :
    Reachable step init ok x.1 := by
  induction h with
  | init h => exact .init h.1
  | next _ hok hstep ih => exact ih.next hok (withHistory_eq_ok.mp hstep).1

theorem Reachable.exists_noted (note : η → σ → α → σ → η) (h₀ : η) {s : σ}
    (h : Reachable step init ok s) : ∃ g, Noted step init ok note h₀ (s, g) := by
  induction h with
  | init h => exact ⟨h₀, .init ⟨h, rfl⟩⟩
  | @next s s' a _ hok hstep ih =>
    obtain ⟨g, hg⟩ := ih
    exact ⟨note g s a s', .next hg hok (withHistory_eq_ok.mpr ⟨hstep, rfl⟩)⟩

theorem Noted.invariant_of {I : σ → η → Prop} (h0 : ∀ s, init s → I s h₀)
    (hs : ∀ s g a s', Noted step init ok note h₀ (s, g) → I s g → ok s a → step s a = .ok s' →
      I s' (note g s a s')) {x : σ × η} (h : Noted step init ok note h₀ x) : I x.1 x.2 := by
  apply Reachable.invariant_of (I := fun x : σ × η => I x.1 x.2) _ _ h
  · rintro x ⟨hinit, hx⟩
    rw [hx]
    exact h0 _ hinit
  · intro x a x' hr hx hok hstep
    obtain ⟨hstep, hg⟩ := withHistory_eq_ok.mp hstep
    rw [hg]
    exact hs x.1 x.2 a x'.1 hr hx hok hstep

end

/-- A run that stays above depth `d` up to its last state, which is at `d`. -/
inductive Excursion (step : σ → α → Except ε σ) (ok : σ → α → Prop) (depth : σ → ℕ) (d : ℕ) :
    σ → σ → Prop
  | done {s : σ} : depth s = d → Excursion step ok depth d s s
  | next {s s' s'' : σ} {a : α} : d < depth s → ok s a → step s a = .ok s' →
      Excursion step ok depth d s' s'' → Excursion step ok depth d s s''

variable {depth : σ → ℕ} {d : ℕ}

/-- `I` holds inside the excursion; a step from inside either stays inside and
keeps `I`, or ends the excursion in `Q`. -/
theorem Excursion.exit {I Q : σ → Prop}
    (hstep : ∀ s a s', I s → d < depth s → ok s a → step s a = .ok s' →
      (d < depth s' ∧ I s') ∨ (depth s' = d ∧ Q s'))
    {s s' : σ} (h : Excursion step ok depth d s s') (hI : d < depth s → I s)
    (hQ : depth s = d → Q s) : Q s' := by
  induction h with
  | done h => exact hQ h
  | @next s s₁ s₂ a hd hok hs _ ih =>
    rcases hstep s a s₁ (hI hd) hd hok hs with ⟨hlt, hI₁⟩ | ⟨heq, hQ₁⟩
    · exact ih (fun _ => hI₁) (fun h => absurd h (by omega))
    · exact ih (fun h => absurd heq (by omega)) (fun _ => hQ₁)

end Transition

namespace Except

universe u

variable {ε : Type*} {α β : Type u}

theorem bind_eq_ok {x : Except ε α} {f : α → Except ε β} {b : β} :
    (x >>= f) = .ok b ↔ ∃ a, x = .ok a ∧ f a = .ok b := by
  constructor
  · intro h
    cases x with
    | error e => cases h
    | ok a => exact ⟨a, rfl, h⟩
  · rintro ⟨a, rfl, h⟩
    exact h

theorem bind_ne_error {x : Except ε α} {f : α → Except ε β} {e : ε} (hx : x ≠ .error e)
    (hf : ∀ a, x = .ok a → f a ≠ .error e) : (x >>= f) ≠ .error e := by
  cases x with
  | error e' =>
    intro h
    apply hx
    cases h
    rfl
  | ok a => exact hf a rfl

theorem exists_of_isOk {x : Except ε α} (h : x.isOk = true) : ∃ a, x = .ok a := by
  cases x with
  | error e => cases h
  | ok a => exact ⟨a, rfl⟩

end Except
