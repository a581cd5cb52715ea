import Mathlib.Data.Finset.Basic
import Mathlib.Data.List.Infix

/-!
# Next-fit allocation

`N` places in a circle are taken and released.  A place is looked for from the
one after the place taken last, and the first free one is taken.  A history
holds what happened, newest first.
-/

namespace NextFit

inductive Event
  | taken (p : ℕ)
  | refused
  | released (p : ℕ)

def busy : List Event → Finset ℕ
  | [] => ∅
  | .taken p :: h => insert p (busy h)
  | .refused :: h => busy h
  | .released p :: h => (busy h).erase p

/-- Where the next search starts; `N` stands for place 0. -/
def start : List Event → ℕ
  | [] => 0
  | .taken p :: _ => p + 1
  | .refused :: h => start h
  | .released _ :: h => start h

def ahead (N a p : ℕ) : ℕ := if a ≤ p then p - a else p + N - a

/-- The histories of next-fit allocation. -/
inductive Sweeping (N : ℕ) : List Event → Prop
  | nil : Sweeping N []
  | taken {h : List Event} {p : ℕ} : Sweeping N h → p < N →
      (∀ q < N, ahead N (start h) q < ahead N (start h) p → q ∈ busy h) →
      Sweeping N (.taken p :: h)
  | refused {h : List Event} : Sweeping N h → Sweeping N (.refused :: h)
  | released {h : List Event} {p : ℕ} : Sweeping N h → Sweeping N (.released p :: h)

def BusyBetween (h₁ h₂ : List Event) (q : ℕ) : Prop := ∃ h, h₁ <:+ h ∧ h <:+ h₂ ∧ q ∈ busy h

variable {N p q : ℕ} {h h₁ h₂ : List Event}

theorem BusyBetween.mono (hq : BusyBetween h₁ h q) (hs : h <:+ h₂) : BusyBetween h₁ h₂ q := by
  obtain ⟨h', h1, h2, hbusy⟩ := hq
  exact ⟨h', h1, h2.trans hs, hbusy⟩

theorem Sweeping.of_suffix (hs : Sweeping N h₂) (h : h₁ <:+ h₂) : Sweeping N h₁ := by
  induction hs with
  | nil =>
    rw [List.suffix_nil.mp h]
    exact .nil
  | taken hs hp hskip ih =>
    rcases List.suffix_cons_iff.mp h with rfl | h
    · exact .taken hs hp hskip
    · exact ih h
  | refused hs ih =>
    rcases List.suffix_cons_iff.mp h with rfl | h
    · exact .refused hs
    · exact ih h
  | released hs ih =>
    rcases List.suffix_cons_iff.mp h with rfl | h
    · exact .released hs
    · exact ih h

/-- After `p` was taken, the search has got as far as `m`, the place taken last,
and every place on the way was busy at some moment. -/
def Swept (N p : ℕ) (h₁ h : List Event) : Prop :=
  ∃ m < N, start h = m + 1 ∧ ∀ q < N, q ≠ p → ahead N p q ≤ ahead N p m → BusyBetween h₁ h q

theorem Swept.mono (hs : Swept N p h₁ h) (hle : h <:+ h₂) (hstart : start h₂ = start h) :
    Swept N p h₁ h₂ := by
  obtain ⟨m, hm, hst, hsw⟩ := hs
  exact ⟨m, hm, hstart.trans hst, fun q hq hne hle' => (hsw q hq hne hle').mono hle⟩

/-- The search goes on from `m` to `k`: what lies between is busy now. -/
theorem Swept.taken {k : ℕ} (hs : Swept N p h₁ h) (hle : h₁ <:+ h) (hp : p < N) (hk : k < N)
    (hskip : ∀ q < N, ahead N (start h) q < ahead N (start h) k → q ∈ busy h) :
    Swept N p h₁ (.taken k :: h) := by
  obtain ⟨m, hm, hst, hsw⟩ := hs
  refine ⟨k, hk, rfl, ?_⟩
  intro q hq hne hqk
  by_cases hqk' : q = k
  · exact ⟨_, hle.trans (List.suffix_cons _ _), List.suffix_rfl, by simp [busy, hqk']⟩
  · rw [hst] at hskip
    by_cases hnew : ahead N (m + 1) q < ahead N (m + 1) k
    · exact ⟨h, hle, List.suffix_cons _ _, hskip q hq hnew⟩
    · have hold : ahead N p q ≤ ahead N p m := by
        unfold ahead at *
        split_ifs at * <;> omega
      exact (hsw q hq hne hold).mono (List.suffix_cons _ _)

theorem swept_of_sweeping {pre : List Event} (hs : Sweeping N h) (hp : p < N)
    (hle : .taken p :: pre <:+ h) : Swept N p (.taken p :: pre) h := by
  induction hs with
  | nil => exact absurd (List.suffix_nil.mp hle) (List.cons_ne_nil _ _)
  | @taken h k hs hk hskip ih =>
    rcases List.suffix_cons_iff.mp hle with heq | hle
    · cases heq
      refine ⟨p, hp, rfl, ?_⟩
      intro q hq hne hqp
      -- no place but `p` itself is that near
      exfalso
      unfold ahead at hqp
      split_ifs at hqp <;> omega
    · exact (ih hle).taken hle hp hk hskip
  | refused hs ih =>
    rcases List.suffix_cons_iff.mp hle with heq | hle
    · cases heq
    · exact (ih hle).mono (List.suffix_cons _ _) rfl
  | released hs ih =>
    rcases List.suffix_cons_iff.mp hle with heq | hle
    · cases heq
    · exact (ih hle).mono (List.suffix_cons _ _) rfl

/-- Between two times that a place is taken every other place is busy at some moment. -/
theorem busyBetween_of_taken_twice {pre : List Event} (hs : Sweeping N (.taken p :: h))
    (hle : .taken p :: pre <:+ h) (hq : q < N) (hne : q ≠ p) :
    BusyBetween (.taken p :: pre) h q := by
  cases hs with
  | taken hs hp hskip =>
    obtain ⟨m, hm, hst, hsw⟩ := swept_of_sweeping hs hp hle
    rw [hst] at hskip
    by_cases hnew : ahead N (m + 1) q < ahead N (m + 1) p
    · exact ⟨h, hle, List.suffix_rfl, hskip q hq hnew⟩
    · apply hsw q hq hne
      unfold ahead at *
      split_ifs at * <;> omega

end NextFit
