import Mathlib

/-!
# Partial maps on the naturals, changed on a range

* `mapRange f v n g`   `f` with `g 0`, …, `g (n - 1)` at `v`, …, `v + n - 1`;
* `unmapRange f v n`   `f` without `v`, …, `v + n - 1`;
* `rangeSum μ f v n`   the sum of a weight `μ` over the values on the range.

Both changes are also what `n` changes at one place after the other do (`mapRange_succ`,
`unmapRange_succ`), which is how the loops that make them are verified.
-/

section
variable {γ M : Type}

def mapRange (f : ℕ → Option γ) (v n : ℕ) (g : ℕ → γ) : ℕ → Option γ :=
  fun w => if v ≤ w ∧ w < v + n then some (g (w - v)) else f w

def unmapRange (f : ℕ → Option γ) (v n : ℕ) : ℕ → Option γ :=
  fun w => if v ≤ w ∧ w < v + n then none else f w

@[simp] theorem mapRange_zero (f : ℕ → Option γ) (v : ℕ) (g : ℕ → γ) : mapRange f v 0 g = f := by
  funext w
  exact if_neg (by omega)

@[simp] theorem unmapRange_zero (f : ℕ → Option γ) (v : ℕ) : unmapRange f v 0 = f := by
  funext w
  exact if_neg (by omega)

theorem mapRange_one (f : ℕ → Option γ) (v : ℕ) (g : ℕ → γ) :
    mapRange f v 1 g = Function.update f v (some (g 0)) := by
  funext w
  unfold mapRange
  rw [Function.update_apply]
  by_cases h : w = v
  · subst h
    simp
  · rw [if_neg (by omega), if_neg h]

/-- one place, then the places after it -/
theorem mapRange_succ (f : ℕ → Option γ) (v n : ℕ) (g : ℕ → γ) :
    mapRange f v (n + 1) g
      = mapRange (Function.update f v (some (g 0))) (v + 1) n fun i => g (i + 1) := by
  funext w
  unfold mapRange
  rw [Function.update_apply]
  rcases Nat.lt_trichotomy w v with h | h | h
  · rw [if_neg (by omega), if_neg (by omega), if_neg (by omega)]
  · subst h
    rw [if_pos (by omega), if_neg (by omega), if_pos rfl, Nat.sub_self]
  · by_cases h' : w < v + (n + 1)
    · rw [if_pos (by omega), if_pos (by omega)]
      show some (g (w - v)) = some (g (w - (v + 1) + 1))
      rw [show w - (v + 1) + 1 = w - v by omega]
    · rw [if_neg (by omega), if_neg (by omega), if_neg (by omega)]

theorem unmapRange_succ (f : ℕ → Option γ) (v n : ℕ) :
    unmapRange f v (n + 1) = unmapRange (Function.update f v none) (v + 1) n := by
  funext w
  unfold unmapRange
  rw [Function.update_apply]
  rcases Nat.lt_trichotomy w v with h | h | h
  · rw [if_neg (by omega), if_neg (by omega), if_neg (by omega)]
  · subst h
    rw [if_pos (by omega), if_neg (by omega), if_pos rfl]
  · by_cases h' : w < v + (n + 1)
    · rw [if_pos (by omega), if_pos (by omega)]
    · rw [if_neg (by omega), if_neg (by omega), if_neg (by omega)]

section
variable [AddCommMonoid M] (μ : γ → M)

/-- the weight of the values of `f` on `v`, …, `v + n - 1` -/
def rangeSum (f : ℕ → Option γ) (v n : ℕ) : M := ∑ w ∈ Finset.Ico v (v + n), (f w).elim 0 μ

@[simp] theorem rangeSum_zero (f : ℕ → Option γ) (v : ℕ) : rangeSum μ f v 0 = 0 := by
  simp [rangeSum]

theorem rangeSum_congr {f g : ℕ → Option γ} {v n : ℕ} (h : ∀ w, v ≤ w → w < v + n → f w = g w) :
    rangeSum μ f v n = rangeSum μ g v n :=
  Finset.sum_congr rfl fun w hw => by
    rw [h w (Finset.mem_Ico.mp hw).1 (Finset.mem_Ico.mp hw).2]

theorem rangeSum_add (f : ℕ → Option γ) (v m n : ℕ) :
    rangeSum μ f v (m + n) = rangeSum μ f v m + rangeSum μ f (v + m) n := by
  unfold rangeSum
  rw [Finset.sum_Ico_consecutive _ (by omega) (by omega), Nat.add_assoc]

theorem rangeSum_one (f : ℕ → Option γ) (v : ℕ) : rangeSum μ f v 1 = (f v).elim 0 μ := by
  simp [rangeSum]

theorem rangeSum_succ (f : ℕ → Option γ) (v n : ℕ) :
    rangeSum μ f v (n + 1) = (f v).elim 0 μ + rangeSum μ f (v + 1) n := by
  rw [Nat.add_comm n 1, rangeSum_add, rangeSum_one]

end

end
