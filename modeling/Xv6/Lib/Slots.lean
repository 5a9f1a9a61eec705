import Mathlib

/-!
# A finite map in an array of slots

A slot is empty or holds a key and its value.  A key is looked up by a scan from slot 0 on; it is added in
an empty slot or behind the last one.

* `Slots.find`, `Slots.get`   the scan;
* `Slots.Distinct`   no key is in two slots;
* `Slots.get_put`   **adding changes one binding**.
-/

namespace Xv6.Slots

variable {κ ν : Type*} {e f : ℕ → Option (κ × ν)} {n i : ℕ} {x : κ} {v : ν}

/-- slot `i` has the key `x` -/
def Has (e : ℕ → Option (κ × ν)) (x : κ) (i : ℕ) : Prop := (e i).map Prod.fst = some x

def Distinct (e : ℕ → Option (κ × ν)) (n : ℕ) : Prop :=
  ∀ i < n, ∀ j < n, ∀ x, Has e x i → Has e x j → i = j

theorem Has.congr (h : f i = e i) : Has f x i ↔ Has e x i := by
  unfold Has
  rw [h]

theorem Has.of_eq (h : e i = some (x, v)) : Has e x i := by
  unfold Has
  rw [h]
  rfl

theorem Distinct.of_eq (h : ∀ i < n, f i = e i) (hd : Distinct e n) : Distinct f n :=
  fun i hi j hj x hx hy => hd i hi j hj x ((Has.congr (h i hi)).1 hx) ((Has.congr (h j hj)).1 hy)

theorem Distinct.clear (hf : ∀ j < n, f j = if j = i then none else e j) (hd : Distinct e n) :
    Distinct f n := by
  have key : ∀ j < n, ∀ y, Has f y j → Has e y j := fun j hj y h => by
    unfold Has at h
    rw [hf j hj] at h
    split at h
    · cases h
    · exact h
  intro j hj l hl y hjy hly
  exact hd j hj l hl y (key j hj y hjy) (key l hl y hly)

variable [DecidableEq κ]

instance (e : ℕ → Option (κ × ν)) (x : κ) (i : ℕ) : Decidable (Has e x i) :=
  inferInstanceAs (Decidable (_ = _))

/-- the first of the `n` slots with the key -/
def find (e : ℕ → Option (κ × ν)) (n : ℕ) (x : κ) : Option ℕ := (List.range n).find? fun i => Has e x i

/-- the value of the key -/
def get (e : ℕ → Option (κ × ν)) (n : ℕ) (x : κ) : Option ν :=
  (find e n x).bind fun i => (e i).map Prod.snd

theorem find_eq_some_iff : find e n x = some i ↔ i < n ∧ Has e x i ∧ ∀ j < i, ¬ Has e x j := by
  unfold find
  rw [List.find?_range_eq_some]
  simp only [decide_eq_true_eq, Bool.not_eq_true', decide_eq_false_iff_not, List.mem_range]
  exact ⟨fun h => ⟨h.2.1, h.1, h.2.2⟩, fun h => ⟨h.2.1, h.1, h.2.2⟩⟩

theorem find_eq_none_iff : find e n x = none ↔ ∀ i < n, ¬ Has e x i := by
  unfold find
  rw [List.find?_range_eq_none]
  simp only [Bool.not_eq_true', decide_eq_false_iff_not]

theorem get_eq_none_iff : get e n x = none ↔ ∀ i < n, ¬ Has e x i := by
  rw [← find_eq_none_iff]
  cases hf : find e n x with
  | none => exact iff_of_true (by unfold get; rw [hf]; rfl) rfl
  | some i =>
    refine iff_of_false (fun h => ?_) fun h => (nomatch h)
    obtain ⟨-, hi, -⟩ := find_eq_some_iff.1 hf
    unfold get at h
    rw [hf, Option.bind_some] at h
    unfold Has at hi
    cases he : e i with
    | none =>
      rw [he] at hi
      cases hi
    | some p =>
      rw [he] at h
      cases h

/-- in a slot with the key is its value, if no other slot has it -/
theorem get_eq_some (hd : ∀ j < n, Has e x j → j = i) (hi : i < n) (he : e i = some (x, v)) :
    get e n x = some v := by
  have hf : find e n x = some i :=
    find_eq_some_iff.2 ⟨hi, .of_eq he, fun j hj h => absurd (hd j (by omega) h) (by omega)⟩
  unfold get
  rw [hf, Option.bind_some, he]
  rfl

/-- a key is found where it was as long as the slots with it are the same -/
theorem get_congr {m : ℕ} (h : ∀ i, i < n ∧ Has e x i ↔ i < m ∧ Has f x i)
    (hv : ∀ i < n, Has e x i → f i = e i) : get f m x = get e n x := by
  have hf : find f m x = find e n x := by
    cases he : find e n x with
    | none =>
      exact find_eq_none_iff.2 fun i hi hx => find_eq_none_iff.1 he i ((h i).2 ⟨hi, hx⟩).1 ((h i).2 ⟨hi, hx⟩).2
    | some i =>
      obtain ⟨hi, hx, hno⟩ := find_eq_some_iff.1 he
      obtain ⟨hi', hx'⟩ := (h i).1 ⟨hi, hx⟩
      exact find_eq_some_iff.2 ⟨hi', hx', fun j hj hjx =>
        hno j hj ((h j).2 ⟨by omega, hjx⟩).2⟩
  unfold get
  rw [hf]
  cases he : find e n x with
  | none => rfl
  | some i =>
    obtain ⟨hi, hx, -⟩ := find_eq_some_iff.1 he
    rw [Option.bind_some, Option.bind_some, hv i hi hx]

theorem get_of_eq (h : ∀ i < n, f i = e i) : get f n = get e n := by
  funext x
  exact get_congr (fun i => and_congr_right fun hi => (Has.congr (h i hi)).symm) fun i hi _ => h i hi

section
variable {m : ℕ} (hm : m = max n (i + 1)) (hi : i ≤ n) (hempty : i < n → e i = none)
  (hf : ∀ j < m, f j = if j = i then some (x, v) else e j)

include hm hi hempty hf

/-- **a key is added** that is in no slot -/
theorem get_put (hno : get e n x = none) : get f m = Function.update (get e n) x (some v) := by
  funext y
  by_cases hy : y = x
  · subst hy
    rw [Function.update_self]
    refine get_eq_some (i := i) (fun j hj hjx => ?_) (by omega) ((hf i (by omega)).trans (if_pos rfl))
    by_contra hne
    rw [Has.congr ((hf j hj).trans (if_neg hne))] at hjx
    exact get_eq_none_iff.1 hno j (by omega) hjx
  · rw [Function.update_of_ne hy]
    have hnew : ¬ Has f y i := fun h => by
      unfold Has at h
      rw [hf i (by omega), if_pos rfl] at h
      exact hy (Option.some.inj h).symm
    have hold : i < n → ¬ Has e y i := fun hlt h => by
      unfold Has at h
      rw [hempty hlt] at h
      cases h
    refine get_congr (fun j => ?_) fun j hj hjy => ?_
    · by_cases hji : j = i
      · subst hji
        exact iff_of_false (fun h => hold h.1 h.2) fun h => hnew h.2
      · have hjm : j < n ↔ j < m := by omega
        rw [hjm]
        exact and_congr_right fun hj => (Has.congr ((hf j hj).trans (if_neg hji))).symm
    · have hji : j ≠ i := fun e' => hold (e' ▸ hj) (e' ▸ hjy)
      exact (hf j (by omega)).trans (if_neg hji)

theorem Distinct.put (hd : Distinct e n) (hno : get e n x = none) : Distinct f m := by
  have key : ∀ j < m, j ≠ i → j < n ∧ ∀ y, Has f y j ↔ Has e y j := fun j hj hne =>
    ⟨by omega, fun y => Has.congr ((hf j hj).trans (if_neg hne))⟩
  have hx : ∀ y, Has f y i → y = x := fun y h => by
    unfold Has at h
    rw [hf i (by omega), if_pos rfl] at h
    exact (Option.some.inj h).symm
  intro j hj l hl y hjy hly
  by_cases hji : j = i
  · by_cases hli : l = i
    · omega
    · obtain ⟨hln, hk⟩ := key l hl hli
      have hyx := hx y (hji ▸ hjy)
      exact absurd (hyx ▸ (hk y).1 hly) (get_eq_none_iff.1 hno l hln)
  · obtain ⟨hjn, hk⟩ := key j hj hji
    by_cases hli : l = i
    · have hyx := hx y (hli ▸ hly)
      exact absurd (hyx ▸ (hk y).1 hjy) (get_eq_none_iff.1 hno j hjn)
    · obtain ⟨hln, hk'⟩ := key l hl hli
      exact hd j hjn l hln y ((hk y).1 hjy) ((hk' y).1 hly)

end

section
variable (hi : i < n) (hx : Has e x i) (hf : ∀ j < n, f j = if j = i then none else e j)

include hi hx hf

end

end Xv6.Slots
