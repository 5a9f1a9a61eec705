import Mathlib

/-!
# Forests given by parent pointers

`par x` is the parent of `x`.  Some nodes are `inner`: they may have children; some are `kept`: they
must have a parent, unless they are the root.

* `Reaches par r x`   the pointers lead from `x` to `r`;
* `IsForest`   every parent is inner, every kept node has one, and all pointers lead to `r`;
* `IsForest.relabel`, `attach`, `adopt`, `drop`   the changes that keep it.
-/

variable {α : Type*} {par par' : α → Option α} {r : α}

/-- the parent pointers lead from a node to the root `r` -/
inductive Reaches (par : α → Option α) (r : α) : α → Prop
  | root : Reaches par r r
  | up {x y : α} (h : par x = some y) (hy : Reaches par r y) : Reaches par r x

/-- the nodes `S` are closed under `par`, and in them the pointers stay or lead to the root -/
theorem Reaches.mono {S : α → Prop} {x : α} (h : Reaches par r x) (hx : S x)
    (hS : ∀ y z, S y → par y = some z → S z ∧ (par' y = some z ∨ Reaches par' r y)) :
    Reaches par' r x := by
  induction h with
  | root => exact .root
  | up hp _ ih =>
    obtain ⟨hz, h | h⟩ := hS _ _ hx hp
    · exact .up h (ih hz)
    · exact h

structure IsForest (par : α → Option α) (r : α) (inner kept : α → Prop) : Prop where
  root : inner r
  up : ∀ x y, par x = some y → inner y
  parent : ∀ x, kept x → x ≠ r → par x ≠ none
  reach : ∀ x y, par x = some y → Reaches par r x

namespace IsForest
open Function (update update_of_ne update_self)
variable {inner kept inner' kept' : α → Prop}

theorem reaches (h : IsForest par r inner kept) {x : α} (hx : kept x) : Reaches par r x := by
  by_cases hr : x = r
  · rw [hr]
    exact .root
  · cases hp : par x with
    | none => exact absurd hp (h.parent x hx hr)
    | some y => exact h.reach x y hp

/-- other nodes are inner or kept -/
theorem relabel (h : IsForest par r inner kept) (hr : inner' r)
    (hi : ∀ x y, par x = some y → inner' y) (hk : ∀ x, kept' x → kept x ∨ par x ≠ none) :
    IsForest par r inner' kept' where
  root := hr
  up := hi
  parent x hx hne := (hk x hx).elim (fun hx => h.parent x hx hne) id
  reach := h.reach

variable [DecidableEq α]

/-- a node without parent becomes a child of `i` -/
theorem attach (h : IsForest par r inner kept) {i j : α} (hj : par j = none) (hi : inner i)
    (hreach : Reaches par r i) : IsForest (update par j (some i)) r inner kept := by
  have hne : ∀ {x y}, par x = some y → x ≠ j := by
    rintro x y hx rfl
    rw [hj] at hx
    cases hx
  have hmono : ∀ {x}, Reaches par r x → Reaches (update par j (some i)) r x := by
    intro x hx
    refine hx.mono (S := fun _ => True) trivial fun y z _ hy => ⟨trivial, .inl ?_⟩
    rw [update_of_ne (hne hy)]
    exact hy
  refine ⟨h.root, fun x y hx => ?_, fun x hx hr => ?_, fun x y hx => ?_⟩
  · by_cases hxj : x = j
    · rw [hxj, update_self] at hx
      exact Option.some.inj hx ▸ hi
    · rw [update_of_ne hxj] at hx
      exact h.up x y hx
  · by_cases hxj : x = j
    · rw [hxj, update_self]
      exact nofun
    · rw [update_of_ne hxj]
      exact h.parent x hx hr
  · by_cases hxj : x = j
    · rw [hxj]
      exact .up (update_self _ _ _) (hmono hreach)
    · rw [update_of_ne hxj] at hx
      exact hmono (h.reach x y hx)

/-- a node becomes a child of the root -/
theorem adopt (h : IsForest par r inner kept) (j : α) :
    IsForest (update par j (some r)) r inner kept := by
  have hj : Reaches (update par j (some r)) r j := .up (update_self _ _ _) .root
  have hmono : ∀ {x}, Reaches par r x → Reaches (update par j (some r)) r x := by
    intro x hx
    refine hx.mono (S := fun _ => True) trivial fun y z _ hy => ⟨trivial, ?_⟩
    by_cases hyj : y = j
    · exact .inr (hyj ▸ hj)
    · rw [update_of_ne hyj]
      exact .inl hy
  refine ⟨h.root, fun x y hx => ?_, fun x hx hr => ?_, fun x y hx => ?_⟩
  · by_cases hxj : x = j
    · rw [hxj, update_self] at hx
      exact Option.some.inj hx ▸ h.root
    · rw [update_of_ne hxj] at hx
      exact h.up x y hx
  · by_cases hxj : x = j
    · rw [hxj, update_self]
      exact nofun
    · rw [update_of_ne hxj]
      exact h.parent x hx hr
  · by_cases hxj : x = j
    · rw [hxj]
      exact hj
    · rw [update_of_ne hxj] at hx
      exact hmono (h.reach x y hx)

/-- a node without children goes -/
theorem drop (h : IsForest par r inner kept) {j : α} (hj : ¬inner j)
    (hk : ∀ x, kept' x → x ≠ j ∧ kept x) : IsForest (update par j none) r inner kept' := by
  have hne : ∀ {x y}, update par j none x = some y → x ≠ j ∧ par x = some y := by
    intro x y hx
    by_cases hxj : x = j
    · rw [hxj, update_self] at hx
      cases hx
    · rw [update_of_ne hxj] at hx
      exact ⟨hxj, hx⟩
  refine ⟨h.root, fun x y hx => h.up x y (hne hx).2, fun x hx hr => ?_, fun x y hx => ?_⟩
  · obtain ⟨hxj, hx⟩ := hk x hx
    rw [update_of_ne hxj]
    exact h.parent x hx hr
  · obtain ⟨hxj, hx⟩ := hne hx
    refine (h.reach x y hx).mono (S := fun x => x ≠ j) hxj fun y z hy hz => ⟨?_, .inl ?_⟩
    · rintro rfl
      exact hj (h.up y z hz)
    · rw [update_of_ne hy]
      exact hz

end IsForest
