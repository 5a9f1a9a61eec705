import Mathlib

/-!
# Spinlocks held by CPUs

Locks of a type `L` and CPUs of a type `C`: who owns each lock, and how many each CPU holds.

* `Spin.apply`   one operation of a CPU: `acq` needs a free lock, `rel` one of its own;
* `Spin.Counted`   the depth of a CPU is the number of locks it owns;
* `Disc A op B`   a thread that relies on the locks `A` may do `op` and then rely on `B`;
* `Spin.Owns.apply`   what a disciplined thread relies on, its CPU owns.
-/

set_option linter.unusedSectionVars false

/-- what a step of a thread does with the locks; `swtch` gives up the CPU -/
inductive Op (L : Type) where
  | tau
  | acq (l : L)
  | rel (l : L)
  | swtch

/-- the owner of each lock and the number of locks of each CPU -/
structure Spin (L C : Type) where
  owner : L → Option C
  depth : C → Nat

/-- a thread that needs the locks `A` does `op` and needs `B` then -/
def Disc {L : Type} (A : List L) (op : Op L) (B : List L) : Prop :=
  match op with
  | .tau => B ⊆ A
  | .acq l => B ⊆ l :: A
  | .rel l => l ∈ A ∧ B ⊆ A ∧ l ∉ B
  | .swtch => B ⊆ A

namespace Spin
open Function (update update_self)
variable {L C : Type} [DecidableEq L] [DecidableEq C]

def free : Spin L C := ⟨fun _ => none, fun _ => 0⟩

/-- `acquire` and `release`; the second panics on a lock that is not held -/
def apply (s : Spin L C) (c : C) : Op L → Option (Spin L C)
  | .tau => some s
  | .acq l =>
    if s.owner l = none then
      some ⟨Function.update s.owner l (some c), Function.update s.depth c (s.depth c + 1)⟩
    else none
  | .rel l =>
    if s.owner l = some c ∧ 1 ≤ s.depth c then
      some ⟨Function.update s.owner l none, Function.update s.depth c (s.depth c - 1)⟩
    else none
  | .swtch => some s

variable {s s' : Spin L C} {c c' : C} {op : Op L} {l : L} {A B : List L}

theorem apply_acq (h : s.apply c (.acq l) = some s') :
    s.owner l = none ∧
    s' = ⟨update s.owner l (some c), update s.depth c (s.depth c + 1)⟩ := by
  dsimp only [Spin.apply] at h
  split at h
  · rename_i hl
    cases h
    exact ⟨hl, rfl⟩
  · cases h

theorem apply_rel (h : s.apply c (.rel l) = some s') :
    s.owner l = some c ∧ 1 ≤ s.depth c ∧
    s' = ⟨update s.owner l none, update s.depth c (s.depth c - 1)⟩ := by
  dsimp only [Spin.apply] at h
  split at h
  · rename_i hl
    cases h
    exact ⟨hl.1, hl.2, rfl⟩
  · cases h

/-- the locks of the CPUs are counted -/
def Counted (s : Spin L C) : Prop :=
  ∀ c, ∃ S : Finset L, (∀ l, l ∈ S ↔ s.owner l = some c) ∧ S.card = s.depth c

theorem counted_free : Counted (free : Spin L C) :=
  fun _ => ⟨∅, fun _ => by simp [free], rfl⟩

theorem Counted.apply (hs : s.Counted) (h : s.apply c op = some s') : s'.Counted := by
  cases op with
  | tau | swtch =>
    cases h
    exact hs
  | acq l =>
    obtain ⟨hl, rfl⟩ := apply_acq h
    intro d
    obtain ⟨S, hS, hn⟩ := hs d
    by_cases hd : d = c
    · subst hd
      have hlS : l ∉ S := fun hm => by
        rw [hS, hl] at hm
        cases hm
      refine ⟨insert l S, fun x => ?_, ?_⟩
      · by_cases hx : x = l
        · subst hx
          simp
        · simp [hx, hS]
      · rw [Finset.card_insert_of_notMem hlS, hn]
        simp
    · refine ⟨S, fun x => ?_, by simpa [hd] using hn⟩
      by_cases hx : x = l
      · subst hx
        simp [hS, hl, Ne.symm hd]
      · simp [hx, hS]
  | rel l =>
    obtain ⟨hl, h1, rfl⟩ := apply_rel h
    intro d
    obtain ⟨S, hS, hn⟩ := hs d
    by_cases hd : d = c
    · subst hd
      refine ⟨S.erase l, fun x => ?_, ?_⟩
      · by_cases hx : x = l
        · subst hx
          simp
        · simp [hx, hS]
      · rw [Finset.card_erase_of_mem ((hS l).mpr hl), hn]
        simp
    · refine ⟨S, fun x => ?_, by simpa [hd] using hn⟩
      by_cases hx : x = l
      · subst hx
        simp [hS, hl, Ne.symm hd]
      · simp [hx, hS]

/-- CPU `c` owns the locks `A` -/
def Owns (s : Spin L C) (c : C) (A : List L) : Prop := ∀ l ∈ A, s.owner l = some c

theorem Owns.mono (h : s.Owns c A) (hAB : B ⊆ A) : s.Owns c B := fun l hl => h l (hAB hl)

/-- a disciplined thread owns what it needs -/
theorem Owns.apply (hA : s.Owns c A) (hd : Disc A op B) (h : s.apply c op = some s') :
    s'.Owns c B := by
  cases op with
  | tau | swtch =>
    cases h
    exact hA.mono hd
  | acq l =>
    obtain ⟨-, rfl⟩ := apply_acq h
    intro x hx
    by_cases hxl : x = l
    · subst hxl
      simp
    · rcases List.mem_cons.mp (hd hx) with e | hxA
      · exact absurd e hxl
      · simpa [hxl] using hA x hxA
  | rel l =>
    obtain ⟨-, -, rfl⟩ := apply_rel h
    intro x hx
    have hxl : x ≠ l := fun e => hd.2.2 (e ▸ hx)
    simpa [hxl] using hA x (hd.2.1 hx)

/-- what another CPU owns stays with it -/
theorem owner_other (hc : c' ≠ c) (h : s.apply c op = some s') (hl : s.owner l = some c') :
    s'.owner l = some c' := by
  cases op with
  | tau | swtch =>
    cases h
    exact hl
  | acq x =>
    obtain ⟨hx, rfl⟩ := apply_acq h
    have hxl : l ≠ x := fun e => by
      rw [← e, hl] at hx
      cases hx
    simpa [hxl] using hl
  | rel x =>
    obtain ⟨hx, -, rfl⟩ := apply_rel h
    have hxl : l ≠ x := fun e => by
      rw [← e, hl] at hx
      exact hc (Option.some.inj hx)
    simpa [hxl] using hl

/-- at depth 0 nothing is owned -/
theorem Counted.none (hs : s.Counted) (h0 : s.depth c = 0) (hA : s.Owns c A) : A = [] := by
  obtain ⟨S, hS, hn⟩ := hs c
  rw [h0, Finset.card_eq_zero] at hn
  refine List.eq_nil_iff_forall_not_mem.mpr fun l hl => ?_
  have hlS := (hS l).mpr (hA l hl)
  rw [hn] at hlS
  exact Finset.notMem_empty _ hlS

end Spin
