import Mathlib

/-!
# Rings with free-running counters

A buffer of `c` cells with a read and a write counter of `w` bits that are never reset: they wrap, and
are reduced modulo `c` only to choose a cell.  `c` divides `2 ^ w`.

* `RingBuf.contents`   the stored values, oldest first;
* `RingBuf.contents_push`   a push into a ring that is not full appends;
* `RingBuf.contents_pop`   a pop from a ring that is not empty takes the first.
-/

/-- cells and the two counters -/
structure RingBuf (α : Type*) (w : ℕ) where
  cell : ℕ → α
  rd : BitVec w
  wr : BitVec w

namespace RingBuf
variable {α : Type*} {w : ℕ} (c : ℕ) (r : RingBuf α w)

/-- how many values are stored -/
def count : ℕ := (r.wr - r.rd).toNat

/-- the stored values from the read counter on -/
def contents : List α := (List.range r.count).map fun i => r.cell ((r.rd.toNat + i) % c)

def push (x : α) : RingBuf α w :=
  ⟨Function.update r.cell (r.wr.toNat % c) x, r.rd, r.wr + 1#w⟩

def pop : RingBuf α w := ⟨r.cell, r.rd + 1#w, r.wr⟩

theorem length_contents : (r.contents c).length = r.count := by
  simp [contents]

theorem count_eq_zero : r.count = 0 ↔ r.rd = r.wr := by
  show (r.wr - r.rd).toNat = (0#w).toNat ↔ _
  rw [BitVec.toNat_inj, BitVec.sub_eq_iff_eq_add, BitVec.zero_add]
  exact eq_comm

theorem contents_eq_nil : r.contents c = [] ↔ r.rd = r.wr := by
  rw [← List.length_eq_zero_iff, length_contents, count_eq_zero]

theorem count_eq_iff {n : ℕ} (hn : n < 2 ^ w) : r.count = n ↔ r.wr = r.rd + BitVec.ofNat w n := by
  have e : n = (BitVec.ofNat w n).toNat := by rw [BitVec.toNat_ofNat, Nat.mod_eq_of_lt hn]
  rw [count]
  conv => lhs; rhs; rw [e]
  rw [BitVec.toNat_inj, BitVec.sub_eq_iff_eq_add, BitVec.add_comm]

theorem wr_eq : r.wr = r.rd + BitVec.ofNat w r.count := (count_eq_iff r (BitVec.isLt _)).1 rfl

theorem count_push (x : α) (h : r.count + 1 < 2 ^ w) : (r.push c x).count = r.count + 1 := by
  rw [count_eq_iff _ h]
  show r.wr + 1#w = r.rd + _
  rw [wr_eq r]
  simp [BitVec.ofNat_add, BitVec.add_assoc]

theorem count_pop (h : r.rd ≠ r.wr) : r.count = r.pop.count + 1 := by
  have h0 : r.count ≠ 0 := fun e => h ((count_eq_zero r).1 e)
  have hlt : r.count < 2 ^ w := BitVec.isLt _
  have e : r.pop.count = r.count - 1 := by
    rw [count_eq_iff _ (by omega)]
    show r.wr = r.rd + 1#w + _
    conv => lhs; rw [wr_eq r, show r.count = 1 + (r.count - 1) by omega]
    simp [BitVec.ofNat_add, BitVec.add_assoc]
  omega

variable {c}

/-- the counter and the number of a cell agree modulo the number of cells -/
theorem add_toNat_mod (hc : c ∣ 2 ^ w) (a : BitVec w) (n : ℕ) :
    (a + BitVec.ofNat w n).toNat % c = (a.toNat + n) % c := by
  rw [BitVec.toNat_add, Nat.mod_mod_of_dvd _ hc, BitVec.toNat_ofNat, Nat.add_mod,
    Nat.mod_mod_of_dvd _ hc, ← Nat.add_mod]

theorem wr_mod (hc : c ∣ 2 ^ w) : r.wr.toNat % c = (r.rd.toNat + r.count) % c := by
  rw [← add_toNat_mod hc, ← wr_eq r]

/-- two of fewer than `c` consecutive cells differ -/
theorem cell_ne {a i n : ℕ} (hi : i < n) (hn : n < c) : (a + i) % c ≠ (a + n) % c := by
  intro e
  have h : (a + i) ≡ (a + n) [MOD c] := e
  have := Nat.ModEq.add_left_cancel' a h
  rw [Nat.ModEq, Nat.mod_eq_of_lt (by omega), Nat.mod_eq_of_lt hn] at this
  omega

/-- **a push appends** -/
theorem contents_push (hc : c ∣ 2 ^ w) (hw : c < 2 ^ w) (x : α) (h : r.count < c) :
    (r.push c x).contents c = r.contents c ++ [x] := by
  rw [contents, count_push c r x (by omega), List.range_succ, List.map_append]
  congr 1
  · refine List.map_congr_left fun i hi => ?_
    have hi : i < r.count := List.mem_range.1 hi
    show Function.update _ _ _ _ = _
    rw [wr_mod r hc]
    exact Function.update_of_ne (cell_ne hi h) _ _
  · show [Function.update _ _ _ _] = _
    rw [wr_mod r hc]
    exact congrArg (fun y => [y]) (Function.update_self _ _ _)

/-- **a pop takes the oldest** -/
theorem contents_pop (hc : c ∣ 2 ^ w) (h : r.rd ≠ r.wr) :
    r.contents c = r.cell (r.rd.toNat % c) :: r.pop.contents c := by
  rw [contents, count_pop r h, List.range_succ_eq_map, List.map_cons, List.map_map]
  congr 1
  refine List.map_congr_left fun i _ => congrArg r.cell ?_
  show (r.rd.toNat + (i + 1)) % c = ((r.rd + 1#w).toNat + i) % c
  rw [show r.rd.toNat + (i + 1) = r.rd.toNat + 1 + i by omega, Nat.add_mod, ← add_toNat_mod hc r.rd 1,
    ← Nat.add_mod]

end RingBuf
