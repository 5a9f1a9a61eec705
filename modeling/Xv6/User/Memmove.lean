import Xv6.Kernel.Defs

/-!
# `memmove`, in the kernel and in the user library

The two functions choose the direction of the copy by different tests.

* `copyUp`, `copyDown`   the two loops, on a memory of bytes with 64-bit addresses;
* `Moved`   what a copy is to do: the bytes of the source as they were, and nothing else;
* `copyUp_moved`   upwards, if the source does not start below the destination and reach into it;
* `copyDown_moved`   downwards, if it does not start above it and within its reach;
* `memmove_overlap_safe`   **both functions move the bytes, however the ranges overlap**.
-/

namespace Xv6

abbrev Ptr := BitVec 64

/-- a memory of bytes -/
abbrev Ram := Ptr → Byte

/-- `while(n-- > 0) *d++ = *s++;` -/
def copyUp : ℕ → Ram → Ptr → Ptr → Ram
  | 0, m, _, _ => m
  | n + 1, m, d, s => copyUp n (Function.update m d (m s)) (d + 1) (s + 1)

/-- `while(n-- > 0) *--d = *--s;` -/
def copyDown : ℕ → Ram → Ptr → Ptr → Ram
  | 0, m, _, _ => m
  | n + 1, m, d, s => copyDown n (Function.update m (d - 1) (m (s - 1))) (d - 1) (s - 1)

/-- `kernel/string.c`, where `n` is a `uint` -/
def Kstring.memmove (m : Ram) (dst src : Ptr) (n : BitVec 32) : Ptr × Ram :=
  if n = 0 then (dst, m)
  else if src < dst ∧ src + n.setWidth 64 > dst then
    (dst, copyDown n.toNat m (dst + n.setWidth 64) (src + n.setWidth 64))
  else (dst, copyUp n.toNat m dst src)

/-- `user/ulib.c`, where `n` is an `int` -/
def Ulib.memmove (m : Ram) (vdst vsrc : Ptr) (n : CInt) : Ptr × Ram :=
  if vsrc > vdst then (vdst, copyUp n.toInt.toNat m vdst vsrc)
  else (vdst, copyDown n.toInt.toNat m (vdst + n.signExtend 64) (vsrc + n.signExtend 64))

/-- `m'` is `m` with the `n` bytes at `src` moved to `dst` -/
structure Moved (m : Ram) (dst src : Ptr) (n : ℕ) (m' : Ram) : Prop where
  moved : ∀ i < n, m' (dst + BitVec.ofNat 64 i) = m (src + BitVec.ofNat 64 i)
  other : ∀ a : Ptr, a.toNat < dst.toNat ∨ dst.toNat + n ≤ a.toNat → m' a = m a

/-! ## Addresses -/

section
variable {p a : Ptr} {i : ℕ}

theorem Ptr.toNat_add (h : p.toNat + i < 2 ^ 64) : (p + BitVec.ofNat 64 i).toNat = p.toNat + i := by
  rw [BitVec.toNat_add, BitVec.toNat_ofNat, Nat.mod_eq_of_lt (show i < 2 ^ 64 by omega),
    Nat.mod_eq_of_lt h]

theorem Ptr.add_succ (p : Ptr) (i : ℕ) : p + 1 + BitVec.ofNat 64 i = p + BitVec.ofNat 64 (i + 1) := by
  rw [BitVec.add_assoc, BitVec.add_comm 1, ← BitVec.ofNat_add_ofNat]
  rfl

theorem Ptr.sub_one (p : Ptr) (i : ℕ) : p + BitVec.ofNat 64 (i + 1) - 1 = p + BitVec.ofNat 64 i := by
  rw [← BitVec.ofNat_add_ofNat, ← BitVec.add_assoc]
  exact BitVec.add_sub_cancel _ _

theorem Ptr.ne_of (h : p.toNat + i < 2 ^ 64) (hne : a.toNat ≠ p.toNat + i) :
    a ≠ p + BitVec.ofNat 64 i := fun e => hne (e ▸ Ptr.toNat_add h)

theorem Ptr.setWidth_eq (n : BitVec 32) : n.setWidth 64 = BitVec.ofNat 64 n.toNat := by
  refine BitVec.eq_of_toNat_eq ?_
  rw [BitVec.toNat_setWidth, BitVec.toNat_ofNat]

theorem Moved.unique {m m1 m2 : Ram} {dst src : Ptr} {n : ℕ} (h1 : Moved m dst src n m1)
    (h2 : Moved m dst src n m2) : m1 = m2 := by
  funext a
  by_cases ha : a.toNat < dst.toNat ∨ dst.toNat + n ≤ a.toNat
  · rw [h1.other a ha, h2.other a ha]
  · have e : a = dst + BitVec.ofNat 64 (a.toNat - dst.toNat) := by
      have := a.isLt
      refine BitVec.eq_of_toNat_eq ?_
      rw [Ptr.toNat_add (by omega)]
      omega
    rw [e, h1.moved _ (by omega), h2.moved _ (by omega)]

end

/-! ## The two loops -/

/-- **upwards**: the bytes of the source that are still to be read are not written before -/
theorem copyUp_moved (n : ℕ) (m : Ram) (d s : Ptr) (hd : d.toNat + n ≤ 2 ^ 64)
    (hs : s.toNat + n ≤ 2 ^ 64) (hsafe : d.toNat ≤ s.toNat ∨ s.toNat + n ≤ d.toNat) :
    Moved m d s n (copyUp n m d s) := by
  induction n generalizing m d s with
  | zero => exact ⟨nofun, fun _ _ => rfl⟩
  | succ n ih =>
    rcases Nat.eq_zero_or_pos n with rfl | hn
    · refine ⟨fun i hi => ?_, fun a ha => ?_⟩
      · obtain rfl : i = 0 := by omega
        rw [BitVec.add_zero, BitVec.add_zero]
        exact Function.update_self ..
      · exact Function.update_of_ne (fun e => by rw [e] at ha; omega) _ _
    have hd1 : (d + 1).toNat = d.toNat + 1 := Ptr.toNat_add (i := 1) (by omega)
    have hs1 : (s + 1).toNat = s.toNat + 1 := Ptr.toNat_add (i := 1) (by omega)
    have hrest := ih (Function.update m d (m s)) (d + 1) (s + 1) (by omega) (by omega) (by omega)
    refine ⟨fun i hi => ?_, fun a ha => ?_⟩
    · cases i with
      | zero =>
        rw [BitVec.add_zero, BitVec.add_zero]
        exact (hrest.other d (.inl (by omega))).trans (Function.update_self ..)
      | succ i =>
        rw [← Ptr.add_succ, ← Ptr.add_succ]
        refine (hrest.moved i (by omega)).trans (Function.update_of_ne ?_ _ _)
        rw [Ptr.add_succ]
        exact (Ptr.ne_of (by omega) (by omega)).symm
    · refine (hrest.other a (by omega)).trans (Function.update_of_ne ?_ _ _)
      intro e
      rw [e] at ha
      omega

/-- **downwards**: the same, from the other end -/
theorem copyDown_moved (n : ℕ) (m : Ram) (d s : Ptr) (hd : d.toNat + n ≤ 2 ^ 64)
    (hs : s.toNat + n ≤ 2 ^ 64) (hsafe : s.toNat ≤ d.toNat ∨ d.toNat + n ≤ s.toNat) :
    Moved m d s n (copyDown n m (d + BitVec.ofNat 64 n) (s + BitVec.ofNat 64 n)) := by
  induction n generalizing m with
  | zero => exact ⟨nofun, fun _ _ => rfl⟩
  | succ n ih =>
    rw [copyDown, Ptr.sub_one, Ptr.sub_one]
    have hrest := ih (Function.update m (d + BitVec.ofNat 64 n) (m (s + BitVec.ofNat 64 n)))
      (by omega) (by omega) (by omega)
    have hdn : (d + BitVec.ofNat 64 n).toNat = d.toNat + n := Ptr.toNat_add (by omega)
    refine ⟨fun i hi => ?_, fun a ha => ?_⟩
    · rcases Nat.lt_succ_iff_lt_or_eq.1 hi with hi | rfl
      · refine (hrest.moved i hi).trans (Function.update_of_ne ?_ _ _)
        refine Ptr.ne_of (by omega) ?_
        rw [Ptr.toNat_add (by omega)]
        omega
      · exact (hrest.other _ (.inr (by omega))).trans (Function.update_self ..)
    · refine (hrest.other a (by omega)).trans (Function.update_of_ne ?_ _ _)
      exact Ptr.ne_of (by omega) (by omega)

/-! ## The two functions -/

section
variable {m : Ram} {dst src : Ptr} {n : BitVec 32}

theorem Kstring.memmove_moved (hd : dst.toNat + n.toNat ≤ 2 ^ 64) (hs : src.toNat + n.toNat ≤ 2 ^ 64) :
    Moved m dst src n.toNat (Kstring.memmove m dst src n).2 := by
  unfold Kstring.memmove
  split
  · rename_i h0
    subst h0
    exact ⟨nofun, fun _ _ => rfl⟩
  · have hw := Ptr.setWidth_eq n
    split
    · rename_i hback
      have hlt : src.toNat < dst.toNat := hback.1
      rw [hw]
      exact copyDown_moved n.toNat m dst src hd hs (.inl (by omega))
    · rename_i hup
      refine copyUp_moved n.toNat m dst src hd hs ?_
      -- below the destination, the source ends before it starts, and its end does not wrap
      by_contra hno
      rw [not_or, not_le, not_le] at hno
      refine hup ⟨hno.1, ?_⟩
      show dst.toNat < (src + n.setWidth 64).toNat
      rw [hw, Ptr.toNat_add (by omega)]
      omega

theorem Ulib.memmove_moved (hn : 0 ≤ n.toInt) (hd : dst.toNat + n.toNat ≤ 2 ^ 64)
    (hs : src.toNat + n.toNat ≤ 2 ^ 64) :
    Moved m dst src n.toNat (Ulib.memmove m dst src n).2 := by
  have hmsb : n.msb = false := by
    rw [BitVec.msb_eq_toInt, decide_eq_false_iff_not]
    omega
  have hcount : n.toInt.toNat = n.toNat := by rw [BitVec.toInt_eq_toNat_of_msb hmsb, Int.toNat_natCast]
  have hw : n.signExtend 64 = BitVec.ofNat 64 n.toNat := by
    rw [BitVec.signExtend_eq_setWidth_of_msb_false hmsb, Ptr.setWidth_eq]
  unfold Ulib.memmove
  rw [hcount, hw]
  split
  · rename_i hup
    have hlt : dst.toNat < src.toNat := hup
    exact copyUp_moved n.toNat m dst src hd hs (.inl (by omega))
  · rename_i hdown
    have hle : ¬ dst.toNat < src.toNat := hdown
    exact copyDown_moved n.toNat m dst src hd hs (.inl (by omega))

end

/-- **`memmove` is a copy that is safe for overlapping ranges**, in the kernel and in the user library,
and the two agree -/
theorem memmove_overlap_safe (m : Ram) (dst src : Ptr) (n : BitVec 32)
    (hd : dst.toNat + n.toNat ≤ 2 ^ 64) (hs : src.toNat + n.toNat ≤ 2 ^ 64) :
    Moved m dst src n.toNat (Kstring.memmove m dst src n).2 ∧
      (0 ≤ n.toInt → Moved m dst src n.toNat (Ulib.memmove m dst src n).2 ∧
        Ulib.memmove m dst src n = Kstring.memmove m dst src n) := by
  have hk := Kstring.memmove_moved (m := m) hd hs
  refine ⟨hk, fun hn => ?_⟩
  have hu := Ulib.memmove_moved (m := m) hn hd hs
  refine ⟨hu, Prod.ext ?_ (hu.unique hk)⟩
  unfold Ulib.memmove Kstring.memmove
  split <;> split <;> try split
  all_goals rfl

theorem memmove_overlap_safe_sample :
    Moved (fun a => a.setWidth 8) 5 4 3 (Kstring.memmove (fun a => a.setWidth 8) 5 4 3).2 ∧
      Ulib.memmove (fun a => a.setWidth 8) 5 4 3 = Kstring.memmove (fun a => a.setWidth 8) 5 4 3 := by
  obtain ⟨h1, h2⟩ := memmove_overlap_safe (fun a => a.setWidth 8) 5 4 3 (by decide) (by decide)
  exact ⟨h1, (h2 (by decide)).2⟩

end Xv6
