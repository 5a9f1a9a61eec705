import Xv6.Kernel.Copy

/-!
# The disk: `fs.h`, `param.h` and the log header of `log.c`

* `Block`   a disk block, byte by byte, with its `int`s (`Block.int`, `Block.setInt`);
* `Superblock`  where `mkfs` has put the log (`mkfsSuperblock`);
* `LogHeader`   `struct logheader`, with its form on disk: `LogHeader.store` is what `write_head` puts
  into the header block, `LogHeader.load` what `read_head` takes out of it.
-/

namespace Xv6

def BSIZE : Nat := 1024
def ROOTDEV : Nat := 1
def FSSIZE : Nat := 2000
def MAXOPBLOCKS : Nat := 10
def LOGSIZE : Nat := MAXOPBLOCKS * 3
def NBUF : Nat := MAXOPBLOCKS * 3

/-! ## blocks -/

/-- the bytes of a block; those from `BSIZE` on are not used -/
abbrev Block := Nat → Byte

/-- the `int` with index `i` -/
def Block.int (x : Block) (i : Nat) : CInt :=
  x (4 * i + 3) ++ x (4 * i + 2) ++ x (4 * i + 1) ++ x (4 * i)

def Block.setInt (x : Block) (i : Nat) (v : CInt) : Block := fun o =>
  if o / 4 = i then v.extractLsb' (8 * (o % 4)) 8 else x o

@[simp] theorem Block.int_setInt (x : Block) (i : Nat) (v : CInt) : (x.setInt i v).int i = v := by
  have h : ∀ k < 4, (x.setInt i v) (4 * i + k) = v.extractLsb' (8 * k) 8 := by
    intro k hk
    unfold Block.setInt
    rw [if_pos (by omega), show (4 * i + k) % 4 = k by omega]
  unfold Block.int
  rw [h 3 (by omega), h 2 (by omega), h 1 (by omega), ← Nat.add_zero (4 * i), h 0 (by omega)]
  exact le32_join v

theorem Block.int_setInt_ne (x : Block) {i j : Nat} (v : CInt) (h : j ≠ i) :
    (x.setInt i v).int j = x.int j := by
  have h : ∀ k < 4, (x.setInt i v) (4 * j + k) = x (4 * j + k) := by
    intro k hk
    unfold Block.setInt
    rw [if_neg (by omega)]
  unfold Block.int
  rw [h 3 (by omega), h 2 (by omega), h 1 (by omega), ← Nat.add_zero (4 * j), h 0 (by omega)]

/-! ## the super block -/

/-- the fields of `struct superblock` that the log and the block layer use -/
structure Superblock where
  size : Nat
  nlog : Nat
  logstart : Nat

/-- `main` of `mkfs.c`: `nlog = LOGSIZE`, `logstart = 2`, `size = FSSIZE` -/
def mkfsSuperblock : Superblock := ⟨FSSIZE, LOGSIZE, 2⟩

/-- block `b` belongs to the log: its header or one of its data blocks -/
def Superblock.InLog (sb : Superblock) (b : Nat) : Prop :=
  sb.logstart ≤ b ∧ b < sb.logstart + sb.nlog

instance (sb : Superblock) (b : Nat) : Decidable (sb.InLog b) := inferInstanceAs (Decidable (_ ∧ _))

/-- the other blocks of the disk, which are the home of something; the sector number of a block is
computed in 32 bits (`virtio_disk_rw`), so there are no more than `2 ^ 31` of them -/
def Superblock.Home (sb : Superblock) (b : Nat) : Prop :=
  b < sb.size ∧ b < 2 ^ 31 ∧ ¬ sb.InLog b

instance (sb : Superblock) (b : Nat) : Decidable (sb.Home b) :=
  inferInstanceAs (Decidable (_ ∧ _ ∧ ¬ _))

/-! ## the log header -/

/-- `struct logheader`; a negative `n`, which ends every loop at once, counts as 0 -/
structure LogHeader where
  n : Nat
  block : Nat → Nat

namespace LogHeader

/-- the blocks listed -/
def blocks (lh : LogHeader) : List Nat := (List.range lh.n).map lh.block

/-- `write_head`: the header in the header block, over what is in the buffer -/
def store (lh : LogHeader) (x : Block) : Block :=
  (List.range lh.n).foldl (fun x i => x.setInt (i + 1) (.ofNat 32 (lh.block i)))
    (x.setInt 0 (.ofNat 32 lh.n))

/-- `read_head`: the header from the header block, over what is in memory -/
def load (lh : LogHeader) (x : Block) : LogHeader :=
  let n := (x.int 0).toInt.toNat
  ⟨n, fun i => if i < n then (x.int (i + 1)).toNat else lh.block i⟩

/-- `log.lh.n = 0` -/
def clear (lh : LogHeader) : LogHeader := { lh with n := 0 }

theorem foldl_setInt_int (f : Nat → CInt) (m : Nat) (x : Block) (i : Nat) :
    ((List.range m).foldl (fun x i => x.setInt (i + 1) (f i)) x).int i
      = if 1 ≤ i ∧ i ≤ m then f (i - 1) else x.int i := by
  induction m with
  | zero => rw [if_neg (by omega)]; rfl
  | succ m ih =>
    rw [List.range_succ, List.foldl_append, List.foldl_cons, List.foldl_nil]
    by_cases hi : i = m + 1
    · subst hi
      rw [Block.int_setInt, if_pos (by omega)]
      rfl
    · rw [Block.int_setInt_ne _ _ hi, ih]
      by_cases h : 1 ≤ i ∧ i ≤ m
      · rw [if_pos h, if_pos (by omega)]
      · rw [if_neg h, if_neg (by omega)]

theorem store_int_zero (lh : LogHeader) (x : Block) : (lh.store x).int 0 = .ofNat 32 lh.n := by
  unfold store
  rw [foldl_setInt_int, if_neg (by omega), Block.int_setInt]

theorem store_int_succ (lh : LogHeader) (x : Block) {i : Nat} (h : i < lh.n) :
    (lh.store x).int (i + 1) = .ofNat 32 (lh.block i) := by
  unfold store
  rw [foldl_setInt_int, if_pos (by omega)]
  rfl

theorem load_store (lh old : LogHeader) (x : Block) (hn : lh.n < 2 ^ 31)
    (hb : ∀ i < lh.n, lh.block i < 2 ^ 32) :
    (old.load (lh.store x)).n = lh.n ∧ (old.load (lh.store x)).blocks = lh.blocks := by
  have h0 : (old.load (lh.store x)).n = lh.n := by
    show ((lh.store x).int 0).toInt.toNat = lh.n
    have hmod : (BitVec.ofNat 32 lh.n).toNat = lh.n := by
      rw [BitVec.toNat_ofNat]
      exact Nat.mod_eq_of_lt (by omega)
    rw [store_int_zero, BitVec.toInt_eq_toNat_of_lt (by omega), hmod]
    rfl
  refine ⟨h0, ?_⟩
  unfold blocks
  rw [h0]
  refine List.map_congr_left fun i hi => ?_
  have hi' : i < lh.n := List.mem_range.mp hi
  show (if i < (old.load (lh.store x)).n then ((lh.store x).int (i + 1)).toNat else _) = _
  rw [h0, if_pos hi', store_int_succ lh x hi', BitVec.toNat_ofNat]
  exact Nat.mod_eq_of_lt (hb i hi')

end LogHeader

end Xv6
