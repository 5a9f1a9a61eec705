import Xv6.Fs.Inode

/-!
# The layout of a file system on the disk

[ boot block | super block | log | inode blocks | free bit map | data blocks ]

* `FsSuper.Ok`   the super block describes such a layout;
* `Block.bit_setBit`, `Block.bit_clearBit`, `Dinode.load_store`   bits and dinodes in a block;
* `FsSuper.used`, `FsSuper.dinode`   a bit of the free map, a dinode of the inode blocks, and which
  writes change them;
* `slot`   the 269 block addresses of an inode: direct, indirect, and those in the
  indirect block;
* `Owns`   the nonzero slots of an inode are exactly the blocks it owns, without
  repetition;
* `Covers`   every index below the size has a block;
* `content`   the bytes of a file.
-/

namespace Xv6
open Function (update_self update_of_ne update)

/-! ## Bits and dinodes in a block -/

theorem Block.bit_setBit (x : Block) (i j : ℕ) :
    (x.setBit i).bit j = (decide (i = j) || x.bit j) := by
  unfold Block.setBit Block.bit
  by_cases h : i / 8 = j / 8
  · rw [← h, update_self, BitVec.getLsbD_or, BitVec.getLsbD_shiftLeft, BitVec.getLsbD_one]
    by_cases hij : i = j
    · subst hij
      have : i % 8 < 8 := Nat.mod_lt _ (by decide)
      simp [this]
    · have : ¬ (i % 8 = j % 8) := by omega
      have : ¬ (i % 8 ≤ j % 8 ∧ j % 8 - i % 8 = 0) := by omega
      simp only [hij, decide_false, Bool.false_or]
      by_cases h1 : j % 8 < i % 8
      · simp [h1]
      · have : ¬ (j % 8 - i % 8 = 0) := by omega
        simp [this]
  · rw [update_of_ne (Ne.symm h), decide_eq_false (fun e : i = j => h (e ▸ rfl)),
      Bool.false_or]

theorem Block.bit_clearBit (x : Block) (i j : ℕ) :
    (x.clearBit i).bit j = (!decide (i = j) && x.bit j) := by
  unfold Block.clearBit Block.bit
  by_cases h : i / 8 = j / 8
  · rw [← h, update_self, BitVec.getLsbD_and, BitVec.getLsbD_not, BitVec.getLsbD_shiftLeft,
      BitVec.getLsbD_one]
    have hj : j % 8 < 8 := Nat.mod_lt _ (by decide)
    by_cases hij : i = j
    · subst hij
      simp [hj]
    · have : ¬ (i % 8 = j % 8) := by omega
      simp only [hij, decide_false, Bool.not_false, Bool.true_and, hj, decide_true]
      by_cases h1 : j % 8 < i % 8
      · simp [h1]
      · have : ¬ (j % 8 - i % 8 = 0) := by omega
        simp [this]
  · rw [update_of_ne (Ne.symm h), decide_eq_false (fun e : i = j => h (e ▸ rfl)),
      Bool.not_false, Bool.true_and]

theorem le16_join (x : BitVec 16) : x.extractLsb' 8 8 ++ x.extractLsb' 0 8 = x := by
  ext i hi
  simp only [BitVec.getElem_append, BitVec.getElem_extractLsb']
  grind

namespace Dinode

theorem store_at (d : Dinode) (x : Block) (i o : ℕ) (h : o < 64) :
    d.store x i (64 * i + o) = d.byte o := by
  unfold store
  rw [if_pos (by omega)]
  congr 1
  omega

theorem store_ne (d : Dinode) (x : Block) {i j : ℕ} (h : j ≠ i) {o : ℕ} (ho : o < 64) :
    d.store x i (64 * j + o) = x (64 * j + o) := by
  unfold store
  rw [if_neg (by omega)]

theorem byte_addr (d : Dinode) (j : Fin (NDIRECT + 1)) {k : ℕ} (hk : k < 4) :
    d.byte (12 + 4 * j + k) = (d.addrs j).extractLsb' (8 * k) 8 := by
  have e1 : (12 + 4 * j + k - 12) / 4 = j.val := by omega
  have e2 : (12 + 4 * j.val + k - 12) % 4 = k := by omega
  unfold byte
  rw [if_neg (by omega), if_neg (by omega), if_neg (by omega), if_neg (by omega), if_neg (by omega),
    dif_pos (by rw [e1]; exact j.isLt), e2]
  congr 2
  exact Fin.ext e1

theorem load_store (d : Dinode) (x : Block) (i : ℕ) : load (d.store x i) i = d := by
  have at_ : ∀ o, o < 64 → d.store x i (64 * i + o) = d.byte o := d.store_at x i
  have at0 := at_ 0 (by decide)
  rw [Nat.add_zero] at at0
  ext1
  · show d.store x i (64 * i + 1) ++ d.store x i (64 * i) = d.type
    rw [at_ 1 (by decide), at0]
    exact le16_join d.type
  · show d.store x i (64 * i + 3) ++ d.store x i (64 * i + 2) = d.major
    rw [at_ 3 (by decide), at_ 2 (by decide)]
    exact le16_join d.major
  · show d.store x i (64 * i + 5) ++ d.store x i (64 * i + 4) = d.minor
    rw [at_ 5 (by decide), at_ 4 (by decide)]
    exact le16_join d.minor
  · show d.store x i (64 * i + 7) ++ d.store x i (64 * i + 6) = d.nlink
    rw [at_ 7 (by decide), at_ 6 (by decide)]
    exact le16_join d.nlink
  · show d.store x i (64 * i + 11) ++ d.store x i (64 * i + 10) ++ d.store x i (64 * i + 9) ++
      d.store x i (64 * i + 8) = d.size
    rw [at_ 11 (by decide), at_ 10 (by decide), at_ 9 (by decide), at_ 8 (by decide)]
    exact le32_join d.size
  · funext j
    have hj : j.val ≤ 12 := Nat.le_of_lt_succ j.isLt
    have atj : ∀ k, k < 4 → d.store x i (64 * i + 4 * j + (12 + k)) = (d.addrs j).extractLsb' (8 * k) 8 := by
      intro k hk
      rw [show 64 * i + 4 * j.val + (12 + k) = 64 * i + (12 + 4 * j.val + k) by omega,
        at_ _ (by omega), byte_addr d j hk]
    show d.store x i (64 * i + 4 * j + (12 + 3)) ++ d.store x i (64 * i + 4 * j + (12 + 2)) ++
      d.store x i (64 * i + 4 * j + (12 + 1)) ++ d.store x i (64 * i + 4 * j + (12 + 0)) = d.addrs j
    rw [atj 3 (by decide), atj 2 (by decide), atj 1 (by decide), atj 0 (by decide)]
    exact le32_join (d.addrs j)

theorem load_congr {x y : Block} {i : ℕ} (h : ∀ o < 64, x (64 * i + o) = y (64 * i + o)) :
    load x i = load y i := by
  have h0 := h 0 (by decide)
  rw [Nat.add_zero] at h0
  unfold load
  rw [h0]
  congr 1
  · rw [h 1 (by decide)]
  · rw [h 3 (by decide), h 2 (by decide)]
  · rw [h 5 (by decide), h 4 (by decide)]
  · rw [h 7 (by decide), h 6 (by decide)]
  · rw [h 11 (by decide), h 10 (by decide), h 9 (by decide), h 8 (by decide)]
  · funext j
    have hj : j.val ≤ 12 := Nat.le_of_lt_succ j.isLt
    have hk : ∀ k, k < 16 → x (64 * i + 4 * j + k) = y (64 * i + 4 * j + k) := fun k hk => by
      rw [Nat.add_assoc]
      exact h _ (by omega)
    rw [hk 15 (by decide), hk 14 (by decide), hk 13 (by decide), hk 12 (by decide)]

theorem load_store_ne (d : Dinode) (x : Block) {i j : ℕ} (h : j ≠ i) :
    load (d.store x i) j = load x j :=
  load_congr fun _ ho => d.store_ne x h ho

end Dinode

/-! ## The regions of the disk -/

namespace FsSuper

/-- the number of blocks before the data blocks -/
def nmeta (sb : FsSuper) : ℕ := sb.bmapstart + (sb.size / BPB + 1)

/-- the inode blocks lie before the free map and the data blocks after it; inode numbers fit a
directory entry and block numbers an `int` -/
structure Ok (sb : FsSuper) : Prop where
  root : ROOTINO < sb.ninodes
  ninodes : sb.ninodes ≤ 2 ^ 16
  inodes : sb.inodestart + (sb.ninodes - 1) / IPB < sb.bmapstart
  nmeta : sb.nmeta ≤ sb.size
  size : sb.size < 2 ^ 31

/-- the bit of block `b` in the free map -/
def used (sb : FsSuper) (blk : ℕ → Block) (b : ℕ) : Bool := (blk (sb.BBLOCK b)).bit (b % BPB)

/-- the dinode with number `i` -/
def dinode (sb : FsSuper) (blk : ℕ → Block) (i : ℕ) : Dinode :=
  Dinode.load (blk (sb.IBLOCK i)) (i % IPB)

variable {sb : FsSuper}

theorem Ok.iblock_lt (h : sb.Ok) {i : ℕ} (hi : i < sb.ninodes) : sb.IBLOCK i < sb.bmapstart := by
  have h1 := h.inodes
  have h2 : i / IPB ≤ (sb.ninodes - 1) / IPB := Nat.div_le_div_right (by omega)
  unfold IBLOCK
  omega

theorem bblock_ge (sb : FsSuper) (b : ℕ) : sb.bmapstart ≤ sb.BBLOCK b := Nat.le_add_left ..

theorem bblock_lt (sb : FsSuper) {b : ℕ} (hb : b < sb.size) : sb.BBLOCK b < sb.nmeta := by
  have : b / BPB ≤ sb.size / BPB := Nat.div_le_div_right (by omega)
  unfold BBLOCK nmeta
  omega

theorem Ok.iblock_lt_nmeta (h : sb.Ok) {i : ℕ} (hi : i < sb.ninodes) : sb.IBLOCK i < sb.nmeta := by
  have := h.iblock_lt hi
  show sb.IBLOCK i < sb.bmapstart + (sb.size / BPB + 1)
  exact Nat.lt_add_right _ this

section writes
variable {blk : ℕ → Block} {x : Block}

theorem Ok.dinode_data (h : sb.Ok) {b i : ℕ} (hb : sb.nmeta ≤ b) (hi : i < sb.ninodes) :
    sb.dinode (update blk b x) i = sb.dinode blk i := by
  have := h.iblock_lt_nmeta hi
  unfold dinode
  rw [update_of_ne (by omega)]

theorem used_data {b c : ℕ} (hb : sb.nmeta ≤ b) (hc : c < sb.size) :
    sb.used (update blk b x) c = sb.used blk c := by
  have := sb.bblock_lt hc
  unfold used
  rw [update_of_ne (by omega)]

theorem dinode_store (d : Dinode) (i j : ℕ) :
    sb.dinode (update blk (sb.IBLOCK i) (d.store (blk (sb.IBLOCK i)) (i % IPB))) j =
      if j = i then d else sb.dinode blk j := by
  unfold dinode
  split
  · subst j
    rw [update_self, Dinode.load_store]
  · rename_i hne
    by_cases hb : sb.IBLOCK j = sb.IBLOCK i
    · rw [hb, update_self, Dinode.load_store_ne]
      unfold IBLOCK at hb
      intro he
      apply hne
      rw [← Nat.div_add_mod j IPB, ← Nat.div_add_mod i IPB, he, Nat.add_right_cancel hb]
    · rw [update_of_ne hb]

theorem Ok.used_inode (h : sb.Ok) {i : ℕ} (hi : i < sb.ninodes) (c : ℕ) :
    sb.used (update blk (sb.IBLOCK i) x) c = sb.used blk c := by
  have := h.iblock_lt hi
  have := sb.bblock_ge c
  unfold used
  rw [update_of_ne (by omega)]

theorem Ok.dinode_bitmap (h : sb.Ok) {i : ℕ} (hi : i < sb.ninodes) (b : ℕ) :
    sb.dinode (update blk (sb.BBLOCK b) x) i = sb.dinode blk i := by
  have := h.iblock_lt hi
  have := sb.bblock_ge b
  unfold dinode
  rw [update_of_ne (by omega)]

/-- a write to a bitmap block that changes the bit of `b` to `v` -/
theorem used_bitmap {b : ℕ} {v : Bool} (h : ∀ j, x.bit j = if j = b % BPB then v
    else (blk (sb.BBLOCK b)).bit j) (c : ℕ) :
    sb.used (update blk (sb.BBLOCK b) x) c = if c = b then v else sb.used blk c := by
  unfold used
  by_cases hb : sb.BBLOCK c = sb.BBLOCK b
  · rw [hb, update_self, h]
    have e : c % BPB = b % BPB ↔ c = b := by
      unfold BBLOCK at hb
      refine ⟨fun he => ?_, fun he => by rw [he]⟩
      rw [← Nat.div_add_mod c BPB, ← Nat.div_add_mod b BPB, he, Nat.add_right_cancel hb]
    simp only [e]
  · rw [update_of_ne hb, if_neg (fun e : c = b => hb (e ▸ rfl))]

theorem used_setBit (b c : ℕ) :
    sb.used (update blk (sb.BBLOCK b) ((blk (sb.BBLOCK b)).setBit (b % BPB))) c =
      if c = b then true else sb.used blk c := by
  refine used_bitmap (fun j => ?_) c
  rw [Block.bit_setBit]
  split
  · subst j
    simp
  · rw [decide_eq_false (fun e : b % BPB = j => ‹¬ j = b % BPB› e.symm), Bool.false_or]

theorem used_clearBit (b c : ℕ) :
    sb.used (update blk (sb.BBLOCK b) ((blk (sb.BBLOCK b)).clearBit (b % BPB))) c =
      if c = b then false else sb.used blk c := by
  refine used_bitmap (fun j => ?_) c
  rw [Block.bit_clearBit]
  split
  · subst j
    simp
  · rw [decide_eq_false (fun e : b % BPB = j => ‹¬ j = b % BPB› e.symm), Bool.not_false, Bool.true_and]

end writes

end FsSuper

/-! ## The blocks of an inode -/

/-- how many block addresses an inode has: direct, indirect, and those in the indirect block -/
def NSLOT : ℕ := NDIRECT + 1 + NINDIRECT

/-- the slot of block `bn` of the file -/
def fileSlot (bn : ℕ) : ℕ := if bn < NDIRECT then bn else bn + 1

theorem fileSlot_lt {bn : ℕ} (h : bn < MAXFILE) : fileSlot bn < NSLOT := by
  unfold fileSlot NSLOT
  unfold MAXFILE at h
  split <;> omega

theorem fileSlot_inj {a b : ℕ} (h : fileSlot a = fileSlot b) : a = b := by
  unfold fileSlot at h
  split at h <;> split at h <;> omega

theorem fileSlot_ne (bn : ℕ) : fileSlot bn ≠ NDIRECT := by
  unfold fileSlot
  split <;> omega

namespace Dinode

/-- the block address in slot `n` -/
def slot (d : Dinode) (blk : ℕ → Block) (n : ℕ) : ℕ :=
  if n ≤ NDIRECT then d.addr n
  else if d.addr NDIRECT = 0 then 0
  else ((blk (d.addr NDIRECT)).int (n - (NDIRECT + 1))).toNat

/-- of the slots in `live`, the nonzero ones are exactly the blocks in `mine`, without repetition -/
structure Owns (d : Dinode) (blk : ℕ → Block) (live mine : ℕ → Prop) : Prop where
  mem : ∀ n, live n → d.slot blk n ≠ 0 → mine (d.slot blk n)
  inj : ∀ m n, live m → live n → d.slot blk m ≠ 0 → d.slot blk m = d.slot blk n → m = n
  all : ∀ b, mine b → b ≠ 0 ∧ ∃ n, live n ∧ d.slot blk n = b

/-- the size is in range, and every index below it has a block -/
structure Covers (d : Dinode) (blk : ℕ → Block) : Prop where
  size : d.size.toNat ≤ MAXFILE * BSIZE
  slot : ∀ bn, bn * BSIZE < d.size.toNat → d.slot blk (fileSlot bn) ≠ 0

/-- the byte at offset `o` of the file -/
def content (d : Dinode) (blk : ℕ → Block) (o : ℕ) : Byte :=
  blk (d.slot blk (fileSlot (o / BSIZE))) (o % BSIZE)

/-- the inode number in entry `n` of a directory -/
def entryInum (d : Dinode) (blk : ℕ → Block) (n : ℕ) : BitVec 16 :=
  d.content blk (16 * n + 1) ++ d.content blk (16 * n)

/-- a directory is made of whole entries, which name inodes below `ninodes` -/
def DirOk (d : Dinode) (blk : ℕ → Block) (ninodes : ℕ) : Prop :=
  d.type = T_DIR → d.size.toNat % 16 = 0 ∧
    ∀ n, 16 * n < d.size.toNat → (d.entryInum blk n).toNat < ninodes

/-- no blocks and size 0 -/
structure Bare (d : Dinode) : Prop where
  size : d.size = 0
  addr : ∀ i, d.addr i = 0

variable {d : Dinode} {blk blk' : ℕ → Block} {live mine : ℕ → Prop}

theorem slot_direct {n : ℕ} (h : n ≤ NDIRECT) : d.slot blk n = d.addr n := if_pos h

theorem slot_indirect {n : ℕ} (h : NDIRECT < n) (hz : d.addr NDIRECT ≠ 0) :
    d.slot blk n = ((blk (d.addr NDIRECT)).int (n - (NDIRECT + 1))).toNat := by
  unfold slot
  rw [if_neg (by omega), if_neg hz]

theorem slot_indirect_zero {n : ℕ} (h : NDIRECT < n) (hz : d.addr NDIRECT = 0) :
    d.slot blk n = 0 := by
  unfold slot
  rw [if_neg (by omega), if_pos hz]

/-- the slots depend on the addresses and on the indirect block only -/
theorem slot_congr {d' : Dinode} (ha : ∀ i, d'.addr i = d.addr i)
    (hb : d.addr NDIRECT ≠ 0 → blk' (d.addr NDIRECT) = blk (d.addr NDIRECT)) (n : ℕ) :
    d'.slot blk' n = d.slot blk n := by
  unfold slot
  rw [ha, ha]
  split
  · rfl
  · split
    · rfl
    · rename_i h
      rw [hb h]

theorem addr_setAddr {i j a : ℕ} (hj : j ≤ NDIRECT) (ha : a < 2 ^ 32) :
    (d.setAddr j a).addr i = if i = j then a else d.addr i := by
  unfold addr setAddr
  by_cases hi : i < NDIRECT + 1
  · rw [dif_pos hi, dif_pos hi]
    dsimp only
    split
    · exact Nat.mod_eq_of_lt ha
    · rfl
  · rw [dif_neg hi, dif_neg hi, if_neg (by omega)]

theorem zero_int (i : ℕ) : (Block.int (fun _ => 0) i).toNat = 0 := by
  show ((0#8 ++ 0#8 ++ 0#8 ++ 0#8 : BitVec 32)).toNat = 0
  decide

/-- an empty direct slot, or the empty indirect one, gets a block of zeros -/
theorem slot_setAddr {j a n : ℕ} (hj : j ≤ NDIRECT) (ha : a < 2 ^ 32) (h0 : d.addr j = 0)
    (hz : j = NDIRECT → blk' a = fun _ => 0)
    (hb : d.addr NDIRECT ≠ 0 → blk' (d.addr NDIRECT) = blk (d.addr NDIRECT)) :
    (d.setAddr j a).slot blk' n = if n = j then a else d.slot blk n := by
  by_cases hn : n ≤ NDIRECT
  · rw [slot_direct hn, slot_direct hn, addr_setAddr hj ha]
  · rw [if_neg (by omega)]
    have e := addr_setAddr (d := d) (i := NDIRECT) hj ha
    by_cases hjn : NDIRECT = j
    · rw [if_pos hjn] at e
      rw [@slot_indirect_zero _ blk _ (by omega) (hjn ▸ h0)]
      by_cases ha0 : a = 0
      · exact slot_indirect_zero (by omega) (e.trans ha0)
      · rw [slot_indirect (by omega) (by rw [e]; exact ha0), e, hz hjn.symm, zero_int]
    · rw [if_neg hjn] at e
      unfold slot
      rw [if_neg hn, if_neg hn, e]
      split
      · rfl
      · rename_i h
        rw [hb h]

theorem slot_setInt {j a n : ℕ} (ha : a < 2 ^ 32) (h0 : d.addr NDIRECT ≠ 0)
    (hb : blk' (d.addr NDIRECT) = (blk (d.addr NDIRECT)).setInt j (BitVec.ofNat 32 a)) :
    d.slot blk' n = if n = NDIRECT + 1 + j then a else d.slot blk n := by
  by_cases hn : n ≤ NDIRECT
  · rw [slot_direct hn, slot_direct hn, if_neg (by omega)]
  · rw [slot_indirect (by omega) h0, slot_indirect (by omega) h0, hb]
    by_cases hnj : n = NDIRECT + 1 + j
    · rw [if_pos hnj, hnj, Nat.add_sub_cancel_left, Block.int_setInt]
      exact Nat.mod_eq_of_lt ha
    · rw [if_neg hnj, Block.int_setInt_ne _ _ (by omega)]

theorem Bare.slot (h : d.Bare) (n : ℕ) : d.slot blk n = 0 := by
  by_cases hn : n ≤ NDIRECT
  · rw [slot_direct hn, h.addr]
  · exact slot_indirect_zero (by omega) (h.addr _)

theorem Owns.indirect (h : d.Owns blk (· < NSLOT) mine) (hz : d.addr NDIRECT ≠ 0) :
    mine (d.addr NDIRECT) := by
  have := h.mem NDIRECT (by decide)
  rw [slot_direct (Nat.le_refl _)] at this
  exact this hz

theorem Owns.congr {d' : Dinode} {live' mine' : ℕ → Prop} (h : d.Owns blk live mine)
    (hm : ∀ b, mine' b ↔ mine b)
    (h1 : ∀ n, live n → d.slot blk n ≠ 0 → live' n ∧ d'.slot blk' n = d.slot blk n)
    (h2 : ∀ n, live' n → d'.slot blk' n ≠ 0 → live n ∧ d.slot blk n = d'.slot blk' n) :
    d'.Owns blk' live' mine' := by
  refine ⟨fun n hn hz => ?_, fun m n hm hn hz he => ?_, fun b hb => ?_⟩
  · obtain ⟨hl, e⟩ := h2 n hn hz
    rw [hm, ← e]
    exact h.mem n hl (e ▸ hz)
  · obtain ⟨hlm, em⟩ := h2 m hm hz
    obtain ⟨hln, en⟩ := h2 n hn (he ▸ hz)
    exact h.inj m n hlm hln (em ▸ hz) (by rw [em, en, he])
  · obtain ⟨hb0, n, hn, e⟩ := h.all b ((hm b).1 hb)
    obtain ⟨hl, e'⟩ := h1 n hn (e ▸ hb0)
    exact ⟨hb0, n, hl, e'.trans e⟩

theorem Owns.insert {d' : Dinode} {mine' : ℕ → Prop} {n b : ℕ} (h : d.Owns blk live mine)
    (hn : live n) (hz : d.slot blk n = 0) (hb : b ≠ 0) (hnot : ¬ mine b)
    (hm : ∀ c, mine' c ↔ c = b ∨ mine c)
    (hs : ∀ m, live m → d'.slot blk' m = if m = n then b else d.slot blk m) :
    d'.Owns blk' live mine' := by
  refine ⟨fun m hl hz' => ?_, fun m l hlm hll hz' he => ?_, fun c hc => ?_⟩
  · rw [hs m hl] at hz' ⊢
    split at hz'
    · rw [if_pos ‹_›]
      exact (hm b).2 (.inl rfl)
    · rw [if_neg ‹_›]
      exact (hm _).2 (.inr (h.mem m hl hz'))
  · rw [hs m hlm] at hz' he
    rw [hs l hll] at he
    split at he <;> split at he
    · exact ‹m = n›.trans ‹l = n›.symm
    · exact absurd (he ▸ h.mem l hll (he ▸ hb)) hnot
    · rename_i hmn _
      rw [if_neg hmn] at hz'
      exact absurd (he ▸ h.mem m hlm hz') hnot
    · rename_i hmn _
      rw [if_neg hmn] at hz'
      exact h.inj m l hlm hll hz' he
  · rcases (hm c).1 hc with rfl | hc
    · exact ⟨hb, n, hn, by rw [hs n hn, if_pos rfl]⟩
    · obtain ⟨hc0, m, hl, e⟩ := h.all c hc
      refine ⟨hc0, m, hl, ?_⟩
      rw [hs m hl, if_neg (fun e' => hc0 (by rw [← e, e', hz])), e]

theorem Owns.remove {mine' : ℕ → Prop} {n : ℕ} (h : d.Owns blk live mine) (hn : live n)
    (hm : ∀ c, mine' c ↔ mine c ∧ c ≠ d.slot blk n) :
    d.Owns blk (fun m => live m ∧ m ≠ n) mine' := by
  refine ⟨fun m hl hz' => ?_, fun m l hlm hll hz' he => h.inj m l hlm.1 hll.1 hz' he,
    fun c hc => ?_⟩
  · exact (hm _).2 ⟨h.mem m hl.1 hz', fun e => hl.2 (h.inj m n hl.1 hn hz' e)⟩
  · obtain ⟨hc, hne⟩ := (hm c).1 hc
    obtain ⟨hc0, m, hl, e⟩ := h.all c hc
    exact ⟨hc0, m, ⟨hl, fun e' => hne (by rw [← e, e'])⟩, e⟩

theorem Bare.owns (h : d.Bare) (hm : ∀ b, ¬ mine b) : d.Owns blk live mine :=
  ⟨fun n _ hz => absurd (h.slot n) hz, fun m _ _ _ hz => absurd (h.slot m) hz,
    fun b hb => absurd hb (hm b)⟩

theorem Bare.covers (h : d.Bare) : d.Covers blk := by
  have hs : d.size.toNat = 0 := by rw [h.size]; rfl
  exact ⟨by omega, fun bn hb => by omega⟩

theorem Bare.dirOk (h : d.Bare) (n : ℕ) : d.DirOk blk n := by
  have hs : d.size.toNat = 0 := by rw [h.size]; rfl
  exact fun _ => ⟨by rw [hs], fun m hm => by omega⟩

theorem Bare.not_mine (h : d.Bare) (ho : d.Owns blk live mine) (b : ℕ) : ¬ mine b := fun hb => by
  obtain ⟨hb0, n, _, e⟩ := ho.all b hb
  exact hb0 (by rw [← e, h.slot])

end Dinode

end Xv6
