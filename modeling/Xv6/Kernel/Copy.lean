import Xv6.Kernel.Vm

/-!
# Copying between kernel and user memory: the copy loops of `vm.c`, and `string.c`

* `walkaddr`, `copyout`, `copyin`, `copyinstr`   page by page, as in `vm.c`;
* `safestrcpy`, `strlen`   on kernel buffers;
* `PageTable.load`   the byte a user address reads;
* `copyout_spec`   a copy to mapped memory writes its bytes and nothing else;
* `copyinstr_spec`   `copyinstr` succeeds exactly on a short mapped string;
* `safestrcpy_str`, `strlen_str`   a string that fits is kept.
-/

namespace Xv6
open Function (update update_of_ne update_self)

/-- `walkaddr`: the user page at `va`; a page at physical address 0 counts as not mapped -/
def walkaddr (pt : PageTable) (va : Nat) : Option Leaf :=
  if MAXVA ≤ va then none
  else
    match pt.leaf va with
    | none => none
    | some l => if l.flags &&& PTE_U = 0 ∨ l.pa = 0 then none else some l

/-- `memmove` of `src` into a page, from offset `off` on -/
def Page.write (pg : Page) (off : Nat) (src : List Byte) : Page := fun o =>
  if off ≤ o then (src[o - off]?).getD (pg o) else pg o

def Leaf.write (l : Leaf) (off : Nat) (src : List Byte) : Leaf :=
  { l with data := l.data.write off src }

/-- the loop of `copyout`; every turn copies at least one byte, so `src.length` turns are enough -/
def copyoutLoop : Nat → PageTable → Nat → List Byte → PageTable × Bool
  | 0, pt, _, _ => (pt, true)
  | f + 1, pt, dstva, src =>
    match src with
    | [] => (pt, true)
    | _ :: _ =>
      let va0 := pgrounddown dstva
      match walkaddr pt va0 with
      | none => (pt, false)
      | some l =>
        let n := min (PGSIZE - (dstva - va0)) src.length
        let l := l.write (dstva - va0) (src.take n)
        copyoutLoop f (pt.setLeaf va0 (some l)) ((va0 + PGSIZE) % 2 ^ 64) (src.drop n)

def copyout (pt : PageTable) (dstva : Nat) (src : List Byte) : PageTable × Bool :=
  copyoutLoop src.length pt dstva src

/-- the loop of `copyin`, to `dst` from index `i` on; `len` turns are enough -/
def copyinLoop (pt : PageTable) : Nat → (Nat → Byte) → Nat → Nat → Nat → (Nat → Byte) × Bool
  | 0, dst, _, _, _ => (dst, true)
  | f + 1, dst, i, srcva, len =>
    match len with
    | 0 => (dst, true)
    | _ + 1 =>
      let va0 := pgrounddown srcva
      match walkaddr pt va0 with
      | none => (dst, false)
      | some l =>
        let n := min (PGSIZE - (srcva - va0)) len
        let dst := fun j => if i ≤ j ∧ j < i + n then l.data (srcva - va0 + (j - i)) else dst j
        copyinLoop pt f dst (i + n) ((va0 + PGSIZE) % 2 ^ 64) (len - n)

def copyin (pt : PageTable) (dst : Nat → Byte) (srcva len : Nat) : (Nat → Byte) × Bool :=
  copyinLoop pt len dst 0 srcva len

/-- the inner loop of `copyinstr`: at most `n` bytes of one page, from offset `off` on, to `dst`
from index `i` on; the result tells if the NUL was copied -/
def copyinstrPage (pg : Page) : Nat → Nat → (Nat → Byte) → Nat → Bool × (Nat → Byte)
  | 0, _, dst, _ => (false, dst)
  | n + 1, off, dst, i =>
    if pg off = 0 then (true, Function.update dst i 0)
    else copyinstrPage pg n (off + 1) (Function.update dst i (pg off)) (i + 1)

def copyinstrLoop (pt : PageTable) : Nat → (Nat → Byte) → Nat → Nat → Nat → (Nat → Byte) × Bool
  | 0, dst, _, _, _ => (dst, false)
  | f + 1, dst, i, srcva, max =>
    match max with
    | 0 => (dst, false)
    | _ + 1 =>
      let va0 := pgrounddown srcva
      match walkaddr pt va0 with
      | none => (dst, false)
      | some l =>
        let n := min (PGSIZE - (srcva - va0)) max
        match copyinstrPage l.data n (srcva - va0) dst i with
        | (true, dst) => (dst, true)
        | (false, dst) => copyinstrLoop pt f dst (i + n) ((va0 + PGSIZE) % 2 ^ 64) (max - n)

/-- the buffer after the copy, and whether the NUL came within `max` bytes -/
def copyinstr (pt : PageTable) (dst : Nat → Byte) (srcva max : Nat) : (Nat → Byte) × Bool :=
  copyinstrLoop pt max dst 0 srcva max

/-- the loop of `safestrcpy`, with `n` bytes of room besides the one for the final NUL -/
def safestrcpyLoop (t : Nat → Byte) : Nat → Nat → (Nat → Byte) → Nat → Byte
  | 0, i, s => Function.update s i 0
  | n + 1, i, s =>
    if t i = 0 then Function.update (Function.update s i 0) (i + 1) 0
    else safestrcpyLoop t n (i + 1) (Function.update s i (t i))

def safestrcpy (s t : Nat → Byte) (n : Nat) : Nat → Byte :=
  match n with
  | 0 => s
  | n + 1 => safestrcpyLoop t n 0 s

def strlenLoop (s : Nat → Byte) : Nat → Nat → Nat
  | 0, n => n
  | f + 1, n => if s n = 0 then n else strlenLoop s f (n + 1)

/-- `strlen` of a buffer of `cap` bytes -/
def strlen (s : Nat → Byte) (cap : Nat) : Nat := strlenLoop s cap 0

/-- the first `n` bytes of a buffer -/
def bytes (s : Nat → Byte) (n : Nat) : List Byte := (List.range n).map s

/-- the buffer starts with the string `l` and its NUL -/
def BufStr (s : Nat → Byte) (l : List Byte) : Prop :=
  bytes s (l.length + 1) = l ++ [0] ∧ ∀ b ∈ l, b ≠ 0

/-- a C `int` as the four bytes in memory -/
def le32 (x : CInt) : List Byte :=
  [x.extractLsb' 0 8, x.extractLsb' 8 8, x.extractLsb' 16 8, x.extractLsb' 24 8]

namespace PageTable

/-- the byte at a user address, if a user page is mapped there -/
def load (pt : PageTable) (va : Nat) : Option Byte :=
  (walkaddr pt (pgrounddown va)).map fun l => l.data (va % PGSIZE)

/-- the `n` bytes from `va` on are mapped -/
def Mapped (pt : PageTable) (va n : Nat) : Prop := ∀ i < n, (pt.load (va + i)).isSome

/-- the bytes from `va` on -/
def Holds (pt : PageTable) (va : Nat) (bs : List Byte) : Prop :=
  ∀ i (h : i < bs.length), pt.load (va + i) = some bs[i]

/-- the `int` at `va` -/
def load32 (pt : PageTable) (va : Nat) : Option CInt :=
  match pt.load va, pt.load (va + 1), pt.load (va + 2), pt.load (va + 3) with
  | some b0, some b1, some b2, some b3 => some (b3 ++ b2 ++ b1 ++ b0)
  | _, _, _, _ => none

/-- a NUL-terminated string with the bytes `l` starts at `va`, and all of it is mapped -/
def StrAt (pt : PageTable) (va : Nat) (l : List Byte) : Prop :=
  pt.Holds va (l ++ [0]) ∧ ∀ b ∈ l, b ≠ 0

end PageTable

/-! ## addresses -/

theorem MAXVA_eq : MAXVA = 274877906944 := rfl

theorem pgrounddown_eq (a : Nat) : pgrounddown a = a / 4096 * 4096 := rfl

theorem px_page {a b : Nat} (ha : a < MAXVA) (hb : b < MAXVA) :
    (px 2 a = px 2 b ∧ px 1 a = px 1 b ∧ px 0 a = px 0 b) ↔ a / PGSIZE = b / PGSIZE := by
  rw [MAXVA_eq] at ha hb
  simp only [px, PGSIZE, Nat.reduceMul, Nat.reduceAdd, Nat.reducePow]
  omega

/-! ## reading and writing leaves -/

namespace PageTable

theorem leaf_setLeaf_same {pt : PageTable} {va : Nat} {l0 : Leaf} (h : pt.leaf va = some l0)
    (l : Option Leaf) : (pt.setLeaf va l).leaf va = l := by
  unfold leaf at h
  obtain ⟨t1, h1, h⟩ := Option.bind_eq_some_iff.mp h
  obtain ⟨t0, h0, h⟩ := Option.bind_eq_some_iff.mp h
  simp [setLeaf, leaf, h1, h0, Table.set]

theorem leaf_setLeaf_ne {pt : PageTable} {va a : Nat} (l : Option Leaf) (hva : va < MAXVA)
    (ha : a < MAXVA) (hne : a / PGSIZE ≠ va / PGSIZE) : (pt.setLeaf va l).leaf a = pt.leaf a := by
  unfold setLeaf
  split
  · rfl
  · rename_i t1 h1
    split
    · rfl
    · rename_i t0 h0
      unfold leaf
      by_cases e2 : px 2 a = px 2 va
      · by_cases e1 : px 1 a = px 1 va
        · have e0 : px 0 a ≠ px 0 va := fun e0 => hne ((px_page ha hva).mp ⟨e2, e1, e0⟩)
          simp [Table.set, e2, e1, e0, h1, h0]
        · simp [Table.set, e2, e1, h1]
      · simp [Table.set, e2]

theorem load_congr {pt pt' : PageTable} {a : Nat}
    (h : pt'.leaf (pgrounddown a) = pt.leaf (pgrounddown a)) : pt'.load a = pt.load a := by
  unfold load walkaddr
  rw [h]

end PageTable

theorem walkaddr_some {pt : PageTable} {va : Nat} {l : Leaf} (h : walkaddr pt va = some l) :
    va < MAXVA ∧ pt.leaf va = some l ∧ ¬ (l.flags &&& PTE_U = 0 ∨ l.pa = 0) := by
  unfold walkaddr at h
  split at h
  · cases h
  · rename_i hv
    split at h
    · cases h
    · rename_i l' hl
      split at h
      · cases h
      · rename_i hu
        cases h
        exact ⟨by omega, hl, hu⟩

theorem Page.write_get (pg : Page) (off : Nat) (src : List Byte) (o : Nat) :
    pg.write off src o = if off ≤ o then (src[o - off]?).getD (pg o) else pg o := rfl

theorem load_write {pt : PageTable} {va : Nat} {l : Leaf} (hl : walkaddr pt (pgrounddown va) = some l)
    (chunk : List Byte) (hc : va - pgrounddown va + chunk.length ≤ PGSIZE) (a : Nat) :
    (pt.setLeaf (pgrounddown va) (some (l.write (va - pgrounddown va) chunk))).load a
      = if va ≤ a then (chunk[a - va]?).or (pt.load a) else pt.load a := by
  obtain ⟨hv, hleaf, hu⟩ := walkaddr_some hl
  rw [pgrounddown_eq] at *
  unfold PGSIZE at *
  by_cases hp : a / 4096 = va / 4096
  · -- the page of the chunk
    have ea : pgrounddown a = va / 4096 * 4096 := by rw [pgrounddown_eq, hp]
    have h1 : walkaddr (pt.setLeaf (va / 4096 * 4096)
        (some (l.write (va - va / 4096 * 4096) chunk))) (va / 4096 * 4096)
        = some (l.write (va - va / 4096 * 4096) chunk) := by
      unfold walkaddr
      rw [if_neg (by omega), PageTable.leaf_setLeaf_same hleaf]
      simp only [Leaf.write, hu, ↓reduceIte]
    unfold PageTable.load
    rw [ea, h1, hl]
    simp only [Option.map_some, Leaf.write, Page.write_get, PGSIZE]
    by_cases hle : va ≤ a
    · have e1 : va - va / 4096 * 4096 ≤ a % 4096 := by omega
      have e2 : a % 4096 - (va - va / 4096 * 4096) = a - va := by omega
      rw [if_pos e1, if_pos hle, e2]
      cases chunk[a - va]? <;> rfl
    · have e1 : ¬ va - va / 4096 * 4096 ≤ a % 4096 := by omega
      rw [if_neg e1, if_neg hle]
  · -- another page: the chunk ends before it
    have hnone : va ≤ a → chunk[a - va]? = none := by
      intro hle
      rw [List.getElem?_eq_none_iff]
      omega
    have hsame : (pt.setLeaf (va / 4096 * 4096)
        (some (l.write (va - va / 4096 * 4096) chunk))).load a = pt.load a := by
      by_cases hm : a < MAXVA
      · apply PageTable.load_congr
        apply PageTable.leaf_setLeaf_ne _ hv
        · exact lt_of_le_of_lt (Nat.div_mul_le_self _ _) hm
        · rw [pgrounddown_eq]; unfold PGSIZE; omega
      · have hr : MAXVA ≤ pgrounddown a := by rw [pgrounddown_eq, MAXVA_eq] at *; omega
        unfold PageTable.load walkaddr
        rw [if_pos hr, if_pos hr]
    rw [hsame]
    split
    · rename_i hle
      rw [hnone hle]
      rfl
    · rfl

/-! ## `copyout` -/

/-- `copyout` to `va` gets as far as the byte at `a`: no page on the way is missing -/
def PageTable.Reach (pt : PageTable) (va a : Nat) : Prop :=
  va ≤ a ∧ ∀ j ≤ a - va, (pt.load (va + j)).isSome

instance (pt : PageTable) (va a : Nat) : Decidable (pt.Reach va a) :=
  inferInstanceAs (Decidable (_ ∧ _))

theorem load_isSome_page {pt : PageTable} (va : Nat) {a : Nat} (h : pgrounddown a = pgrounddown va) :
    (pt.load a).isSome = (pt.load va).isSome := by
  unfold PageTable.load
  rw [h, Option.isSome_map, Option.isSome_map]

theorem copyoutLoop_writes (f : Nat) (pt : PageTable) (va : Nat) (src : List Byte)
    (hf : src.length ≤ f) :
    (∀ a, (copyoutLoop f pt va src).1.load a =
      if pt.Reach va a then (src[a - va]?).or (pt.load a) else pt.load a) ∧
    ((copyoutLoop f pt va src).2 = true ↔ pt.Mapped va src.length) := by
  induction f generalizing pt va src with
  | zero =>
    have e : src = [] := List.length_eq_zero_iff.mp (by omega)
    subst e
    exact ⟨fun a => by simp [copyoutLoop], iff_of_true rfl fun i hi => absurd hi (by simp)⟩
  | succ f ih =>
    cases src with
    | nil => exact ⟨fun a => by simp [copyoutLoop], iff_of_true rfl fun i hi => absurd hi (by simp)⟩
    | cons b src =>
      cases hl : walkaddr pt (pgrounddown va) with
      | none =>
        have hva : pt.load va = none := by
          unfold PageTable.load
          rw [hl]
          rfl
        have hrun : copyoutLoop (f + 1) pt va (b :: src) = (pt, false) := by
          rw [copyoutLoop]
          simp only [hl]
        rw [hrun]
        refine ⟨fun a => ?_, iff_of_false nofun fun hm => ?_⟩
        · have : ¬ pt.Reach va a := fun h => by
            have := h.2 0 (Nat.zero_le _)
            rw [Nat.add_zero, hva] at this
            cases this
          rw [if_neg this]
        · have := hm 0 (by simp)
          rw [Nat.add_zero, hva] at this
          cases this
      | some l =>
        obtain ⟨hv, -, -⟩ := walkaddr_some hl
        have hva : (pt.load va).isSome := by
          unfold PageTable.load
          rw [hl]
          rfl
        -- the chunk of this turn ends with its page or with the source
        generalize hn : min (PGSIZE - (va - pgrounddown va)) (b :: src).length = n
        have hoff : va - pgrounddown va < 4096 := by rw [pgrounddown_eq]; omega
        have hn1 : 1 ≤ n := by
          rw [← hn]; simp only [PGSIZE, List.length_cons]; omega
        have hnl : n ≤ (b :: src).length := by rw [← hn]; omega
        have hpg : va - pgrounddown va + n ≤ PGSIZE := by
          rw [← hn]; unfold PGSIZE; omega
        have hlen : ((b :: src).take n).length = n := by
          rw [List.length_take]; omega
        have hpage : ∀ j < n, (pt.load (va + j)).isSome := by
          intro j hj
          rw [load_isSome_page va]
          · exact hva
          · rw [pgrounddown_eq] at *
            unfold PGSIZE at *
            rw [pgrounddown_eq]
            omega
        have hw := load_write hl ((b :: src).take n) (by rw [hlen]; exact hpg)
        generalize hpt1 : pt.setLeaf (pgrounddown va)
          (some (l.write (va - pgrounddown va) ((b :: src).take n))) = pt1 at hw
        have hsame : ∀ a, (pt1.load a).isSome = (pt.load a).isSome := by
          intro a
          rw [hw a]
          split
          · cases hc : ((b :: src).take n)[a - va]? with
            | none => rfl
            | some x =>
              have hlt := (List.getElem?_eq_some_iff.mp hc).1
              have := hpage (a - va) (by omega)
              rw [show va + (a - va) = a by omega] at this
              rw [this]
              rfl
          · rfl
        have hrun : copyoutLoop (f + 1) pt va (b :: src)
            = copyoutLoop f pt1 ((pgrounddown va + PGSIZE) % 2 ^ 64) ((b :: src).drop n) := by
          rw [← hpt1, ← hn, copyoutLoop]
          simp only [hl]
        have hdrop : ((b :: src).drop n).length = (b :: src).length - n := List.length_drop
        rw [hrun]
        by_cases hlast : n = (b :: src).length
        · -- the last chunk
          have hnil : (b :: src).drop n = [] := by rw [hlast]; exact List.drop_length
          have hend : copyoutLoop f pt1 ((pgrounddown va + PGSIZE) % 2 ^ 64) [] = (pt1, true) := by
            cases f <;> rfl
          rw [hnil, hend]
          refine ⟨fun a => ?_, iff_of_true rfl fun i hi => hpage i (by omega)⟩
          rw [hw a, hlast, List.take_length]
          by_cases h1 : va ≤ a
          · rw [if_pos h1]
            by_cases h2 : a - va < (b :: src).length
            · rw [if_pos ⟨h1, fun j hj => hpage j (by omega)⟩]
            · rw [List.getElem?_eq_none (by omega), Option.none_or, ite_self]
          · rw [if_neg h1, if_neg fun h => h1 h.1]
        · -- the next chunk starts at the next page
          have hnext : (pgrounddown va + PGSIZE) % 2 ^ 64 = va + n := by
            rw [MAXVA_eq] at hv
            have : n = PGSIZE - (va - pgrounddown va) := by
              rw [← hn] at hlast ⊢; omega
            rw [pgrounddown_eq] at *
            unfold PGSIZE at *
            omega
          obtain ⟨h1, h2⟩ := ih pt1 (va + n) ((b :: src).drop n)
            (by rw [hdrop]; simp only [List.length_cons] at hf ⊢; omega)
          have hreach : ∀ a, va + n ≤ a → (pt1.Reach (va + n) a ↔ pt.Reach va a) := by
            intro a ha
            constructor
            · rintro ⟨-, h⟩
              refine ⟨by omega, fun j hj => ?_⟩
              by_cases hjn : j < n
              · exact hpage j hjn
              · have := h (j - n) (by omega)
                rwa [hsame, show va + n + (j - n) = va + j by omega] at this
            · rintro ⟨-, h⟩
              refine ⟨ha, fun j hj => ?_⟩
              rw [hsame, show va + n + j = va + (n + j) by omega]
              exact h (n + j) (by omega)
          rw [hnext]
          refine ⟨fun a => ?_, h2.trans ?_⟩
          · rw [h1 a, hw a]
            by_cases h3 : va + n ≤ a
            · have e : n + (a - (va + n)) = a - va := by omega
              have hout : ((b :: src).take n)[a - va]? = none := by
                rw [List.getElem?_eq_none_iff, hlen]; omega
              rw [if_pos (show va ≤ a by omega), hout, Option.none_or, List.getElem?_drop, e]
              simp only [hreach a h3]
            · rw [if_neg fun h => h3 h.1]
              by_cases h4 : va ≤ a
              · rw [if_pos h4, if_pos ⟨h4, fun j hj => hpage j (by omega)⟩, List.getElem?_take,
                  if_pos (by omega)]
              · rw [if_neg h4, if_neg fun h => h4 h.1]
          · rw [hdrop]
            constructor
            · intro h i hi
              by_cases hin : i < n
              · exact hpage i hin
              · have := h (i - n) (by omega)
                rwa [hsame, show va + n + (i - n) = va + i by omega] at this
            · intro h i hi
              rw [hsame, show va + n + i = va + (n + i) by omega]
              exact h (n + i) (by omega)

theorem copyout_writes (pt : PageTable) (va : Nat) (src : List Byte) :
    (∀ a, (copyout pt va src).1.load a =
      if pt.Reach va a then (src[a - va]?).or (pt.load a) else pt.load a) ∧
    ((copyout pt va src).2 = true ↔ pt.Mapped va src.length) :=
  copyoutLoop_writes src.length pt va src le_rfl

/-- **A copy to mapped user memory succeeds, and changes exactly the bytes it copies.** -/
theorem copyout_spec {pt : PageTable} {va : Nat} {src : List Byte} (hm : pt.Mapped va src.length) :
    ∃ pt', copyout pt va src = (pt', true) ∧
      ∀ a, pt'.load a = if va ≤ a then (src[a - va]?).or (pt.load a) else pt.load a := by
  obtain ⟨h1, h2⟩ := copyout_writes pt va src
  refine ⟨(copyout pt va src).1, Prod.ext rfl (h2.mpr hm), fun a => ?_⟩
  rw [h1 a]
  by_cases hle : va ≤ a
  · rw [if_pos hle]
    by_cases hlt : a - va < src.length
    · rw [if_pos ⟨hle, fun j hj => hm j (by omega)⟩]
    · rw [List.getElem?_eq_none (by omega), Option.none_or, ite_self]
  · rw [if_neg hle, if_neg fun h => hle h.1]

theorem PageTable.Mapped.of_load {pt pt' : PageTable} {va n : Nat} (h : pt.Mapped va n)
    (hl : ∀ a, (pt.load a).isSome → (pt'.load a).isSome) : pt'.Mapped va n :=
  fun i hi => hl _ (h i hi)

/-- what `copyout` leaves behind, in the terms its callers use -/
theorem copyout_holds {pt : PageTable} {va : Nat} (src : List Byte) (hm : pt.Mapped va src.length) :
    ∃ pt', copyout pt va src = (pt', true) ∧ pt'.Holds va src ∧
      (∀ a, (pt.load a).isSome → (pt'.load a).isSome) ∧
      ∀ a, a < va ∨ va + src.length ≤ a → pt'.load a = pt.load a := by
  obtain ⟨pt', h1, h2⟩ := copyout_spec hm
  refine ⟨pt', h1, ?_, ?_, ?_⟩
  · intro i hi
    rw [h2, if_pos (by omega), Nat.add_sub_cancel_left, List.getElem?_eq_getElem hi, Option.some_or]
  · intro a ha
    rw [h2]
    split
    · cases src[a - va]? with
      | none => exact ha
      | some _ => rfl
    · exact ha
  · intro a ha
    rw [h2]
    split
    · rw [List.getElem?_eq_none (by omega), Option.none_or]
    · rfl

theorem PageTable.Holds.of_eq {pt pt' : PageTable} {va : Nat} {bs : List Byte} (h : pt.Holds va bs)
    (he : ∀ i < bs.length, pt'.load (va + i) = pt.load (va + i)) : pt'.Holds va bs :=
  fun i hi => by rw [he i hi, h i hi]

theorem le32_join (x : CInt) :
    x.extractLsb' 24 8 ++ x.extractLsb' 16 8 ++ x.extractLsb' 8 8 ++ x.extractLsb' 0 8 = x := by
  ext i hi
  simp only [BitVec.getElem_append, BitVec.getElem_extractLsb']
  grind

theorem flatMap_le32_length (xs : List CInt) : (xs.flatMap le32).length = 4 * xs.length := by
  induction xs with
  | nil => rfl
  | cons x xs ih =>
    rw [List.flatMap_cons, List.length_append, ih, List.length_cons]
    show 4 + 4 * xs.length = _
    omega

theorem PageTable.Holds.load32 {pt : PageTable} {va : Nat} {x : CInt} (h : pt.Holds va (le32 x)) :
    pt.load32 va = some x := by
  have h0 := h 0 (by simp [le32])
  have h1 := h 1 (by simp [le32])
  have h2 := h 2 (by simp [le32])
  have h3 := h 3 (by simp [le32])
  rw [Nat.add_zero] at h0
  unfold PageTable.load32
  rw [h0, h1, h2, h3]
  exact congrArg some (le32_join x)

/-! ## `copyinstr` -/

/-- `copyinstr` one byte at a time -/
def copyinstrRef (pt : PageTable) : Nat → Nat → (Nat → Byte) → Nat → (Nat → Byte) × Bool
  | 0, _, dst, _ => (dst, false)
  | m + 1, va, dst, i =>
    match pt.load va with
    | none => (dst, false)
    | some b =>
      if b = 0 then (Function.update dst i 0, true)
      else copyinstrRef pt m (va + 1) (Function.update dst i b) (i + 1)

theorem copyinstrRef_page {pt : PageTable} {va0 : Nat} {l : Leaf} (hl : walkaddr pt va0 = some l)
    (h0 : va0 % PGSIZE = 0) (n m off : Nat) (dst : Nat → Byte) (i : Nat) (hn : off + n ≤ PGSIZE) :
    copyinstrRef pt (n + m) (va0 + off) dst i
      = match copyinstrPage l.data n off dst i with
        | (true, d) => (d, true)
        | (false, d) => copyinstrRef pt m (va0 + off + n) d (i + n) := by
  induction n generalizing off dst i with
  | zero => simp only [copyinstrPage, Nat.zero_add, Nat.add_zero]
  | succ n ih =>
    have hb : pt.load (va0 + off) = some (l.data off) := by
      have e1 : pgrounddown (va0 + off) = va0 := by
        rw [pgrounddown_eq]; unfold PGSIZE at *; omega
      have e2 : (va0 + off) % PGSIZE = off := by unfold PGSIZE at *; omega
      unfold PageTable.load
      rw [e1, hl, e2]
      rfl
    have e : n + 1 + m = (n + m) + 1 := by omega
    rw [e, copyinstrRef, hb, copyinstrPage]
    dsimp only
    by_cases hz : l.data off = 0
    · rw [if_pos hz, if_pos hz]
    · rw [if_neg hz, if_neg hz, Nat.add_assoc va0 off 1, ih (off + 1) _ (i + 1) (by omega)]
      have e1 : va0 + (off + 1) + n = va0 + off + (n + 1) := by omega
      have e2 : i + 1 + n = i + (n + 1) := by omega
      rw [e1, e2]

theorem copyinstrLoop_eq (pt : PageTable) (f : Nat) (dst : Nat → Byte) (i va max : Nat)
    (hf : max ≤ f) : copyinstrLoop pt f dst i va max = copyinstrRef pt max va dst i := by
  induction f generalizing dst i va max with
  | zero =>
    have e : max = 0 := by omega
    subst e
    rfl
  | succ f ih =>
    cases max with
    | zero => rfl
    | succ k =>
      rw [copyinstrLoop]
      dsimp only
      have hva : va = pgrounddown va + (va - pgrounddown va) := by rw [pgrounddown_eq]; omega
      have hoff : va - pgrounddown va < 4096 := by rw [pgrounddown_eq]; omega
      cases hl : walkaddr pt (pgrounddown va) with
      | none =>
        have hb : pt.load va = none := by
          unfold PageTable.load
          rw [hl]
          rfl
        rw [copyinstrRef, hb]
      | some l =>
        obtain ⟨hv, -, -⟩ := walkaddr_some hl
        rw [MAXVA_eq] at hv
        generalize hn : min (PGSIZE - (va - pgrounddown va)) (k + 1) = n
        have hpg : va - pgrounddown va + n ≤ PGSIZE := by rw [← hn]; unfold PGSIZE; omega
        have hn1 : 1 ≤ n := by rw [← hn]; unfold PGSIZE; omega
        have hnk : n ≤ k + 1 := by rw [← hn]; omega
        have hr := copyinstrRef_page hl (by rw [pgrounddown_eq]; exact Nat.mul_mod_left _ _)
          n (k + 1 - n) (va - pgrounddown va) dst i hpg
        rw [← hva, Nat.add_sub_cancel' hnk] at hr
        rw [hr]
        dsimp only
        split
        · rfl
        · rename_i d _
          rw [ih d (i + n) _ (k + 1 - n) (by omega)]
          by_cases hk : k + 1 - n = 0
          · simp only [hk, copyinstrRef]
          · have e : (pgrounddown va + PGSIZE) % 2 ^ 64 = va + n := by
              have h1 : va - pgrounddown va + n = 4096 := by
                rw [← hn]; unfold PGSIZE at *; omega
              simp only [PGSIZE, Nat.reducePow]
              omega
            rw [e]

theorem bytes_succ (s : Nat → Byte) (n : Nat) : bytes s (n + 1) = bytes s n ++ [s n] := by
  simp [bytes, List.range_succ]

theorem bytes_get (s : Nat → Byte) (n i : Nat) (h : i < (bytes s n).length) :
    (bytes s n)[i] = s i := by
  simp [bytes]

theorem bytes_congr {s t : Nat → Byte} {n : Nat} (h : ∀ i < n, s i = t i) :
    bytes s n = bytes t n := by
  apply List.map_congr_left
  intro i hi
  exact h i (List.mem_range.mp hi)

/-- a mapped string that fits is copied, after what the buffer already holds -/
theorem copyinstrRef_str {pt : PageTable} (l : List Byte) (m va : Nat) (dst : Nat → Byte) (i : Nat)
    (hs : pt.StrAt va l) (hm : l.length < m) :
    ∃ buf, copyinstrRef pt m va dst i = (buf, true) ∧
      bytes buf (i + l.length + 1) = bytes dst i ++ (l ++ [0]) := by
  induction l generalizing m va dst i with
  | nil =>
    obtain ⟨k, rfl⟩ : ∃ k, m = k + 1 := ⟨m - 1, by simp at hm; omega⟩
    have h0 := hs.1 0 (by simp)
    rw [Nat.add_zero] at h0
    refine ⟨update dst i 0, ?_, ?_⟩
    · rw [copyinstrRef, h0]
      rfl
    · have h1 : bytes (update dst i 0) i = bytes dst i :=
        bytes_congr fun j hj => update_of_ne (by omega) _ _
      show bytes _ (i + 1) = _
      rw [bytes_succ, h1, update_self]
      rfl
  | cons b l ih =>
    obtain ⟨k, rfl⟩ : ∃ k, m = k + 1 := ⟨m - 1, by simp at hm; omega⟩
    have h0 : pt.load va = some b := hs.1 0 (by simp)
    have hb : b ≠ 0 := hs.2 b List.mem_cons_self
    have htl : pt.StrAt (va + 1) l := by
      refine ⟨fun j hj => ?_, fun c hc => hs.2 c (List.mem_cons_of_mem _ hc)⟩
      have := hs.1 (j + 1) (by simpa using hj)
      rw [Nat.add_assoc, Nat.add_comm 1 j]
      exact this
    obtain ⟨buf, h1, h2⟩ := ih k (va + 1) (update dst i b) (i + 1) htl (by simpa using hm)
    refine ⟨buf, ?_, ?_⟩
    · rw [copyinstrRef, h0]
      show (if b = 0 then _ else _) = _
      rw [if_neg hb, h1]
    · have h3 : bytes (update dst i b) i = bytes dst i :=
        bytes_congr fun j hj => update_of_ne (by omega) _ _
      rw [bytes_succ _ i, h3, update_self, List.append_assoc] at h2
      have e : i + (b :: l).length + 1 = i + 1 + l.length + 1 := by simp only [List.length_cons]; omega
      rw [e, h2]
      rfl

theorem copyinstrRef_ok {pt : PageTable} (m va : Nat) (dst : Nat → Byte) (i : Nat)
    (h : (copyinstrRef pt m va dst i).2 = true) : ∃ l, pt.StrAt va l ∧ l.length < m := by
  induction m generalizing va dst i with
  | zero => cases h
  | succ m ih =>
    rw [copyinstrRef] at h
    cases hb : pt.load va with
    | none => rw [hb] at h; cases h
    | some b =>
      rw [hb] at h
      dsimp only at h
      by_cases hz : b = 0
      · refine ⟨[], ⟨fun j hj => ?_, fun c hc => absurd hc List.not_mem_nil⟩, by simp⟩
        have e : j = 0 := by simpa using hj
        subst e
        rw [Nat.add_zero, hb, hz]
        rfl
      · rw [if_neg hz] at h
        obtain ⟨l, h1, h2⟩ := ih _ _ _ h
        refine ⟨b :: l, ⟨fun j hj => ?_, fun c hc => ?_⟩, by simpa using h2⟩
        · cases j with
          | zero => exact hb
          | succ j =>
            have := h1.1 j (by simpa using hj)
            rw [Nat.add_assoc, Nat.add_comm 1 j] at this
            exact this
        · rcases List.mem_cons.mp hc with rfl | hc
          · exact hz
          · exact h1.2 c hc

/-- **`copyinstr` succeeds exactly on a mapped string of fewer than `max` bytes, and then the
buffer holds it.** -/
theorem copyinstr_spec (pt : PageTable) (dst : Nat → Byte) (va max : Nat) :
    (∀ l, pt.StrAt va l → l.length < max →
      ∃ buf, copyinstr pt dst va max = (buf, true) ∧ BufStr buf l) ∧
    ((copyinstr pt dst va max).2 = true → ∃ l, pt.StrAt va l ∧ l.length < max) := by
  unfold copyinstr
  rw [copyinstrLoop_eq pt max dst 0 va max le_rfl]
  refine ⟨fun l hs hl => ?_, copyinstrRef_ok max va dst 0⟩
  obtain ⟨buf, h1, h2⟩ := copyinstrRef_str l max va dst 0 hs hl
  refine ⟨buf, h1, ?_, hs.2⟩
  rw [Nat.zero_add] at h2
  exact h2

/-! ## strings in kernel buffers -/

theorem BufStr.get {s : Nat → Byte} {l : List Byte} (h : BufStr s l) (i : Nat)
    (hi : i < l.length) : s i = l[i] := by
  have h1 : (bytes s (l.length + 1))[i]? = (l ++ [0])[i]? := by rw [h.1]
  rw [List.getElem?_append_left hi, List.getElem?_eq_getElem hi,
    List.getElem?_eq_getElem (by simp [bytes]; omega), bytes_get, Option.some.injEq] at h1
  exact h1

theorem BufStr.nul {s : Nat → Byte} {l : List Byte} (h : BufStr s l) : s l.length = 0 := by
  have h1 := h.1
  rw [bytes_succ] at h1
  have h2 := (List.append_inj_right' h1 rfl)
  simpa using h2

theorem BufStr.ne {s : Nat → Byte} {l : List Byte} (h : BufStr s l) (i : Nat)
    (hi : i < l.length) : s i ≠ 0 := by
  rw [h.get i hi]
  exact h.2 _ (List.getElem_mem hi)

theorem BufStr.of_eq {s t : Nat → Byte} {l : List Byte} (h : BufStr s l)
    (he : ∀ i ≤ l.length, t i = s i) : BufStr t l :=
  ⟨by rw [← h.1]; exact bytes_congr fun i hi => he i (by omega), h.2⟩

theorem strlenLoop_str {s : Nat → Byte} {l : List Byte} (h : BufStr s l) (f n : Nat)
    (hn : n ≤ l.length) (hf : l.length < n + f) : strlenLoop s f n = l.length := by
  induction f generalizing n with
  | zero => omega
  | succ f ih =>
    rw [strlenLoop]
    by_cases e : n = l.length
    · rw [e, if_pos h.nul]
    · rw [if_neg (h.ne n (by omega)), ih (n + 1) (by omega) (by omega)]

theorem strlen_str {s : Nat → Byte} {l : List Byte} (h : BufStr s l) {cap : Nat}
    (hc : l.length < cap) : strlen s cap = l.length :=
  strlenLoop_str h cap 0 (by omega) (by omega)

/-- the loop copies up to the NUL, or up to the end of its room -/
theorem safestrcpyLoop_get {t : Nat → Byte} {l : List Byte} (h : BufStr t l) (n i : Nat)
    (s : Nat → Byte) (hi : i ≤ l.length) (hn : l.length ≤ i + n) (j : Nat) (hj : j ≤ l.length) :
    safestrcpyLoop t n i s j = if j < i then s j else t j := by
  induction n generalizing i s with
  | zero =>
    have e : i = l.length := by omega
    subst e
    rw [safestrcpyLoop]
    by_cases hjl : j < l.length
    · rw [if_pos hjl, update_of_ne (by omega)]
    · have e : j = l.length := by omega
      rw [if_neg hjl, e, update_self, h.nul]
  | succ n ih =>
    rw [safestrcpyLoop]
    by_cases hz : t i = 0
    · have e : i = l.length := by
        by_contra hne
        exact h.ne i (by omega) hz
      rw [if_pos hz, update_of_ne (by omega)]
      by_cases hji : j < i
      · rw [if_pos hji, update_of_ne (by omega)]
      · have e2 : j = i := by omega
        rw [if_neg hji, e2, update_self, hz]
    · have hlt : i < l.length := by
        by_contra hge
        have e : i = l.length := by omega
        rw [e] at hz
        exact hz h.nul
      rw [if_neg hz, ih (i + 1) _ (by omega) (by omega)]
      by_cases hji : j < i
      · rw [if_pos hji, if_pos (by omega), update_of_ne (by omega)]
      · rw [if_neg hji]
        by_cases e : j = i
        · rw [if_pos (by omega), e, update_self]
        · rw [if_neg (by omega)]

theorem safestrcpy_str {t : Nat → Byte} {l : List Byte} (h : BufStr t l) (s : Nat → Byte) {n : Nat}
    (hn : l.length < n) : BufStr (safestrcpy s t n) l := by
  obtain ⟨k, rfl⟩ : ∃ k, n = k + 1 := ⟨n - 1, by omega⟩
  refine h.of_eq fun i hi => ?_
  show safestrcpyLoop t k 0 s i = t i
  rw [safestrcpyLoop_get h k 0 s (by omega) (by omega) i hi, if_neg (by omega)]

theorem BufStr.nil {s : Nat → Byte} (h : s 0 = 0) : BufStr s [] :=
  ⟨by simp [bytes, h], fun b hb => absurd hb List.not_mem_nil⟩

end Xv6
