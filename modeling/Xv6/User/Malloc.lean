import Xv6.Kernel.Defs
import Xv6.Lib.Run
import Xv6.Lib.Tiles

/-!
# The user heap (`user/umalloc.c`)

`malloc` and `free` keep the free blocks on a circular list that starts from `base`.  Addresses are
numbers of bytes, the size of a block counts headers of 16 bytes; the block at `a` takes the bytes from
`a` on, and the pointer that `malloc` returns is the one after its header.

* `free`, `morecore`, `malloc`  the functions, over the header words of the heap and the answers of the
  kernel to `sbrk`;
* `Ring`   the free list: linked from `base` and back, in the order of addresses,
  no block touching the next;
* `free_ring`   `free` puts a block back and merges it with its neighbours;
* `Sound.malloc`   `malloc` returns, and takes its block from the ring or gets more memory;
* `malloc_keeps_heap`   **the heap over whole runs of `malloc`, `free` and user writes**.
-/

namespace Xv6.Umalloc
open Function (update update_of_ne update_self)

/-- the bytes of a header, which is also the unit of sizes -/
def unit : ℕ := 16

/-- the header words of the heap, `freep`, and nothing else of the memory -/
structure Heap where
  ptr : ℕ → ℕ
  size : ℕ → ℕ
  freep : ℕ

namespace Heap

def setPtr (h : Heap) (a v : ℕ) : Heap := { h with ptr := Function.update h.ptr a v }

/-- sizes are `uint` -/
def setSize (h : Heap) (a v : ℕ) : Heap := { h with size := Function.update h.size a (v % 2 ^ 32) }

def setFreep (h : Heap) (p : ℕ) : Heap := { h with freep := p }

section
variable (h : Heap) (a v : ℕ)

@[simp] theorem setPtr_ptr : (h.setPtr a v).ptr = Function.update h.ptr a v := rfl
@[simp] theorem setPtr_size : (h.setPtr a v).size = h.size := rfl
@[simp] theorem setPtr_freep : (h.setPtr a v).freep = h.freep := rfl
@[simp] theorem setSize_ptr : (h.setSize a v).ptr = h.ptr := rfl
@[simp] theorem setSize_size : (h.setSize a v).size = Function.update h.size a (v % 2 ^ 32) := rfl
@[simp] theorem setSize_freep : (h.setSize a v).freep = h.freep := rfl
@[simp] theorem setFreep_ptr : (h.setFreep a).ptr = h.ptr := rfl
@[simp] theorem setFreep_size : (h.setFreep a).size = h.size := rfl
@[simp] theorem setFreep_freep : (h.setFreep a).freep = a := rfl

end

end Heap

/-! ## The kernel's side -/

/-- what `sbrk` does: the end of the process's memory, by how much the process has moved it itself before
each call (none if the call finds no memory), and the calls so far with their answers -/
structure Os where
  brk : ℕ
  gap : ℕ → Option ℕ
  calls : List (CInt × Option ℕ)

namespace Os

def log (os : Os) (n : CInt) (r : Option ℕ) : Os := { os with calls := os.calls ++ [(n, r)] }

def setBrk (os : Os) (b : ℕ) : Os := { os with brk := b }

/-- `sbrk(n)`: `growproc` backs every byte below the end with a page of the machine and fails without
one; a negative `n` gives memory back, and nothing changes if there is not so much -/
def sbrk (os : Os) (n : CInt) : Option ℕ × Os :=
  let a := os.brk + (os.gap os.calls.length).getD 0
  if 0 < n.toInt then
    if (os.gap os.calls.length).isSome ∧ a + n.toNat ≤ PHYSTOP - KERNBASE then
      (some a, (os.log n (some a)).setBrk (a + n.toNat))
    else (none, os.log n none)
  else
    let b := if n.toInt.natAbs ≤ a then a - n.toInt.natAbs else a
    (some a, (os.log n (some a)).setBrk b)

/-- the size word of a header at `a` is in a page of the process -/
def Backs (os : Os) (a : ℕ) : Prop := a + 12 ≤ pgroundup os.brk

instance (os : Os) (a : ℕ) : Decidable (os.Backs a) := inferInstanceAs (Decidable (_ ≤ _))

/-- the bytes obtained from `sbrk` -/
def got (os : Os) : Set ℕ :=
  {x | ∃ n a, (n, some a) ∈ os.calls ∧ a ≤ x ∧ x < a + n.toNat}

end Os

/-! ## The functions of `umalloc.c` -/

/-- the `for` of `free`: the block of the list after which `bp` goes -/
def freeLoop (h : Heap) (bp : ℕ) : ℕ → ℕ → Option ℕ
  | 0, _ => none
  | fuel + 1, p =>
    if bp > p ∧ bp < h.ptr p then some p
    else if p ≥ h.ptr p ∧ (bp > p ∨ bp < h.ptr p) then some p
    else freeLoop h bp fuel (h.ptr p)

/-- the first `if` of `free`: `bp` takes in the block after it, or is linked to it -/
def joinNext (h : Heap) (bp p : ℕ) : Heap :=
  if bp + unit * h.size bp = h.ptr p then
    (h.setSize bp (h.size bp + h.size (h.ptr p))).setPtr bp (h.ptr (h.ptr p))
  else h.setPtr bp (h.ptr p)

/-- the second `if` of `free`: `p` takes in `bp`, or is linked to it -/
def joinPrev (h : Heap) (bp p : ℕ) : Heap :=
  if p + unit * h.size p = bp then (h.setSize p (h.size p + h.size bp)).setPtr p (h.ptr bp)
  else h.setPtr p bp

def free (fuel : ℕ) (h : Heap) (ap : ℕ) : Option Heap :=
  let bp := ap - unit
  (freeLoop h bp fuel h.freep).map fun p => (joinPrev (joinNext h bp p) bp p).setFreep p

/-- `morecore`; a null pointer where `sbrk` fails, and no return where the first store to the new
header is outside of the pages of the process, which is then killed -/
def morecore (fuel : ℕ) (h : Heap) (os : Os) (nu : ℕ) : Option (ℕ × Heap × Os) :=
  let nu := if nu < 4096 then 4096 else nu
  match os.sbrk (BitVec.ofNat 32 (nu * unit)) with
  | (none, os) => some (0, h, os)
  | (some p, os) =>
    if os.Backs p then
      (free fuel (h.setSize p nu) (p + unit)).map fun h => (h.freep, h, os)
    else none

/-- the part of `malloc` for a block `p` that is large enough, after `prevp` on the list -/
def take (h : Heap) (nunits prevp p : ℕ) : ℕ × Heap :=
  if h.size p = nunits then (p + unit, (h.setPtr prevp (h.ptr p)).setFreep prevp)
  else
    let h := h.setSize p (h.size p - nunits)
    let p := p + unit * h.size p
    (p + unit, (h.setSize p nunits).setFreep prevp)

/-- the `for` of `malloc` -/
def mallocLoop (nunits : ℕ) : ℕ → Heap → Os → ℕ → ℕ → Option (ℕ × Heap × Os)
  | 0, _, _, _, _ => none
  | fuel + 1, h, os, prevp, p =>
    if h.size p ≥ nunits then
      let r := take h nunits prevp p
      some (r.1, r.2, os)
    else if p = h.freep then
      (morecore fuel h os nunits).bind fun (p, h, os) =>
        if p = 0 then some (0, h, os) else mallocLoop nunits fuel h os p (h.ptr p)
    else mallocLoop nunits fuel h os p (h.ptr p)

/-- the units `malloc` looks for: computed in 64 bits, kept in a `uint` -/
def nunits (nbytes : ℕ) : ℕ := ((nbytes + unit - 1) / unit + 1) % 2 ^ 32

/-- the list before the first call: `base` alone -/
def start (base : ℕ) (h : Heap) : Heap :=
  if h.freep = 0 then ((h.setPtr base base).setFreep base).setSize base 0 else h

def malloc (base fuel : ℕ) (h : Heap) (os : Os) (nbytes : ℕ) : Option (ℕ × Heap × Os) :=
  let h := start base h
  mallocLoop (nunits nbytes) fuel h os h.freep (h.ptr h.freep)

/-! ## The free list in memory -/

/-- a free block: the address of its header and its size -/
abbrev Block := ℕ × ℕ

/-- the first address after the block -/
def fin (b : Block) : ℕ := b.1 + unit * b.2

/-- the pointers lead from `p` through the blocks to `q` -/
def Links (h : Heap) : ℕ → List Block → ℕ → Prop
  | p, [], q => h.ptr p = q
  | p, b :: F, q => h.ptr p = b.1 ∧ Links h b.1 F q

/-- the last header of the list, `p` if there is none -/
def lastOf (p : ℕ) : List Block → ℕ
  | [] => p
  | b :: F => lastOf b.1 F

/-- the first header of the list, `q` if there is none -/
def firstOf (q : ℕ) : List Block → ℕ
  | [] => q
  | b :: _ => b.1

section links
variable {h h' : Heap} {p q r : ℕ} {b : Block} {A B F : List Block}

theorem links_append : Links h p (A ++ B) q ↔ Links h p A (firstOf q B) ∧ Links h (lastOf p A) B q := by
  induction A generalizing p with
  | nil =>
    cases B with
    | nil => simp [Links, firstOf, lastOf]
    | cons b B => simp [Links, firstOf, lastOf]
  | cons a A ih =>
    simp only [List.cons_append, Links, lastOf, and_assoc]
    rw [ih]

theorem Links.first (h1 : Links h p F q) : h.ptr p = firstOf q F := by
  cases F with
  | nil => exact h1
  | cons b F => exact h1.1

theorem Links.last (h1 : Links h p F q) : h.ptr (lastOf p F) = q := by
  induction F generalizing p with
  | nil => exact h1
  | cons b F ih => exact ih h1.2

theorem lastOf_mem (p : ℕ) (F : List Block) : lastOf p F ∈ p :: F.map Prod.fst := by
  induction F generalizing p with
  | nil => exact List.mem_singleton_self p
  | cons b F ih => exact List.mem_cons_of_mem _ (ih b.1)

theorem lastOf_append (p : ℕ) (A : List Block) (b : Block) (B : List Block) :
    lastOf p (A ++ b :: B) = lastOf b.1 B := by
  induction A generalizing p with
  | nil => rfl
  | cons a A ih => exact ih a.1

theorem Links.congr (h1 : Links h p F q) (he : ∀ a ∈ p :: F.map Prod.fst, h'.ptr a = h.ptr a) :
    Links h' p F q := by
  induction F generalizing p with
  | nil => exact (he p (List.mem_singleton_self p)).trans h1
  | cons b F ih =>
    refine ⟨(he p List.mem_cons_self).trans h1.1, ih h1.2 fun a ha => he a ?_⟩
    exact List.mem_cons_of_mem _ ha

theorem Links.from_eq (h1 : Links h p F q) (hr : h'.ptr r = h.ptr p)
    (he : ∀ b ∈ F, h'.ptr b.1 = h.ptr b.1) : Links h' r F q := by
  cases F with
  | nil => exact hr.trans h1
  | cons b F =>
    refine ⟨hr.trans h1.1, h1.2.congr fun a ha => ?_⟩
    obtain ⟨d, hd, rfl⟩ := List.mem_map.1 (show a ∈ (b :: F).map Prod.fst from ha)
    exact he d hd

theorem Links.setLast (h1 : Links h p F q) (hn : (p :: F.map Prod.fst).Nodup)
    (hl : h'.ptr (lastOf p F) = r)
    (he : ∀ a ∈ p :: F.map Prod.fst, a ≠ lastOf p F → h'.ptr a = h.ptr a) : Links h' p F r := by
  induction F generalizing p with
  | nil => exact hl
  | cons b F ih =>
    have hb : p ≠ lastOf b.1 F := fun e => by
      have := lastOf_mem b.1 F
      rw [← e] at this
      exact (List.nodup_cons.1 hn).1 this
    refine ⟨(he p List.mem_cons_self hb).trans h1.1, ih h1.2 (List.nodup_cons.1 hn).2 hl ?_⟩
    exact fun a ha => he a (List.mem_cons_of_mem _ ha)

end links

theorem nodup_headers {base : ℕ} {F : List Block} (ha : ∀ b ∈ F, base + unit ≤ b.1)
    (ho : F.Pairwise fun b c => fin b < c.1) : (base :: F.map Prod.fst).Nodup := by
  have hu : unit = 16 := rfl
  refine List.nodup_cons.2 ⟨fun hb => ?_, ?_⟩
  · obtain ⟨b, hb, e⟩ := List.mem_map.1 hb
    have := ha b hb
    omega
  · refine List.pairwise_map.2 (ho.imp fun {b c} hbc => ?_)
    unfold fin at hbc
    omega

/-- **the free list** `F` as the heap has it -/
structure Ring (base : ℕ) (h : Heap) (F : List Block) : Prop where
  /-- it is circular and starts from `base` -/
  links : Links h base F base
  freep : h.freep ∈ base :: F.map Prod.fst
  sizes : ∀ b ∈ F, h.size b.1 = b.2
  empty : h.size base = 0
  pos : ∀ b ∈ F, 0 < b.2
  above : ∀ b ∈ F, base + unit ≤ b.1
  /-- it is in the order of addresses, and no block touches the next -/
  ordered : F.Pairwise fun b c => fin b < c.1

namespace Ring
variable {base : ℕ} {h : Heap} {F A B : List Block}

theorem nodup (hr : Ring base h F) : (base :: F.map Prod.fst).Nodup :=
  nodup_headers hr.above hr.ordered

end Ring

/-! ## `free` -/

/-- a block that goes between `A` and `B` of the free list -/
structure Place (base : ℕ) (h : Heap) (A B : List Block) (c : Block) : Prop where
  ring : Ring base h (A ++ B)
  size : h.size c.1 = c.2
  pos : 0 < c.2
  above : base + unit ≤ c.1
  low : ∀ b ∈ A, fin b ≤ c.1
  high : ∀ b ∈ B, fin c ≤ b.1
  small : ∀ b ∈ A ++ c :: B, b.2 ≤ 2 ^ 30

section search
variable {base bp p q k : ℕ} {h : Heap} {A B : List Block} {c : Block}

theorem freeLoop_low (hl : Links h p A q) (hp : p < bp) (hA : ∀ b ∈ A, p < b.1 ∧ b.1 < bp)
    (ho : A.Pairwise fun b c => b.1 < c.1) (hq : bp < q ∨ q ≤ lastOf p A) :
    freeLoop h bp (A.length + 1 + k) p = some (lastOf p A) := by
  induction A generalizing p with
  | nil =>
    have hl : h.ptr p = q := hl
    have hq : bp < q ∨ q ≤ p := hq
    rw [List.length_nil, show 0 + 1 + k = k + 1 from by omega, freeLoop, hl]
    by_cases hbq : bp < q
    · rw [if_pos ⟨hp, hbq⟩]
      rfl
    · rw [if_neg fun e => hbq e.2, if_pos ⟨by omega, .inl hp⟩]
      rfl
  | cons b A ih =>
    obtain ⟨h1, h2⟩ := hl
    have hb := hA b List.mem_cons_self
    rw [List.length_cons, show A.length + 1 + 1 + k = A.length + 1 + k + 1 from by omega, freeLoop, h1,
      if_neg (by omega), if_neg (by omega)]
    refine ih h2 hb.2 (fun c hc => ⟨?_, (hA c (List.mem_cons_of_mem _ hc)).2⟩) (List.pairwise_cons.1 ho).2
      hq
    exact (List.pairwise_cons.1 ho).1 c hc

theorem freeLoop_high (hl : Links h p B base) (hp : bp < p) (hb : base < bp) (hB : ∀ b ∈ B, p < b.1)
    (ho : B.Pairwise fun b c => b.1 < c.1) :
    freeLoop h bp (B.length + 1 + k) p = freeLoop h bp k base := by
  induction B generalizing p with
  | nil =>
    have hl : h.ptr p = base := hl
    rw [List.length_nil, show 0 + 1 + k = k + 1 from by omega, freeLoop, hl, if_neg (by omega),
      if_neg (by omega)]
  | cons b B ih =>
    obtain ⟨h1, h2⟩ := hl
    have hb := hB b List.mem_cons_self
    rw [List.length_cons, show B.length + 1 + 1 + k = B.length + 1 + k + 1 from by omega, freeLoop, h1,
      if_neg (by omega), if_neg (by omega)]
    exact ih h2 (by omega) (List.pairwise_cons.1 ho).1 (List.pairwise_cons.1 ho).2

theorem Place.ascending (hp : Place base h A B c) : (A ++ B).Pairwise fun b c => b.1 < c.1 :=
  hp.ring.ordered.imp fun {b c} hbc => by
    unfold fin at hbc
    omega

theorem Place.between (hp : Place base h A B c) : base < c.1 ∧ (∀ b ∈ A, b.1 < c.1) ∧ ∀ b ∈ B, c.1 < b.1 := by
  have hu : unit = 16 := rfl
  have hc := hp.above
  refine ⟨by omega, fun b hb => ?_, fun b hb => ?_⟩
  · have h1 := hp.low b hb
    have h2 := hp.ring.pos b (List.mem_append_left _ hb)
    simp only [fin, unit] at h1
    omega
  · have h1 := hp.high b hb
    have h2 := hp.pos
    simp only [fin, unit] at h1
    omega

/-- **the search of `free` ends at the header before `bp`, wherever it starts** -/
theorem Place.search (hp : Place base h A B c) (hk : A.length + B.length + 3 ≤ k) :
    freeLoop h c.1 k h.freep = some (lastOf base A) := by
  obtain ⟨hbc, hA, hB⟩ := hp.between
  obtain ⟨hoA, hoB, hAB⟩ := List.pairwise_append.1 hp.ascending
  obtain ⟨hlA, hlB⟩ := links_append.1 hp.ring.links
  have hAb : ∀ b ∈ A, base < b.1 := fun b hb => by
    have hu : unit = 16 := rfl
    have := hp.ring.above b (List.mem_append_left _ hb)
    omega
  have hq : c.1 < firstOf base B ∨ firstOf base B ≤ lastOf base A := by
    cases B with
    | nil =>
      refine .inr ?_
      rcases List.mem_cons.1 (lastOf_mem base A) with e | e
      · exact e.ge
      · obtain ⟨b, hb, e⟩ := List.mem_map.1 e
        rw [← e]
        exact (hAb b hb).le
    | cons b B => exact .inl (hB b List.mem_cons_self)
  rcases List.mem_cons.1 hp.ring.freep with e | e
  · obtain ⟨j, rfl⟩ : ∃ j, k = A.length + 1 + j := ⟨k - (A.length + 1), by omega⟩
    rw [e]
    exact freeLoop_low hlA hbc (fun b hb => ⟨hAb b hb, hA b hb⟩) hoA hq
  rw [List.map_append, List.mem_append] at e
  rcases e with e | e
  · obtain ⟨b, hb, eb⟩ := List.mem_map.1 e
    obtain ⟨A1, A2, rfl⟩ := List.append_of_mem hb
    obtain ⟨j, rfl⟩ : ∃ j, k = A2.length + 1 + j := ⟨k - (A2.length + 1), by
      simp only [List.length_append, List.length_cons] at hk
      omega⟩
    rw [lastOf_append] at hq ⊢
    have ho2 := List.pairwise_cons.1 (List.pairwise_append.1 hoA).2.1
    rw [← eb]
    refine freeLoop_low (links_append.1 hlA).2.2 (hA b hb) (fun a ha => ⟨ho2.1 a ha, hA a ?_⟩) ho2.2 hq
    exact List.mem_append_right _ (List.mem_cons_of_mem _ ha)
  · obtain ⟨b, hb, eb⟩ := List.mem_map.1 e
    obtain ⟨B1, B2, rfl⟩ := List.append_of_mem hb
    obtain ⟨j, rfl⟩ : ∃ j, k = B2.length + 1 + (A.length + 1 + j) :=
      ⟨k - (B2.length + 1 + (A.length + 1)), by
        simp only [List.length_append, List.length_cons] at hk
        omega⟩
    have ho2 := List.pairwise_cons.1 (List.pairwise_append.1 hoB).2.1
    rw [← eb, freeLoop_high (links_append.1 hlB).2.2 (hB b hb) hbc ho2.1 ho2.2]
    exact freeLoop_low hlA hbc (fun b hb => ⟨hAb b hb, hA b hb⟩) hoA hq

end search

section join
variable {base : ℕ} {h : Heap} {A B : List Block} {c : Block}

/-- after the first `if`: `c` is linked to `B` and does not touch it, nothing links to `c` yet -/
structure Placed (base : ℕ) (h : Heap) (A B : List Block) (c : Block) : Prop where
  linksA : ∃ q, Links h base A q
  linksB : Links h c.1 B base
  sizes : ∀ b ∈ A ++ c :: B, h.size b.1 = b.2
  empty : h.size base = 0
  pos : ∀ b ∈ A ++ c :: B, 0 < b.2
  above : ∀ b ∈ A ++ c :: B, base + unit ≤ b.1
  orderedA : A.Pairwise fun b c => fin b < c.1
  orderedB : (c :: B).Pairwise fun b c => fin b < c.1
  low : ∀ b ∈ A, fin b ≤ c.1
  small : c.2 ≤ 2 ^ 31
  smallA : ∀ b ∈ A, b.2 ≤ 2 ^ 30

theorem forall_mem_middle {P : Block → Prop} (h1 : ∀ b ∈ A ++ B, P b) (h2 : P c) :
    ∀ b ∈ A ++ c :: B, P b := by
  intro b hb
  simp only [List.mem_append, List.mem_cons] at hb h1
  rcases hb with hb | rfl | hb
  · exact h1 b (.inl hb)
  · exact h2
  · exact h1 b (.inr hb)

/-- where `A` and `B` are in the place: each header differs from `c`'s -/
theorem Place.ne (hp : Place base h A B c) : base ≠ c.1 ∧ ∀ b ∈ A ++ B, b.1 ≠ c.1 := by
  obtain ⟨h1, h2, h3⟩ := hp.between
  refine ⟨h1.ne, fun b hb => ?_⟩
  rcases List.mem_append.1 hb with hb | hb
  · exact (h2 b hb).ne
  · exact (h3 b hb).ne'

/-- the pointers of `A` are not touched when only `c`'s changes -/
theorem Place.linksA (hp : Place base h A B c) {h' : Heap} (he : ∀ a, a ≠ c.1 → h'.ptr a = h.ptr a) :
    ∃ q, Links h' base A q := by
  refine ⟨_, (links_append.1 hp.ring.links).1.congr fun a ha => he a ?_⟩
  rcases List.mem_cons.1 ha with rfl | ha
  · exact hp.ne.1
  · obtain ⟨b, hb, rfl⟩ := List.mem_map.1 ha
    exact hp.ne.2 b (List.mem_append_left _ hb)

theorem Place.link (hp : Place base h A B c) (hB : ∀ b ∈ B, fin c < b.1) :
    Placed base (h.setPtr c.1 (h.ptr (lastOf base A))) A B c := by
  obtain ⟨hoA, hoB, hAB⟩ := List.pairwise_append.1 hp.ring.ordered
  have hlB := (links_append.1 hp.ring.links).2
  refine
    { linksA := hp.linksA fun a ha => update_of_ne ha _ _
      linksB := ?_
      sizes := forall_mem_middle hp.ring.sizes hp.size
      empty := hp.ring.empty
      pos := forall_mem_middle hp.ring.pos hp.pos
      above := forall_mem_middle hp.ring.above hp.above
      orderedA := hoA
      orderedB := List.pairwise_cons.2 ⟨hB, hoB⟩
      low := hp.low
      small := (hp.small c (by simp)).trans (by decide)
      smallA := fun b hb => hp.small b (List.mem_append_left _ hb) }
  exact hlB.from_eq (update_self _ _ _) fun b hb =>
    update_of_ne (hp.ne.2 b (List.mem_append_right _ hb)) _ _

theorem Place.takeIn {m : ℕ} (hp : Place base h A ((fin c, m) :: B) c) :
    Placed base ((h.setSize c.1 (c.2 + m)).setPtr c.1 (h.ptr (fin c))) A B (c.1, c.2 + m) := by
  obtain ⟨hoA, hoB, hAB⟩ := List.pairwise_append.1 hp.ring.ordered
  obtain ⟨hb, hoB⟩ := List.pairwise_cons.1 hoB
  have hlB : Links h (fin c) B base := (links_append.1 hp.ring.links).2.2
  have hsmall : c.2 + m ≤ 2 ^ 31 := by
    have hc := hp.small c (by simp)
    have hm := hp.small (fin c, m) (by simp)
    dsimp only at hm
    omega
  have hfin : fin (c.1, c.2 + m) = fin (fin c, m) := by
    simp only [fin, unit]
    omega
  have hsize : (c.2 + m) % 2 ^ 32 = c.2 + m := Nat.mod_eq_of_lt (by omega)
  have hin : ∀ b ∈ A ++ B, b ∈ A ++ (fin c, m) :: B := fun b hb => by
    simp only [List.mem_append, List.mem_cons] at hb ⊢
    exact hb.imp_right .inr
  refine
    { linksA := hp.linksA fun a ha => update_of_ne ha _ _
      linksB := ?_
      sizes := forall_mem_middle (fun b hb => ?_) ?_
      empty := ?_
      pos := forall_mem_middle (fun b hb => hp.ring.pos b (hin b hb)) (by have := hp.pos; omega)
      above := forall_mem_middle (fun b hb => hp.ring.above b (hin b hb)) hp.above
      orderedA := hoA
      orderedB := List.pairwise_cons.2 ⟨fun d hd => ?_, hoB⟩
      low := hp.low
      small := hsmall
      smallA := fun b hb => hp.small b (List.mem_append_left _ hb) }
  · refine hlB.from_eq (update_self _ _ _) fun d hd => update_of_ne ?_ _ _
    exact hp.ne.2 d (List.mem_append_right _ (List.mem_cons_of_mem _ hd))
  · rw [Heap.setPtr_size, Heap.setSize_size, update_of_ne (hp.ne.2 b (hin b hb))]
    exact hp.ring.sizes b (hin b hb)
  · show update _ _ _ _ = _
    rw [update_self]
    exact hsize
  · show update _ _ _ _ = _
    rw [update_of_ne hp.ne.1]
    exact hp.ring.empty
  · rw [hfin]
    exact hb d hd

/-- **the first `if`**: the block and what it took in -/
theorem Place.next (hp : Place base h A B c) :
    ∃ n B', Placed base (joinNext h c.1 (lastOf base A)) A B' (c.1, n) ∧ c.2 ≤ n ∧
      (∀ a, a ≠ c.1 → (joinNext h c.1 (lastOf base A)).size a = h.size a) ∧
      ∀ L M, Tiles unit ((A ++ B) ++ c :: L) M → Tiles unit ((A ++ (c.1, n) :: B') ++ L) M := by
  have hnext : h.ptr (lastOf base A) = firstOf base B := (links_append.1 hp.ring.links).2.first
  have hmove : ∀ (B' L : List Block) (d : Block), ((A ++ B') ++ d :: L).Perm ((A ++ d :: B') ++ L) := by
    intro B' L d
    simp only [List.append_assoc, List.cons_append]
    exact List.Perm.append_left A List.perm_middle
  unfold joinNext
  rw [hp.size]
  by_cases ht : c.1 + unit * c.2 = h.ptr (lastOf base A)
  · rw [if_pos ht]
    rw [hnext] at ht ⊢
    cases B with
    | nil =>
      -- `base` is below every block
      have := hp.above
      simp only [firstOf, unit] at ht this
      omega
    | cons b B =>
      obtain ⟨b, m⟩ := b
      obtain rfl : b = fin c := ht.symm
      have hm : h.size (fin c) = m :=
        hp.ring.sizes (fin c, m) (List.mem_append_right _ List.mem_cons_self)
      show ∃ n B', Placed base ((h.setSize c.1 (c.2 + h.size (fin c))).setPtr c.1 (h.ptr (fin c))) A B'
        (c.1, n) ∧ _
      rw [hm]
      refine ⟨c.2 + m, B, hp.takeIn, Nat.le_add_right _ _, fun a ha => ?_, fun L M hT => ?_⟩
      · exact update_of_ne ha _ _
      · have hk : 0 < unit := by decide
        have h1 : ((A ++ (fin c, m) :: B) ++ c :: L).Perm (c :: (fin c, m) :: ((A ++ B) ++ L)) := by
          refine List.perm_middle.trans (.cons _ ?_)
          simp only [List.append_assoc, List.cons_append]
          exact List.perm_middle
        have h2 : ((A ++ B) ++ (c.1, c.2 + m) :: L).Perm ((c.1, c.2 + m) :: ((A ++ B) ++ L)) :=
          List.perm_middle
        exact ((hT.perm h1).merge hk).perm (h2.symm.trans (hmove B L _))
  · rw [if_neg ht]
    refine ⟨c.2, B, hp.link fun b hb => ?_, le_rfl, fun a _ => rfl, fun L M hT => hT.perm (hmove B L c)⟩
    rw [hnext] at ht
    cases B with
    | nil => cases hb
    | cons d B =>
      have hd : fin c < d.1 := lt_of_le_of_ne (hp.high d List.mem_cons_self) ht
      rcases List.mem_cons.1 hb with rfl | hb
      · exact hd
      · have := (List.pairwise_cons.1 (List.pairwise_append.1 hp.ring.ordered).2.1).1 b hb
        unfold fin at *
        omega

theorem Placed.link (hp : Placed base h A B c) (hA : ∀ b ∈ A, fin b < c.1) :
    Ring base ((h.setPtr (lastOf base A) c.1).setFreep (lastOf base A)) (A ++ c :: B) := by
  obtain ⟨hc, hoB⟩ := List.pairwise_cons.1 hp.orderedB
  have hord : (A ++ c :: B).Pairwise fun b c => fin b < c.1 := by
    refine List.pairwise_append.2 ⟨hp.orderedA, hp.orderedB, fun b hb d hd => ?_⟩
    rcases List.mem_cons.1 hd with rfl | hd
    · exact hA b hb
    · have h1 := hA b hb
      have h2 := hc d hd
      unfold fin at *
      omega
  have hnd : (base :: (A ++ c :: B).map Prod.fst).Nodup := nodup_headers hp.above hord
  have hlast : ∀ a ∈ (c :: B).map Prod.fst, a ≠ lastOf base A := by
    intro a ha e
    rw [List.map_append, ← List.cons_append] at hnd
    exact (List.disjoint_of_nodup_append hnd) (e ▸ lastOf_mem base A) ha
  refine
    { links := ?_
      freep := ?_
      sizes := hp.sizes
      empty := hp.empty
      pos := hp.pos
      above := hp.above
      ordered := hord }
  · obtain ⟨q, hq⟩ := hp.linksA
    refine links_append.2 ⟨hq.setLast ?_ (update_self _ _ _) fun a _ ha =>
      update_of_ne ha _ _, update_self _ _ _, ?_⟩
    · rw [List.map_append, ← List.cons_append] at hnd
      exact hnd.of_append_left
    · exact hp.linksB.congr fun a ha => update_of_ne (hlast a ha) _ _
  · show lastOf base A ∈ _
    rw [List.map_append, ← List.cons_append]
    exact List.mem_append_left _ (lastOf_mem base A)

theorem Placed.takenIn {b : Block} (hp : Placed base h (A ++ [b]) B c) (ht : fin b = c.1) :
    Ring base (((h.setSize b.1 (b.2 + c.2)).setPtr b.1 (h.ptr c.1)).setFreep b.1)
      (A ++ (b.1, b.2 + c.2) :: B) := by
  obtain ⟨hc, hoB⟩ := List.pairwise_cons.1 hp.orderedB
  obtain ⟨hoA, -, hAb⟩ := List.pairwise_append.1 hp.orderedA
  have hAb : ∀ a ∈ A, fin a < b.1 := fun a ha => hAb a ha b (List.mem_singleton_self b)
  have hfin : fin (b.1, b.2 + c.2) = fin c := by
    simp only [fin, unit] at ht ⊢
    omega
  have hin : ∀ d ∈ A ++ B, d ∈ (A ++ [b]) ++ c :: B := fun d hd => by
    simp only [List.mem_append, List.mem_cons] at hd ⊢
    tauto
  have hb : b ∈ (A ++ [b]) ++ c :: B := by simp
  have hord : (A ++ (b.1, b.2 + c.2) :: B).Pairwise fun b c => fin b < c.1 := by
    refine List.pairwise_append.2 ⟨hoA, List.pairwise_cons.2 ⟨fun d hd => ?_, hoB⟩, fun a ha d hd => ?_⟩
    · rw [hfin]
      exact hc d hd
    · rcases List.mem_cons.1 hd with rfl | hd
      · exact hAb a ha
      · have h1 := hAb a ha
        have h2 := hc d hd
        unfold fin at *
        omega
  have habove : ∀ d ∈ A ++ (b.1, b.2 + c.2) :: B, base + unit ≤ d.1 :=
    forall_mem_middle (fun d hd => hp.above d (hin d hd)) (hp.above b hb)
  have hnd := nodup_headers habove hord
  simp only [List.map_append, List.map_cons] at hnd
  obtain ⟨hbase, hnd⟩ := List.nodup_cons.1 hnd
  -- no other header is the one that changes
  have hne : ∀ d ∈ A ++ B, d.1 ≠ b.1 := by
    intro d hd e
    have := (List.nodup_middle.1 hnd)
    refine (List.nodup_cons.1 this).1 ?_
    rw [← List.map_append, ← e]
    exact List.mem_map_of_mem hd
  have hbne : base ≠ b.1 := fun e => hbase (by simp [e])
  have hsize : (b.2 + c.2) % 2 ^ 32 = b.2 + c.2 := by
    apply Nat.mod_eq_of_lt
    have h1 := hp.small
    have h2 := hp.smallA b (by simp)
    omega
  refine
    { links := ?_
      freep := by simp
      sizes := forall_mem_middle (fun d hd => ?_) ((update_self _ _ _).trans hsize)
      empty := (update_of_ne hbne _ _).trans hp.empty
      pos := forall_mem_middle (fun d hd => hp.pos d (hin d hd)) (by have := hp.pos b hb; omega)
      above := habove
      ordered := hord }
  · obtain ⟨q, hq⟩ := hp.linksA
    refine links_append.2 ⟨(links_append.1 hq).1.congr fun a ha => update_of_ne ?_ _ _, ?_, ?_⟩
    · rcases List.mem_cons.1 ha with rfl | ha
      · exact hbne
      · obtain ⟨d, hd, rfl⟩ := List.mem_map.1 ha
        exact hne d (List.mem_append_left _ hd)
    · have hbA : b.1 ≠ lastOf base A := fun e => by
        have := lastOf_mem base A
        rw [← e] at this
        rcases List.mem_cons.1 this with e | e
        · exact hbne e.symm
        · obtain ⟨d, hd, e⟩ := List.mem_map.1 e
          exact hne d (List.mem_append_left _ hd) e
      exact (update_of_ne hbA.symm _ _).trans (links_append.1 hq).2.1
    · exact hp.linksB.from_eq (update_self _ _ _) fun d hd =>
        update_of_ne (hne d (List.mem_append_right _ hd)) _ _
  · refine (update_of_ne (hne d hd) _ _).trans (hp.sizes d (hin d hd))

/-- **the second `if`**: the ring with the block in it -/
theorem Placed.prev (hp : Placed base h A B c) :
    ∃ F, Ring base ((joinPrev h c.1 (lastOf base A)).setFreep (lastOf base A)) F ∧
      (∃ b ∈ F, c.2 ≤ b.2) ∧
      (∀ a, a ∉ A.map Prod.fst → (joinPrev h c.1 (lastOf base A)).size a = h.size a) ∧
      ∀ L M, Tiles unit ((A ++ c :: B) ++ L) M → Tiles unit (F ++ L) M := by
  have hc : h.size c.1 = c.2 := hp.sizes c (by simp)
  have hbase := hp.above c (by simp)
  have hu : unit = 16 := rfl
  unfold joinPrev
  rw [hc]
  rcases List.eq_nil_or_concat A with rfl | ⟨A, b, rfl⟩
  · have hne : ¬ base + unit * h.size base = c.1 := by
      rw [hp.empty]
      omega
    rw [show lastOf base [] = base from rfl, if_neg hne]
    exact ⟨[] ++ c :: B, hp.link (fun b hb => nomatch hb), ⟨c, by simp, le_rfl⟩, fun a _ => rfl,
      fun L M hT => hT⟩
  rw [List.concat_eq_append] at hp ⊢
  have hb : h.size b.1 = b.2 := hp.sizes b (by simp)
  have hlast : lastOf base (A ++ [b]) = b.1 := lastOf_append base A b []
  rw [hlast, hb]
  by_cases ht : b.1 + unit * b.2 = c.1
  · rw [if_pos ht]
    refine ⟨A ++ (b.1, b.2 + c.2) :: B, hp.takenIn ht, ⟨(b.1, b.2 + c.2), by simp, ?_⟩, fun a ha => ?_,
      fun L M hT => ?_⟩
    · exact Nat.le_add_left _ _
    · exact update_of_ne (fun e => ha (by simp [e])) _ _
    · obtain ⟨a, n⟩ := c
      obtain rfl : b.1 + unit * b.2 = a := ht
      have h1 : (((A ++ [b]) ++ (b.1 + unit * b.2, n) :: B) ++ L).Perm
          (b :: (b.1 + unit * b.2, n) :: ((A ++ B) ++ L)) := by
        simp only [List.append_assoc, List.cons_append, List.nil_append]
        refine List.perm_middle.trans (.cons _ ?_)
        exact List.perm_middle
      have h2 : ((A ++ (b.1, b.2 + n) :: B) ++ L).Perm ((b.1, b.2 + n) :: ((A ++ B) ++ L)) := by
        simp only [List.append_assoc, List.cons_append]
        exact List.perm_middle
      exact ((hT.perm h1).merge (by decide)).perm h2.symm
  · rw [if_neg ht]
    refine ⟨(A ++ [b]) ++ c :: B, ?_, ⟨c, by simp, le_rfl⟩, fun a _ => rfl, fun L M hT => hT⟩
    have := hp.link fun d hd => ?_
    · rwa [hlast] at this
    · have hlt : fin b < c.1 := lt_of_le_of_ne (hp.low b (by simp)) ht
      rcases List.mem_append.1 hd with hd | hd
      · have h1 := (List.pairwise_append.1 hp.orderedA).2.2 d hd b (List.mem_singleton_self b)
        unfold fin at *
        omega
      · rw [List.mem_singleton.1 hd]
        exact hlt

end join

/-! ### A block put back -/

section put
variable {base : ℕ} {h : Heap} {F L : List Block} {M : Set ℕ} {c : Block}

theorem exists_split (a : ℕ) (ho : F.Pairwise fun b c => fin b < c.1) :
    ∃ A B, F = A ++ B ∧ (∀ b ∈ A, b.1 < a) ∧ ∀ b ∈ B, a ≤ b.1 := by
  induction F with
  | nil => exact ⟨[], [], rfl, by simp, by simp⟩
  | cons b F ih =>
    obtain ⟨hb, ho⟩ := List.pairwise_cons.1 ho
    by_cases hba : b.1 < a
    · obtain ⟨A, B, rfl, hA, hB⟩ := ih ho
      refine ⟨b :: A, B, rfl, fun d hd => ?_, hB⟩
      rcases List.mem_cons.1 hd with rfl | hd
      · exact hba
      · exact hA d hd
    · refine ⟨[], b :: F, rfl, by simp, fun d hd => ?_⟩
      rcases List.mem_cons.1 hd with rfl | hd
      · exact not_lt.1 hba
      · have := hb d hd
        unfold fin at this
        omega

theorem tiles_ends {T : List Block} {lo hi : ℕ} (hT : Tiles unit T M) (hM : ∀ x ∈ M, lo ≤ x ∧ x < hi)
    {b : Block} (hb : b ∈ T) : lo ≤ b.1 ∧ fin b ≤ hi := by
  have hp := hT.pos b hb
  have hlo := hM b.1 ((hT.cover _).2 ⟨b, hb, le_rfl, by unfold unit; omega⟩)
  have hhi := hM (b.1 + unit * b.2 - 1) ((hT.cover _).2 ⟨b, hb, by unfold InBlock unit; omega⟩)
  unfold fin
  omega

theorem tiles_ne {a b : Block} {T : List Block} (hT : Tiles unit (a :: T) M) (hb : b ∈ T) : b.1 ≠ a.1 := by
  have h1 := hT.pos a List.mem_cons_self
  have h2 := hT.pos b (List.mem_cons_of_mem _ hb)
  have h3 := (List.pairwise_cons.1 hT.apart).1 b hb
  simp only [Apart, unit] at h3
  omega

theorem exists_place (hr : Ring base h F) (hT : Tiles unit (F ++ c :: L) M)
    (hM : ∀ x ∈ M, base + unit ≤ x ∧ x < 2 ^ 32) (hc : h.size c.1 = c.2) :
    ∃ A B, F = A ++ B ∧ Place base h A B c := by
  obtain ⟨A, B, rfl, hA, hB⟩ := exists_split c.1 hr.ordered
  have hcT : c ∈ (A ++ B) ++ c :: L := by simp
  have hpos := hT.pos c hcT
  have hap : ∀ b ∈ A ++ B, Apart unit b c := fun b hb =>
    (List.pairwise_append.1 hT.apart).2.2 b hb c List.mem_cons_self
  refine ⟨A, B, rfl, ?_⟩
  refine
    { ring := hr
      size := hc
      pos := hpos
      above := (tiles_ends hT hM hcT).1
      low := fun b hb => ?_
      high := fun b hb => ?_
      small := fun b hb => ?_ }
  · have h1 := hA b hb
    have h2 := hap b (List.mem_append_left _ hb)
    simp only [Apart, fin, unit] at h2 ⊢
    omega
  · have h1 := hB b hb
    have h2 := hap b (List.mem_append_right _ hb)
    have h3 := hr.pos b (List.mem_append_right _ hb)
    simp only [Apart, fin, unit] at h2 ⊢
    omega
  · have hbT : b ∈ (A ++ B) ++ c :: L := by
      simp only [List.mem_cons, List.mem_append] at hb ⊢
      tauto
    have hend := tiles_ends hT hM hbT
    simp only [fin, unit] at hend
    omega

/-- **`free`**: it returns, the block is on the list, the other blocks are as they were -/
theorem free_ring (hr : Ring base h F) (hT : Tiles unit (F ++ c :: L) M)
    (hM : ∀ x ∈ M, base + unit ≤ x ∧ x < 2 ^ 32) (hc : h.size c.1 = c.2) :
    ∃ h' F', (∀ fuel, F.length + 3 ≤ fuel → free fuel h (c.1 + unit) = some h') ∧ Ring base h' F' ∧
      Tiles unit (F' ++ L) M ∧ (∃ b ∈ F', c.2 ≤ b.2) ∧ ∀ b ∈ L, h'.size b.1 = h.size b.1 := by
  obtain ⟨A, B, rfl, hp⟩ := exists_place hr hT hM hc
  obtain ⟨n, B', hpl, hn, hsz, hT1⟩ := hp.next
  obtain ⟨F', hring, ⟨b, hb, hbn⟩, hsz', hT2⟩ := hpl.prev
  refine ⟨_, F', fun fuel hf => ?_, hring, hT2 L M (hT1 L M hT), ⟨b, hb, hn.trans hbn⟩, fun d hd => ?_⟩
  · rw [List.length_append] at hf
    simp only [free, Nat.add_sub_cancel, hp.search hf, Option.map_some]
  · have hT3 : Tiles unit (c :: ((A ++ B) ++ L)) M := hT.perm List.perm_middle
    have hdc : d.1 ≠ c.1 := tiles_ne hT3 (List.mem_append_right _ hd)
    refine (hsz' d.1 fun hA => ?_).trans (hsz d.1 hdc)
    obtain ⟨a, ha, e⟩ := List.mem_map.1 hA
    have hap := (List.pairwise_append.1 hT.apart).2.2 a (List.mem_append_left _ ha) d
      (List.mem_cons_of_mem _ hd)
    have h1 := hT.pos a (by simp [ha])
    have h2 := hT.pos d (by simp [hd])
    simp only [Apart, unit] at hap
    omega

end put

/-! ## `malloc` -/

section take
variable {base n prevp : ℕ} {h : Heap} {F A B : List Block} {b : Block}

/-- the header that points to a block of the list is the one before it -/
theorem Ring.pred (hr : Ring base h (A ++ b :: B)) (hm : prevp ∈ base :: (A ++ b :: B).map Prod.fst)
    (hp : h.ptr prevp = b.1) : prevp = lastOf base A := by
  have hnd := hr.nodup
  obtain ⟨X, Y, hXY, rfl⟩ : ∃ X Y, A ++ b :: B = X ++ Y ∧ prevp = lastOf base X := by
    rcases List.mem_cons.1 hm with rfl | hm
    · exact ⟨[], _, rfl, rfl⟩
    · obtain ⟨d, hd, rfl⟩ := List.mem_map.1 hm
      obtain ⟨X, Y, e⟩ := List.append_of_mem hd
      exact ⟨X ++ [d], Y, by simpa using e, (lastOf_append base X d []).symm⟩
  have hl := hr.links
  rw [hXY] at hl
  have hf := (links_append.1 hl).2.first
  rw [hp] at hf
  cases Y with
  | nil =>
    -- the last header points to `base`
    have := hr.above b (by simp)
    have hu : unit = 16 := rfl
    have hf : b.1 = base := hf
    omega
  | cons d Y =>
    have hd : b.1 = d.1 := hf
    have hnd := (List.nodup_cons.1 hnd).2
    have hbd : b = d :=
      List.inj_on_of_nodup_map hnd (by simp) (by rw [hXY]; simp) hd
    subst hbd
    have hb := (List.nodup_cons.1 (List.nodup_middle.1 (List.Nodup.of_map _ hnd))).1
    rw [List.mem_append, not_or] at hb
    rw [((List.append_cons_inj_of_notMem hb.1 hb.2).1 hXY).1]

theorem mem_of_mem_sides {d : Block} (hd : d ∈ A ++ B) : d ∈ A ++ b :: B := by
  simp only [List.mem_append, List.mem_cons] at hd ⊢
  exact hd.imp_right .inr

theorem Ring.unlink (hr : Ring base h (A ++ b :: B)) :
    Ring base ((h.setPtr (lastOf base A) (h.ptr b.1)).setFreep (lastOf base A)) (A ++ B) := by
  have hl := links_append.1 hr.links
  have hnd := hr.nodup
  rw [List.map_append, ← List.cons_append] at hnd
  have hlast : ∀ d ∈ b :: B, d.1 ≠ lastOf base A := fun d hd e =>
    List.disjoint_of_nodup_append hnd (e ▸ lastOf_mem base A) (List.mem_map_of_mem hd)
  refine
    { links := ?_
      freep := ?_
      sizes := fun d hd => hr.sizes d (mem_of_mem_sides hd)
      empty := hr.empty
      pos := fun d hd => hr.pos d (mem_of_mem_sides hd)
      above := fun d hd => hr.above d (mem_of_mem_sides hd)
      ordered := hr.ordered.sublist (List.Sublist.append_left (List.sublist_cons_self b B) A) }
  · have hB : h.ptr b.1 = firstOf base B := hl.2.2.first
    refine links_append.2 ⟨hl.1.setLast hnd.of_append_left ?_ fun a _ ha => update_of_ne ha _ _, ?_⟩
    · exact (update_self _ _ _).trans hB
    · refine hl.2.2.from_eq (update_self _ _ _) fun d hd => update_of_ne ?_ _ _
      exact hlast d (List.mem_cons_of_mem _ hd)
  · show lastOf base A ∈ _
    rw [List.map_append, ← List.cons_append]
    exact List.mem_append_left _ (lastOf_mem base A)

theorem Ring.shrink (hr : Ring base h (A ++ b :: B)) (hn : 0 < n) (hb : n < b.2) (hb32 : b.2 < 2 ^ 32) :
    Ring base (((h.setSize b.1 (b.2 - n)).setSize (b.1 + unit * (b.2 - n)) n).setFreep (lastOf base A))
      (A ++ (b.1, b.2 - n) :: B) := by
  obtain ⟨hoA, hoB, hAB⟩ := List.pairwise_append.1 hr.ordered
  obtain ⟨hbB, hoB⟩ := List.pairwise_cons.1 hoB
  have hsub : unit * (b.2 - n) ≤ unit * b.2 := Nat.mul_le_mul_left _ (by omega)
  have hpos : 0 < unit * (b.2 - n) := Nat.mul_pos (by decide) (by omega)
  have hbase := hr.above b (by simp)
  have hu : unit = 16 := rfl
  -- the new header is inside of the block
  have hin : ∀ d ∈ A ++ B, d.1 ≠ b.1 ∧ d.1 ≠ b.1 + unit * (b.2 - n) := by
    intro d hd
    rcases List.mem_append.1 hd with hd | hd
    · have h1 := hAB d hd b List.mem_cons_self
      have h2 := hr.pos d (List.mem_append_left _ hd)
      simp only [fin] at h1
      omega
    · have h1 := hbB d hd
      simp only [fin, unit] at h1 hsub hpos ⊢
      omega
  refine
    { links := ?_
      freep := ?_
      sizes := forall_mem_middle (fun d hd => ?_) ?_
      empty := ?_
      pos := forall_mem_middle (fun d hd => hr.pos d (mem_of_mem_sides hd)) (Nat.sub_pos_of_lt hb)
      above := forall_mem_middle (fun d hd => hr.above d (mem_of_mem_sides hd)) hbase
      ordered := List.pairwise_append.2 ⟨hoA, List.pairwise_cons.2 ⟨fun d hd => ?_, hoB⟩, fun a ha d hd => ?_⟩ }
  · have hl := links_append.1 hr.links
    exact links_append.2 ⟨hl.1.congr fun a _ => rfl, hl.2.1, hl.2.2.congr fun a _ => rfl⟩
  · show lastOf base A ∈ _
    rw [List.map_append, ← List.cons_append]
    exact List.mem_append_left _ (lastOf_mem base A)
  · simp only [Heap.setFreep_size, Heap.setSize_size]
    rw [update_of_ne (hin d hd).2, update_of_ne (hin d hd).1]
    exact hr.sizes d (mem_of_mem_sides hd)
  · simp only [Heap.setFreep_size, Heap.setSize_size]
    rw [update_of_ne (by omega), update_self]
    exact Nat.mod_eq_of_lt (by omega)
  · simp only [Heap.setFreep_size, Heap.setSize_size]
    rw [update_of_ne (by omega), update_of_ne (by omega)]
    exact hr.empty
  · have h1 := hbB d hd
    simp only [fin] at h1 ⊢
    omega
  · rcases List.mem_cons.1 hd with rfl | hd
    · exact hAB a ha b List.mem_cons_self
    · exact hAB a ha d (List.mem_cons_of_mem _ hd)

/-- **a large enough block**: `malloc` takes it, or its tail -/
theorem Ring.taken (hr : Ring base h (A ++ b :: B)) (hn : 0 < n) (hb : n ≤ b.2) (hb32 : b.2 < 2 ^ 32) :
    ∃ r F', (take h n (lastOf base A) b.1).1 = r + unit ∧ Ring base (take h n (lastOf base A) b.1).2 F' ∧
      (take h n (lastOf base A) b.1).2.size r = n ∧
      (∀ a, a < b.1 ∨ fin b ≤ a → (take h n (lastOf base A) b.1).2.size a = h.size a) ∧
      ∀ L M, Tiles unit ((A ++ b :: B) ++ L) M → Tiles unit (F' ++ (r, n) :: L) M := by
  have hs : h.size b.1 = b.2 := hr.sizes b (by simp)
  unfold take
  rw [hs]
  have hperm : ∀ (d : Block) L, ((A ++ d :: B) ++ L).Perm (d :: ((A ++ B) ++ L)) := fun d L => by
    simp only [List.append_assoc, List.cons_append]
    exact List.perm_middle
  by_cases he : b.2 = n
  · rw [if_pos he]
    refine ⟨b.1, A ++ B, rfl, hr.unlink, hs.trans he, fun a _ => rfl, fun L M hT => ?_⟩
    subst he
    exact (hT.perm (hperm b L)).perm List.perm_middle.symm
  · rw [if_neg he]
    have hlt : n < b.2 := lt_of_le_of_ne hb (Ne.symm he)
    have hmod : (b.2 - n) % 2 ^ 32 = b.2 - n := Nat.mod_eq_of_lt (by omega)
    have hsub : (h.setSize b.1 (b.2 - n)).size b.1 = b.2 - n := by
      rw [Heap.setSize_size, update_self, hmod]
    simp only [hsub]
    refine ⟨b.1 + unit * (b.2 - n), A ++ (b.1, b.2 - n) :: B, rfl, hr.shrink hn hlt hb32, ?_, fun a ha => ?_,
      fun L M hT => ?_⟩
    · show update _ _ _ _ = _
      rw [update_self]
      exact Nat.mod_eq_of_lt (by omega)
    · have hpos : 0 < unit * (b.2 - n) := Nat.mul_pos (by decide) (by omega)
      simp only [fin, unit] at ha hpos
      simp only [Heap.setFreep_size, Heap.setSize_size]
      rw [update_of_ne (by unfold unit; omega), update_of_ne (by omega)]
    · have e : b = (b.1, (b.2 - n) + n) := Prod.ext rfl (Nat.sub_add_cancel hb).symm
      have h1 := hT.perm (hperm b L)
      rw [e] at h1
      have h2 := h1.split (by decide) (by omega) hn
      refine h2.perm ?_
      refine List.Perm.trans ?_ List.perm_middle.symm
      refine (List.Perm.swap _ _ _).trans (.cons _ ?_)
      exact (hperm _ L).symm

end take

section look
variable {base : ℕ} {h : Heap} {F : List Block}

/-- what `malloc` does at `freep` if no block is large enough -/
def grow (n k : ℕ) (h : Heap) (os : Os) : Option (ℕ × Heap × Os) :=
  (morecore k h os n).bind fun (p, h, os) =>
    if p = 0 then some (0, h, os) else mallocLoop n k h os p (h.ptr p)

/-- the loop along the headers from `prevp` to `freep`: it takes the first large enough block -/
theorem mallocLoop_look (n : ℕ) (os : Os) {e : Block} (he : e.1 = h.freep) (R : List Block) {prevp q : ℕ}
    (hl : Links h prevp (R ++ [e]) q) (hs : ∀ b ∈ R ++ [e], h.size b.1 = b.2)
    (hR : ∀ b ∈ R, b.1 ≠ h.freep) :
    (∃ R1 b R2, R ++ [e] = R1 ++ b :: R2 ∧ n ≤ b.2 ∧ ∀ k,
      mallocLoop n (R.length + 1 + k) h os prevp (h.ptr prevp) =
        some ((take h n (lastOf prevp R1) b.1).1, (take h n (lastOf prevp R1) b.1).2, os)) ∨
    ((∀ b ∈ R ++ [e], b.2 < n) ∧ ∀ k,
      mallocLoop n (R.length + 1 + k) h os prevp (h.ptr prevp) = grow n k h os) := by
  induction R generalizing prevp with
  | nil =>
    have hp : h.ptr prevp = e.1 := hl.1
    have hse := hs e (by simp)
    have hk : ∀ k, ([] : List Block).length + 1 + k = k + 1 := fun k => by simp; omega
    by_cases hn : n ≤ e.2
    · refine .inl ⟨[], e, [], rfl, hn, fun k => ?_⟩
      rw [hk, mallocLoop, hp, hse, if_pos hn]
      rfl
    · refine .inr ⟨fun b hb => ?_, fun k => ?_⟩
      · rw [List.nil_append, List.mem_singleton] at hb
        rw [hb]
        exact not_le.1 hn
      · rw [hk, mallocLoop, hp, hse, if_neg hn, if_pos he]
        rfl
  | cons b R ih =>
    obtain ⟨hp, hl⟩ := hl
    have hsb := hs b (by simp)
    have hk : ∀ k, (b :: R).length + 1 + k = R.length + 1 + k + 1 := fun k => by simp; omega
    by_cases hn : n ≤ b.2
    · refine .inl ⟨[], b, R ++ [e], rfl, hn, fun k => ?_⟩
      rw [hk, mallocLoop, hp, hsb, if_pos hn]
      rfl
    · have hstep : ∀ k, mallocLoop n ((b :: R).length + 1 + k) h os prevp (h.ptr prevp) =
          mallocLoop n (R.length + 1 + k) h os b.1 (h.ptr b.1) := fun k => by
        rw [hk, mallocLoop, hp, hsb, if_neg hn, if_neg (hR b List.mem_cons_self)]
      rcases ih hl (fun d hd => hs d (List.mem_cons_of_mem _ hd))
        (fun d hd => hR d (List.mem_cons_of_mem _ hd)) with ⟨R1, d, R2, hR2, hd, hrun⟩ | ⟨hall, hrun⟩
      · refine .inl ⟨b :: R1, d, R2, ?_, hd, fun k => (hstep k).trans (hrun k)⟩
        rw [List.cons_append, hR2]
        rfl
      · refine .inr ⟨fun d hd => ?_, fun k => (hstep k).trans (hrun k)⟩
        rcases List.mem_cons.1 hd with rfl | hd
        · exact not_le.1 hn
        · exact hall d hd

theorem Ring.around (hr : Ring base h F) : ∃ R e, e.1 = h.freep ∧ (R ++ [e]).Perm ((base, 0) :: F) ∧
    ∃ q, Links h h.freep (R ++ [e]) q := by
  rcases List.mem_cons.1 hr.freep with hf | hf
  · refine ⟨F, (base, 0), hf.symm, ?_, _, links_append.2 ⟨?_, ?_, rfl⟩⟩
    · exact List.perm_append_singleton _ _
    · rw [hf]
      exact hr.links
    · rw [hf]
      exact hr.links.last
  · obtain ⟨b, hb, hbf⟩ := List.mem_map.1 hf
    obtain ⟨A, B, rfl⟩ := List.append_of_mem hb
    obtain ⟨hA, hB⟩ := links_append.1 hr.links
    refine ⟨B ++ (base, 0) :: A, b, hbf, ?_, h.ptr b.1, ?_⟩
    · simp only [List.append_assoc, List.cons_append]
      refine List.perm_middle.trans (.cons _ ?_)
      refine (List.perm_append_comm_assoc B A [b]).trans (.append_left A ?_)
      exact List.perm_append_singleton b B
    · rw [← hbf]
      simp only [List.append_assoc, List.cons_append]
      refine links_append.2 ⟨hB.2, ?_, links_append.2 ⟨hA, ?_, rfl⟩⟩
      · exact hB.2.last
      · exact hB.1

/-- **the search of `malloc`**: a block of the list that is large enough, with the header before it, or
none and more memory is asked for -/
theorem Ring.look (hr : Ring base h F) {n : ℕ} (hn : 0 < n) (os : Os) :
    (∃ A b B, F = A ++ b :: B ∧ n ≤ b.2 ∧ ∀ k, F.length + 1 ≤ k →
      mallocLoop n k h os h.freep (h.ptr h.freep) =
        some ((take h n (lastOf base A) b.1).1, (take h n (lastOf base A) b.1).2, os)) ∨
    ((∀ b ∈ F, b.2 < n) ∧ ∀ k,
      mallocLoop n (F.length + 1 + k) h os h.freep (h.ptr h.freep) = grow n k h os) := by
  obtain ⟨R, e, he, hperm, q, hl⟩ := hr.around
  have hlen : R.length = F.length := by
    have := hperm.length_eq
    simpa using this
  have hs : ∀ b ∈ R ++ [e], h.size b.1 = b.2 := fun b hb => by
    rcases List.mem_cons.1 (hperm.mem_iff.1 hb) with rfl | hb
    · exact hr.empty
    · exact hr.sizes b hb
  have hnd : ((R ++ [e]).map Prod.fst).Nodup :=
    ((hperm.map Prod.fst).nodup_iff).2 hr.nodup
  have hR : ∀ b ∈ R, b.1 ≠ h.freep := fun b hb e' => by
    rw [List.map_append] at hnd
    exact List.disjoint_of_nodup_append hnd (List.mem_map_of_mem hb) (by simp [he, e'])
  rcases mallocLoop_look n os he R hl hs hR with ⟨R1, b, R2, hR1, hb, hrun⟩ | ⟨hall, hrun⟩
  · refine .inl ?_
    have hbm : b ∈ R ++ [e] := by rw [hR1]; simp
    have hbF : b ∈ F := by
      rcases List.mem_cons.1 (hperm.mem_iff.1 hbm) with rfl | hb'
      · dsimp only at hb
        omega
      · exact hb'
    obtain ⟨A, B, rfl⟩ := List.append_of_mem hbF
    refine ⟨A, b, B, rfl, hb, fun k hk => ?_⟩
    obtain ⟨j, rfl⟩ : ∃ j, k = R.length + 1 + j := ⟨k - (R.length + 1), by omega⟩
    -- the header before it on the way is the one before it on the list
    rw [hR1] at hl
    have hlast : lastOf h.freep R1 = lastOf base A := by
      refine hr.pred ?_ (links_append.1 hl).2.1
      rcases List.mem_cons.1 (lastOf_mem h.freep R1) with e' | e'
      · rw [e']
        exact hr.freep
      · obtain ⟨d, hd, e'⟩ := List.mem_map.1 e'
        have := (hperm.map Prod.fst).mem_iff.1 (show d.1 ∈ (R ++ [e]).map Prod.fst from
          List.mem_map_of_mem (by rw [hR1]; exact List.mem_append_left _ hd))
        rw [← e']
        exact this
    rw [hrun j, hlast]
  · refine .inr ⟨fun b hb => hall b (hperm.mem_iff.2 (List.mem_cons_of_mem _ hb)), fun k => ?_⟩
    rw [← hlen]
    exact hrun k

end look

/-! ### More memory -/

namespace Os
variable {os : Os} {n : CInt} {a : ℕ}

theorem sbrk_cases (os : Os) (hn : 0 < n.toInt) : os.sbrk n = (none, os.log n none) ∨
    ∃ a, os.brk ≤ a ∧ a + n.toNat ≤ PHYSTOP - KERNBASE ∧
      os.sbrk n = (some a, (os.log n (some a)).setBrk (a + n.toNat)) := by
  unfold sbrk
  dsimp only
  rw [if_pos hn]
  by_cases ha : (os.gap os.calls.length).isSome ∧
      os.brk + (os.gap os.calls.length).getD 0 + n.toNat ≤ PHYSTOP - KERNBASE
  · exact .inr ⟨_, Nat.le_add_right _ _, ha.2, if_pos ha⟩
  · exact .inl (if_neg ha)

theorem backs_of_le (h : a + unit ≤ os.brk) (hb : os.brk ≤ PHYSTOP - KERNBASE) : os.Backs a := by
  unfold Backs pgroundup pgrounddown
  unfold unit at h
  unfold PHYSTOP KERNBASE at hb
  unfold PGSIZE
  omega

theorem got_none (os : Os) (n : CInt) : (os.log n none).got = os.got := by
  ext x
  simp [got, log]

theorem got_some (os : Os) (n : CInt) (a b : ℕ) : got ((os.log n (some a)).setBrk b) =
    os.got ∪ {x | a ≤ x ∧ x < a + n.toNat} := by
  ext x
  simp only [got, log, setBrk, Set.mem_union, Set.mem_ofPred_eq, List.mem_append, List.mem_singleton,
    Prod.mk.injEq, Option.some.injEq]
  constructor
  · rintro ⟨m, c, hc | ⟨rfl, rfl⟩, hx⟩
    · exact .inl ⟨m, c, hc, hx⟩
    · exact .inr hx
  · rintro (⟨m, c, hc, hx⟩ | hx)
    · exact ⟨m, c, .inl hc, hx⟩
    · exact ⟨n, a, .inr ⟨rfl, rfl⟩, hx⟩

end Os

/-- **the heap**: the free list `F` and the blocks of the process are the memory from `sbrk` -/
structure Sound (base : ℕ) (h : Heap) (os : Os) (F live : List Block) : Prop where
  ring : Ring base h F
  tiles : Tiles unit (F ++ live) os.got
  sizes : ∀ b ∈ live, h.size b.1 = b.2
  range : ∀ x ∈ os.got, base + unit ≤ x ∧ x < os.brk ∧ x < PHYSTOP - KERNBASE
  brk : base + unit ≤ os.brk

section calls
variable {base n : ℕ} {h : Heap} {os : Os} {F live : List Block}

theorem Sound.lt (hs : Sound base h os F live) : ∀ x ∈ os.got, base + unit ≤ x ∧ x < 2 ^ 32 := by
  intro x hx
  have h1 := hs.range x hx
  have h2 : PHYSTOP - KERNBASE ≤ 2 ^ 32 := by decide
  omega

theorem Ring.freep_ne (hr : Ring base h F) (hb : 0 < base) : h.freep ≠ 0 := by
  intro e
  have hf := hr.freep
  rw [e] at hf
  rcases List.mem_cons.1 hf with e | e
  · omega
  · obtain ⟨b, hb, e⟩ := List.mem_map.1 e
    have := hr.above b hb
    omega

theorem Sound.take {A B : List Block} {b : Block} (hs : Sound base h os (A ++ b :: B) live) (hn : 0 < n)
    (hb : n ≤ b.2) : ∃ r F', (take h n (lastOf base A) b.1).1 = r + unit ∧
      Sound base (Umalloc.take h n (lastOf base A) b.1).2 os F' ((r, n) :: live) := by
  have hT : Tiles unit (b :: ((A ++ B) ++ live)) os.got := by
    refine hs.tiles.perm ?_
    simp only [List.append_assoc, List.cons_append]
    exact List.perm_middle
  have hb32 : b.2 < 2 ^ 32 := by
    have := (tiles_ends hT hs.lt List.mem_cons_self)
    simp only [fin, unit] at this
    omega
  obtain ⟨r, F', hr, hring, hsz, hkeep, hT'⟩ := hs.ring.taken hn hb hb32
  refine ⟨r, F', hr, ?_⟩
  refine
    { ring := hring
      tiles := hT' live _ hs.tiles
      sizes := fun d hd => ?_
      range := hs.range
      brk := hs.brk }
  rcases List.mem_cons.1 hd with rfl | hd
  · exact hsz
  · rw [hkeep d.1 ?_]
    · exact hs.sizes d hd
    · have h1 := (List.pairwise_cons.1 hT.apart).1 d (List.mem_append_right _ hd)
      have h2 := hT.pos d (List.mem_cons_of_mem _ (List.mem_append_right _ hd))
      simp only [Apart, fin, unit] at h1 ⊢
      omega

theorem Sound.failed (hs : Sound base h os F live) (m : CInt) : Sound base h (os.log m none) F live := by
  refine { hs with tiles := ?_, range := ?_ }
  · rw [Os.got_none]
    exact hs.tiles
  · rw [Os.got_none]
    exact hs.range

theorem Ring.setSize (hr : Ring base h F) {a : ℕ} (hb : base ≠ a) (hne : ∀ b ∈ F, b.1 ≠ a) (v : ℕ) :
    Ring base (h.setSize a v) F := by
  refine
    { hr with
      links := hr.links.congr fun _ _ => rfl
      sizes := fun b hb => ?_
      empty := ?_ }
  · rw [Heap.setSize_size, update_of_ne (hne b hb)]
    exact hr.sizes b hb
  · rw [Heap.setSize_size, update_of_ne hb]
    exact hr.empty

theorem Sound.more (hs : Sound base h os F live) {m : CInt} {a : ℕ} (hn : 0 < n) (hm : m.toNat = unit * n)
    (ha : os.brk ≤ a) (hlim : a + m.toNat ≤ PHYSTOP - KERNBASE) :
    Sound base (h.setSize a n) ((os.log m (some a)).setBrk (a + m.toNat)) F ((a, n) :: live) := by
  have hlt : ∀ x ∈ os.got, x < a := fun x hx => (hs.range x hx).2.1.trans_le ha
  have hbase := hs.brk
  have hu : unit = 16 := rfl
  have hne : ∀ b ∈ F ++ live, b.1 ≠ a := fun b hb => by
    have := (tiles_ends hs.tiles (fun x hx => ⟨Nat.zero_le x, hlt x hx⟩) hb).2
    have hp := hs.tiles.pos b hb
    simp only [fin, unit] at this
    omega
  have hlim' : PHYSTOP - KERNBASE ≤ 2 ^ 32 := by decide
  refine
    { ring := hs.ring.setSize (by omega) (fun b hb => hne b (List.mem_append_left _ hb)) n
      tiles := ?_
      sizes := fun b hb => ?_
      range := ?_
      brk := ?_ }
  · rw [Os.got_some, hm]
    exact (hs.tiles.add hn hlt (by decide)).perm List.perm_middle.symm
  · rcases List.mem_cons.1 hb with rfl | hb
    · rw [Heap.setSize_size, update_self]
      refine Nat.mod_eq_of_lt ?_
      rw [hm] at hlim
      unfold unit at hlim
      omega
    · rw [Heap.setSize_size, update_of_ne (hne b (List.mem_append_right _ hb))]
      exact hs.sizes b hb
  · rw [Os.got_some]
    rintro x (hx | hx)
    · have := hs.range x hx
      have := hlt x hx
      simp only [Os.setBrk]
      omega
    · obtain ⟨h1, h2⟩ := hx
      simp only [Os.setBrk]
      omega
  · simp only [Os.setBrk]
    omega

theorem Sound.free {c : Block} (hs : Sound base h os F (c :: live)) :
    ∃ h' F', (∀ k, F.length + 3 ≤ k → free k h (c.1 + unit) = some h') ∧ Sound base h' os F' live ∧
      ∃ b ∈ F', c.2 ≤ b.2 := by
  obtain ⟨h', F', hrun, hring, hT, hb, hsz⟩ :=
    free_ring hs.ring hs.tiles hs.lt (hs.sizes c List.mem_cons_self)
  refine ⟨h', F', hrun, { hs with ring := hring, tiles := hT, sizes := fun b hb => ?_ }, hb⟩
  rw [hsz b hb]
  exact hs.sizes b (List.mem_cons_of_mem _ hb)

/-- **`malloc` returns**: null after a failed `sbrk`, with nothing changed, or a new block -/
theorem Sound.malloc (hs : Sound base h os F live) (hb : 0 < base) (hn : 0 < n)
    (hn31 : unit * n < 2 ^ 31) :
    ∃ r h' os' N, (∀ k, N ≤ k → mallocLoop n k h os h.freep (h.ptr h.freep) = some (r, h', os')) ∧
      ((r = 0 ∧ h' = h ∧ ∃ m, os' = os.log m none) ∨
        ∃ a F', r = a + unit ∧ Sound base h' os' F' ((a, n) :: live)) := by
  rcases hs.ring.look hn os with ⟨A, b, B, rfl, hbn, hrun⟩ | ⟨-, hrun⟩
  · obtain ⟨a, F', ha, hs'⟩ := hs.take hn hbn
    exact ⟨_, _, _, _, hrun, .inr ⟨a, F', ha, hs'⟩⟩
  -- the memory asked for, in bytes and in units
  obtain ⟨nu, hnu, hnn⟩ : ∃ nu, (if n < 4096 then 4096 else n) = nu ∧ n ≤ nu ∧ unit * nu < 2 ^ 31 := by
    refine ⟨_, rfl, ?_⟩
    unfold unit at *
    split <;> omega
  obtain ⟨m, hm⟩ : ∃ m : CInt, BitVec.ofNat 32 (nu * unit) = m := ⟨_, rfl⟩
  have hmn : m.toNat = unit * nu := by
    rw [← hm, BitVec.toNat_ofNat, Nat.mul_comm]
    exact Nat.mod_eq_of_lt (by omega)
  have hmi : 0 < m.toInt := by
    rw [BitVec.toInt_eq_toNat_of_lt (by omega), hmn]
    unfold unit
    omega
  rcases os.sbrk_cases hmi with hsb | ⟨a, ha, hlim, hsb⟩
  · refine ⟨0, h, os.log m none, F.length + 1, fun k hk => ?_, .inl ⟨rfl, rfl, m, rfl⟩⟩
    obtain ⟨j, rfl⟩ : ∃ j, k = F.length + 1 + j := ⟨k - (F.length + 1), by omega⟩
    rw [hrun j]
    simp only [grow, morecore, hnu, hm, hsb, Option.bind_some, if_true]
  · have hnu0 : 0 < nu := by omega
    obtain ⟨h1, F1, hfree, hs1, d, hd, hdn⟩ := (hs.more hnu0 hmn ha hlim).free
    have hf0 : h1.freep ≠ 0 := hs1.ring.freep_ne hb
    have hback : Os.Backs ((os.log m (some a)).setBrk (a + m.toNat)) a := by
      refine Os.backs_of_le ?_ hlim
      show a + unit ≤ a + m.toNat
      rw [hmn]
      exact Nat.add_le_add_left (Nat.le_mul_of_pos_right unit hnu0) a
    rcases hs1.ring.look hn _ with ⟨A, b, B, rfl, hbn, hrun1⟩ | ⟨hall, -⟩
    · obtain ⟨c, F', hc, hs'⟩ := hs1.take hn hbn
      refine ⟨_, _, _, F.length + 1 + (F.length + 3 + ((A ++ b :: B).length + 1)), fun k hk => ?_,
        .inr ⟨c, F', hc, hs'⟩⟩
      obtain ⟨j, rfl⟩ : ∃ j, k = F.length + 1 + j := ⟨k - (F.length + 1), by omega⟩
      rw [hrun j]
      simp only [grow, morecore, hnu, hm, hsb]
      rw [if_pos hback, hfree j (by omega), Option.map_some, Option.bind_some, if_neg hf0]
      exact hrun1 j (by omega)
    · have := hall d hd
      dsimp only at hdn
      omega

end calls

/-! ## Runs -/

/-- what the calls of the process have made: the words of the heap, the memory, the blocks it holds -/
structure State where
  heap : Heap
  os : Os
  live : List Block

inductive Event where
  | malloc (nbytes r : ℕ)
  | free (ap : ℕ)
  | write
  deriving DecidableEq

/-- a call returns: with enough steps it has the result -/
def Returns {α : Type*} (f : ℕ → Option α) (r : α) : Prop := ∃ N, ∀ k, N ≤ k → f k = some r

theorem Returns.unique {α : Type*} {f : ℕ → Option α} {r r' : α} (h : Returns f r) (h' : Returns f r') :
    r = r' := by
  obtain ⟨N, hN⟩ := h
  obtain ⟨N', hN'⟩ := h'
  have h1 := hN (max N N') (le_max_left _ _)
  rw [hN' (max N N') (le_max_right _ _)] at h1
  exact (Option.some.inj h1).symm

/-- the units of a request fit in a positive `int` of bytes -/
def Small (nbytes : ℕ) : Prop := unit * ((nbytes + unit - 1) / unit + 1) < 2 ^ 31

instance (nbytes : ℕ) : Decidable (Small nbytes) := inferInstanceAs (Decidable (_ < _))

/-- a word that the process may not write: one of `base`, or of the memory from `sbrk` outside of the
bytes that it was given -/
def Fixed (base : ℕ) (s : State) (a : ℕ) : Prop :=
  a = base ∨ (a ∈ s.os.got ∧ ∀ b ∈ s.live, ¬ (b.1 < a ∧ a < fin b))

/-- the steps of a process: calls of `malloc` and of `free` with blocks it holds, and writes -/
inductive Step (base : ℕ) : State → Event → State → Prop
  | malloc {s : State} {nbytes r : ℕ} {h : Heap} {os : Os} (hn : Small nbytes)
      (hr : Returns (fun k => malloc base k s.heap s.os nbytes) (r, h, os)) :
      Step base s (.malloc nbytes r) ⟨h, os, if r = 0 then s.live else (r - unit, nunits nbytes) :: s.live⟩
  | free {s : State} {b : Block} {h : Heap} (hb : b ∈ s.live)
      (hr : Returns (fun k => free k s.heap (b.1 + unit)) h) :
      Step base s (.free (b.1 + unit)) ⟨h, s.os, s.live.erase b⟩
  | write {s : State} {h : Heap} (hf : h.freep = s.heap.freep)
      (hw : ∀ a, Fixed base s a → h.ptr a = s.heap.ptr a ∧ h.size a = s.heap.size a) :
      Step base s .write ⟨h, s.os, s.live⟩

/-- a process that has not called `malloc`: `base` is below the end of its memory -/
structure Init (base : ℕ) (s : State) : Prop where
  nonnull : 0 < base
  brk : base + unit ≤ s.os.brk
  freep : s.heap.freep = 0
  calls : s.os.calls = []
  live : s.live = []

/-- the heap at all times -/
structure Ok (base : ℕ) (s : State) (F : List Block) : Prop where
  nonnull : 0 < base
  /-- the free list is the one that the next call of `malloc` finds -/
  sound : Sound base (start base s.heap) s.os F s.live
  begun : s.heap.freep = 0 → F = [] ∧ s.live = []

section runs
variable {base n : ℕ} {s s' : State} {F : List Block} {e : Event} {h : Heap} {os : Os} {live : List Block}

theorem start_of_begun (hf : h.freep ≠ 0) : start base h = h := if_neg hf

theorem start_ring (hf : h.freep = 0) : Ring base (start base h) [] := by
  have hs : start base h = ((h.setPtr base base).setFreep base).setSize base 0 := if_pos hf
  rw [hs]
  refine
    { links := update_self _ _ _
      freep := List.mem_singleton_self base
      sizes := by simp
      empty := update_self _ _ _
      pos := by simp
      above := by simp
      ordered := .nil }

theorem Sound.ok (hs : Sound base h os F live) (hb : 0 < base) : Ok base ⟨h, os, live⟩ F := by
  refine ⟨hb, ?_, fun e => absurd e (hs.ring.freep_ne hb)⟩
  rw [start_of_begun (hs.ring.freep_ne hb)]
  exact hs

theorem Ok.of_init (hi : Init base s) : Ok base s [] := by
  have hgot : s.os.got = ∅ := by
    ext x
    simp [Os.got, hi.calls]
  refine ⟨hi.nonnull, ?_, fun _ => ⟨rfl, hi.live⟩⟩
  refine
    { ring := start_ring hi.freep
      tiles := ?_
      sizes := by simp [hi.live]
      range := by simp [hgot]
      brk := hi.brk }
  rw [hi.live, hgot]
  exact Tiles.nil unit

theorem Small.nunits_eq (hn : Small n) : nunits n = (n + unit - 1) / unit + 1 := by
  unfold Small at hn
  exact Nat.mod_eq_of_lt (by unfold unit at *; omega)

theorem Small.units (hn : Small n) : 0 < nunits n ∧ unit * nunits n < 2 ^ 31 ∧ n + unit ≤ unit * nunits n := by
  rw [hn.nunits_eq]
  unfold Small at hn
  unfold unit at *
  omega

/-- **`malloc` in any state of the heap** -/
theorem Ok.malloc (hs : Ok base s F) (hn : Small n) :
    ∃ r h' os', Returns (fun k => malloc base k s.heap s.os n) (r, h', os') ∧
      ((r = 0 ∧ (∃ m, os'.calls = s.os.calls ++ [(m, none)]) ∧ Ok base ⟨h', os', s.live⟩ F) ∨
        ∃ a F', r = a + unit ∧ Ok base ⟨h', os', (a, nunits n) :: s.live⟩ F') := by
  obtain ⟨r, h', os', N, hrun, hres⟩ := hs.sound.malloc hs.nonnull hn.units.1 hn.units.2.1
  refine ⟨r, h', os', ⟨N, hrun⟩, ?_⟩
  rcases hres with ⟨hr, rfl, m, rfl⟩ | ⟨a, F', hr, hs'⟩
  · exact .inl ⟨hr, ⟨m, rfl⟩, (hs.sound.failed m).ok hs.nonnull⟩
  · exact .inr ⟨a, F', hr, hs'.ok hs.nonnull⟩

/-- **`free` of a block of the process** -/
theorem Ok.free (hs : Ok base s F) {b : Block} (hb : b ∈ s.live) :
    ∃ h' F', Returns (fun k => free k s.heap (b.1 + unit)) h' ∧ Ok base ⟨h', s.os, s.live.erase b⟩ F' := by
  have hf : s.heap.freep ≠ 0 := fun e => by
    rw [(hs.begun e).2] at hb
    cases hb
  have hs1 := hs.sound
  rw [start_of_begun hf] at hs1
  have hp : s.live.Perm (b :: s.live.erase b) := List.perm_cons_erase hb
  have hs2 : Sound base s.heap s.os F (b :: s.live.erase b) :=
    { hs1 with
      tiles := hs1.tiles.perm (hp.append_left F)
      sizes := fun d hd => hs1.sizes d (hp.mem_iff.2 hd) }
  obtain ⟨h', F', hrun, hs3, -⟩ := hs2.free
  exact ⟨h', F', ⟨_, hrun⟩, hs3.ok hs.nonnull⟩

/-- **writes of the process** do not reach the heap -/
theorem Ok.write (hs : Ok base s F) (hf : h.freep = s.heap.freep)
    (hw : ∀ a, Fixed base s a → h.ptr a = s.heap.ptr a ∧ h.size a = s.heap.size a) :
    Ok base ⟨h, s.os, s.live⟩ F := by
  by_cases h0 : s.heap.freep = 0
  · obtain ⟨rfl, hlive⟩ := hs.begun h0
    refine ⟨hs.nonnull, { hs.sound with ring := start_ring (hf.trans h0), sizes := ?_ }, fun _ => ⟨rfl, hlive⟩⟩
    simp [hlive]
  have hs1 := hs.sound
  rw [start_of_begun h0] at hs1
  -- the header of a block is not inside of a block of the process
  have hfix : ∀ b ∈ F ++ s.live, Fixed base s b.1 := by
    intro b hb
    have hpb := hs1.tiles.pos b hb
    refine .inr ⟨(hs1.tiles.cover _).2 ⟨b, hb, le_rfl, by unfold unit; omega⟩, fun d hd hin => ?_⟩
    have hdT : d ∈ F ++ s.live := List.mem_append_right _ hd
    have hne : b ≠ d := fun e => by
      subst e
      omega
    have hap : Apart unit b d := hs1.tiles.apart_of_ne hb hdT hne
    have hpd := hs1.tiles.pos d hdT
    simp only [Apart, fin, unit] at hap hin
    omega
  have hnode : ∀ a ∈ base :: F.map Prod.fst, Fixed base s a := by
    intro a ha
    rcases List.mem_cons.1 ha with rfl | ha
    · exact .inl rfl
    · obtain ⟨b, hb, rfl⟩ := List.mem_map.1 ha
      exact hfix b (List.mem_append_left _ hb)
  refine Sound.ok ?_ hs.nonnull
  refine
    { ring :=
        { links := hs1.ring.links.congr fun a ha => (hw a (hnode a ha)).1
          freep := hf ▸ hs1.ring.freep
          sizes := fun b hb => ?_
          empty := ?_
          pos := hs1.ring.pos
          above := hs1.ring.above
          ordered := hs1.ring.ordered }
      tiles := hs1.tiles
      sizes := fun b hb => ?_
      range := hs1.range
      brk := hs1.brk }
  · rw [(hw b.1 (hfix b (List.mem_append_left _ hb))).2]
    exact hs1.ring.sizes b hb
  · rw [(hw base (.inl rfl)).2]
    exact hs1.ring.empty
  · rw [(hw b.1 (hfix b (List.mem_append_right _ hb))).2]
    exact hs1.sizes b hb

theorem Ok.step (hs : Ok base s F) (hst : Step base s e s') : ∃ F', Ok base s' F' := by
  cases hst with
  | @malloc nbytes r h os hn hr =>
    obtain ⟨r', h', os', hr', hres⟩ := hs.malloc hn
    cases hr.unique hr'
    rcases hres with ⟨rfl, -, hok⟩ | ⟨a, F', rfl, hok⟩
    · exact ⟨F, hok⟩
    · refine ⟨F', ?_⟩
      rw [if_neg (by unfold unit; omega), Nat.add_sub_cancel]
      exact hok
  | free hb hr =>
    obtain ⟨h', F', hr', hok⟩ := hs.free hb
    cases hr.unique hr'
    exact ⟨F', hok⟩
  | write hf hw => exact ⟨F, hs.write hf hw⟩

end runs

/-- **the user heap over whole runs**: at every time the free list is circular, in the order of addresses
and without neighbours that touch, and with the blocks of the process it covers exactly the memory from
`sbrk`; `malloc` gives a block apart from the others that is large enough, or null when `sbrk` failed; and
every call returns -/
theorem malloc_keeps_heap {base : ℕ} {ρ : ℕ → State} {ev : ℕ → Option Event}
    (hrun : Traces (Init base) (Step base) ρ ev) (t : ℕ) :
    (∃ F, Sound base (start base (ρ t).heap) (ρ t).os F (ρ t).live) ∧
    (∀ n r, ev t = some (.malloc n r) →
      (r = 0 → ∃ m, (ρ (t + 1)).os.calls = (ρ t).os.calls ++ [(m, none)]) ∧
      (r ≠ 0 → ∃ a u, r = a + unit ∧ (a, u) ∈ (ρ (t + 1)).live ∧ r + n ≤ fin (a, u) ∧
        ∀ b ∈ (ρ t).live, Apart unit (a, u) b)) ∧
    (∀ n, Small n → ∃ x, Returns (fun k => malloc base k (ρ t).heap (ρ t).os n) x) ∧
    ∀ b ∈ (ρ t).live, ∃ h, Returns (fun k => free k (ρ t).heap (b.1 + unit)) h := by
  have hok : ∃ F, Ok base (ρ t) F := by
    refine hrun.invariant (P := fun s _ => ∃ F, Ok base s F) (fun s hs => ⟨[], .of_init hs⟩) ?_ t
    rintro s e s' - ⟨F, hs⟩ hst
    exact hs.step hst
  obtain ⟨F, hs⟩ := hok
  refine ⟨⟨F, hs.sound⟩, fun n r he => ?_, fun n hn => ?_, fun b hb => ?_⟩
  · have hst := hrun.step_of_label he
    generalize ρ (t + 1) = s' at hst ⊢
    cases hst with
    | @malloc _ _ h os hn hr =>
      obtain ⟨r', h', os', hr', hres⟩ := hs.malloc hn
      cases hr.unique hr'
      rcases hres with ⟨rfl, hm, -⟩ | ⟨a, F', rfl, hok'⟩
      · exact ⟨fun _ => hm, fun h0 => absurd rfl h0⟩
      · have ha : a + unit ≠ 0 := by unfold unit; omega
        refine ⟨fun h0 => absurd h0 ha, fun _ => ⟨a, nunits n, rfl, ?_, ?_, ?_⟩⟩
        · rw [if_neg ha, Nat.add_sub_cancel]
          exact List.mem_cons_self
        · have := hn.units.2.2
          unfold fin
          dsimp only
          omega
        · have hT := hok'.sound.tiles.perm List.perm_middle
          exact fun b hb => (List.pairwise_cons.1 hT.apart).1 b (List.mem_append_right _ hb)
  · obtain ⟨r, h', os', hr, -⟩ := hs.malloc hn
    exact ⟨_, hr⟩
  · obtain ⟨h', F', hr, -⟩ := hs.free hb
    exact ⟨h', hr⟩

/-- a process with its `base` at 4096 and a kernel that always has memory -/
def sampleInit : State := ⟨⟨fun _ => 0, fun _ => 0, 0⟩, ⟨8192, fun _ => some 0, []⟩, []⟩

/-- its first `malloc(100)`: the tail of the region from `sbrk` -/
theorem sample_malloc :
    ∃ h os, Returns (fun k => malloc 4096 k sampleInit.heap sampleInit.os 100) (73616, h, os) := by
  have hinit : Init 4096 sampleInit := ⟨by decide, by decide, rfl, rfl, rfl⟩
  obtain ⟨r, h, os, ⟨N, hN⟩, -⟩ := (Ok.of_init hinit).malloc (show Small 100 by decide)
  have hr : (malloc 4096 (N + 6) sampleInit.heap sampleInit.os 100).map Prod.fst = some 73616 := rfl
  rw [show malloc 4096 (N + 6) sampleInit.heap sampleInit.os 100 = _ from hN (N + 6) (by omega)] at hr
  cases hr
  exact ⟨h, os, N, hN⟩

theorem malloc_keeps_heap_sample : ∃ (ρ : ℕ → State) (ev : ℕ → Option Event),
    Traces (Init 4096) (Step 4096) ρ ev ∧ ev 0 = some (.malloc 100 73616) ∧
    ev 1 = some (.free 73616) ∧ (ρ 2).live = [] ∧
    ∃ F, Sound 4096 (start 4096 (ρ 2).heap) (ρ 2).os F (ρ 2).live := by
  have hinit : Init 4096 sampleInit := ⟨by decide, by decide, rfl, rfl, rfl⟩
  obtain ⟨h, os, hm⟩ := sample_malloc
  have hst : Step 4096 sampleInit (.malloc 100 73616) ⟨h, os, [(73600, 8)]⟩ := .malloc (by decide) hm
  obtain ⟨F, hok⟩ := (Ok.of_init hinit).step hst
  obtain ⟨h', F', hf, -⟩ := hok.free (show (73600, 8) ∈ [(73600, 8)] from List.mem_singleton_self _)
  have hst' : Step 4096 ⟨h, os, [(73600, 8)]⟩ (.free 73616) ⟨h', os, []⟩ :=
    .free (List.mem_singleton_self (73600, 8)) hf
  obtain ⟨ρ, hρ, h2⟩ := Traces.of_steps hinit (.cons hst (.cons hst' (.nil _)))
  refine ⟨ρ, _, hρ, rfl, rfl, ?_, (malloc_keeps_heap hρ 2).1⟩
  exact congrArg State.live h2

end Xv6.Umalloc
