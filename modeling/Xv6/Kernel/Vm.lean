import Xv6.Kernel.Defs

/-!
# Pages and page tables: `kalloc.c`, `vm.c`, and the page-table part of `proc.c`

The routines of `vm.c` take and return page tables as trees and allocate through the free list.
`walk` returns the tree with the tables it had to allocate, and whether the PTE exists; the PTE
itself is read by `PageTable.leaf` and written by `PageTable.setLeaf`.

`MemOnly x`: the routine `x` uses the free list and the allocator's lock only.  Every routine of
this file is `MemOnly`, so it neither reads nor changes the process table, and returns with the
spinlocks it was called with.
-/

namespace Xv6
variable {N : ℕ} {α β : Type}

/-! ## `kalloc.c` -/

def KState.setFree (fl : List Nat) (s : KState N) : KState N :=
  { s with k := { s.k with freelist := fl } }

def kfree (pa : Nat) : KM N Unit :=
  if pa % PGSIZE ≠ 0 ∨ pa < kend ∨ PHYSTOP ≤ pa then Act.stop
  else do
    acquire .kmem
    Act.modify fun s => s.setFree (pa :: s.k.freelist)
    release .kmem

def kalloc : KM N (Option Nat) := do
  acquire .kmem
  let r ← Act.read fun s => s.k.freelist
  Act.modify fun s => s.setFree r.tail
  release .kmem
  return r.head?

/-! ## routines that use the free list only -/

/-- what `x` returns and leaves in the free list depends on the free list and on whether the CPU
already holds `kmem.lock`; nothing else changes -/
def MemOnly (x : KM N α) : Prop :=
  ∃ g : Bool → List Nat → Option (α × List Nat), ∀ s,
    x s = (g (decide (.kmem ∈ s.held)) s.k.freelist).map fun r => (r.1, s.setFree r.2)

namespace MemOnly

theorem pure (a : α) : MemOnly (Pure.pure a : KM N α) :=
  ⟨fun _ fl => some (a, fl), fun _ => rfl⟩

theorem stop : MemOnly (Act.stop : KM N α) := ⟨fun _ _ => none, fun _ => rfl⟩

theorem bind {x : KM N α} {f : α → KM N β} (hx : MemOnly x) (hf : ∀ a, MemOnly (f a)) :
    MemOnly (x >>= f) := by
  obtain ⟨g, hg⟩ := hx
  choose h hh using hf
  refine ⟨fun b fl => (g b fl).bind fun r => h r.1 b r.2, fun s => ?_⟩
  rw [Act.bind_run, hg s]
  dsimp only
  cases g (decide (.kmem ∈ s.held)) s.k.freelist with
  | none => rfl
  | some r => exact hh r.1 (s.setFree r.2)

theorem each {f : β → KM N Unit} (h : ∀ b, MemOnly (f b)) (bs : List β) :
    MemOnly (Act.each f bs) := by
  induction bs with
  | nil => exact pure ()
  | cons b bs ih => exact (h b).bind fun _ => ih

end MemOnly

theorem kalloc_memOnly : MemOnly (kalloc : KM N (Option Nat)) := by
  refine ⟨fun b fl => if b then none else some (fl.head?, fl.tail), fun s => ?_⟩
  by_cases h : (.kmem : Lock N) ∈ s.held
  · simp [kalloc, Act.bind_run, acquire, h]
  · simp [kalloc, Act.bind_run, acquire, release, h, KState.setFree]

theorem kfree_memOnly (pa : Nat) : MemOnly (kfree pa : KM N Unit) := by
  unfold kfree
  split
  · exact MemOnly.stop
  · refine ⟨fun b fl => if b then none else some ((), pa :: fl), fun s => ?_⟩
    by_cases h : (.kmem : Lock N) ∈ s.held
    · simp [Act.bind_run, acquire, h]
    · simp [Act.bind_run, acquire, release, h, KState.setFree]

/-! ## the tree of a page table -/

def Table.set (t : Table β) (i : Nat) (e : Option β) : Table β :=
  { t with ent := Function.update t.ent i e }

def Table.empty (pa : Nat) : Table β := ⟨pa, fun _ => none⟩

namespace PageTable

/-- the PTE of `va` -/
def leaf (pt : PageTable) (va : Nat) : Option Leaf :=
  (pt.ent (px 2 va)).bind fun t1 => (t1.ent (px 1 va)).bind fun t0 => t0.ent (px 0 va)

/-- write the PTE of `va`; the tables on the way to it exist -/
def setLeaf (pt : PageTable) (va : Nat) (l : Option Leaf) : PageTable :=
  match pt.ent (px 2 va) with
  | none => pt
  | some t1 =>
    match t1.ent (px 1 va) with
    | none => pt
    | some t0 => pt.set (px 2 va) (some (t1.set (px 1 va) (some (t0.set (px 0 va) l))))

end PageTable

/-- one turn of `walk`'s loop: the table below entry `i`, allocated if it is missing -/
def descend (t : Table (Table β)) (i : Nat) (alloc : Bool) :
    KM N (Table (Table β) × Option (Table β)) :=
  match t.ent i with
  | some c => pure (t, some c)
  | none =>
    if alloc then do
      match ← kalloc with
      | none => return (t, none)
      | some pa => return (t.set i (some (Table.empty pa)), some (Table.empty pa))
    else pure (t, none)

def walk (pt : PageTable) (va : Nat) (alloc : Bool) : KM N (PageTable × Bool) :=
  if MAXVA ≤ va then Act.stop
  else do
    let (pt, t1) ← descend pt (px 2 va) alloc
    match t1 with
    | none => return (pt, false)
    | some t1 =>
      let (t1, t0) ← descend t1 (px 1 va) alloc
      return (pt.set (px 2 va) (some t1), t0.isSome)

/-! ## `vm.c` -/

/-- the loop of `mappages`, with `n + 1` pages to go; `ram` holds the pages' contents -/
def mappagesLoop (ram : Nat → Page) (perm : Nat) : Nat → PageTable → Nat → Nat →
    KM N (PageTable × Bool)
  | n, pt, a, pa => do
    let (pt, ok) ← walk pt a true
    if ok then
      match pt.leaf a with
      | some _ => Act.stop
      | none =>
        let pt := pt.setLeaf a (some ⟨pa, perm ||| PTE_V, ram pa⟩)
        match n with
        | 0 => return (pt, true)
        | n + 1 => mappagesLoop ram perm n pt ((a + PGSIZE) % 2 ^ 64) (pa + PGSIZE)
    else return (pt, false)

def mappages (ram : Nat → Page) (pt : PageTable) (va size pa perm : Nat) :
    KM N (PageTable × Bool) :=
  if size = 0 then Act.stop
  else
    let a := pgrounddown va
    let last := pgrounddown ((va + size - 1) % 2 ^ 64)
    mappagesLoop ram perm ((last + 2 ^ 64 - a) % 2 ^ 64 / PGSIZE) pt a pa

def uvmunmapLoop (doFree : Bool) : Nat → PageTable → Nat → KM N PageTable
  | 0, pt, _ => pure pt
  | n + 1, pt, a => do
    let (_, ok) ← walk pt a false
    match (if ok then pt.leaf a else none) with
    | none => Act.stop
    | some l =>
      if l.flags = PTE_V then Act.stop
      else do
        if doFree then kfree l.pa
        uvmunmapLoop doFree n (pt.setLeaf a none) (a + PGSIZE)

def uvmunmap (pt : PageTable) (va npages : Nat) (doFree : Bool) : KM N PageTable :=
  if va % PGSIZE ≠ 0 then Act.stop else uvmunmapLoop doFree npages pt va

def uvmcreate : KM N (Option PageTable) := do
  match ← kalloc with
  | none => return none
  | some pa => return some (Table.empty pa)

/-- `uvmfirst`: `src` to a fresh page at address 0; a failed `kalloc` is not checked, the kernel
faults -/
def uvmfirst (pt : PageTable) (src : Page) (sz : Nat) : KM N PageTable :=
  if PGSIZE ≤ sz then Act.stop
  else do
    match ← kalloc with
    | none => Act.stop
    | some mem =>
      let page : Page := fun o => if o < sz then src o else 0
      let (pt, _) ← mappages (fun _ => page) pt 0 PGSIZE mem (PTE_W ||| PTE_R ||| PTE_X ||| PTE_U)
      return pt

def uvmdealloc (pt : PageTable) (oldsz newsz : Nat) : KM N (PageTable × Nat) :=
  if oldsz ≤ newsz then pure (pt, oldsz)
  else if pgroundup newsz < pgroundup oldsz then do
    let npages := (pgroundup oldsz - pgroundup newsz) / PGSIZE
    let pt ← uvmunmap pt (pgroundup newsz) npages true
    return (pt, newsz)
  else pure (pt, newsz)

/-- the loop of `uvmalloc`; `n` pages from `a` on are still missing -/
def uvmallocLoop (oldsz newsz xperm : Nat) : Nat → PageTable → Nat → KM N (PageTable × Nat)
  | 0, pt, _ => pure (pt, newsz)
  | n + 1, pt, a => do
    match ← kalloc with
    | none =>
      let (pt, _) ← uvmdealloc pt a oldsz
      return (pt, 0)
    | some mem =>
      let (pt, ok) ← mappages (fun _ _ => 0) pt a PGSIZE mem (PTE_R ||| PTE_U ||| xperm)
      if ok then uvmallocLoop oldsz newsz xperm n pt (a + PGSIZE)
      else do
        kfree mem
        let (pt, _) ← uvmdealloc pt a oldsz
        return (pt, 0)

def uvmalloc (pt : PageTable) (oldsz newsz xperm : Nat) : KM N (PageTable × Nat) :=
  if newsz < oldsz then pure (pt, oldsz)
  else
    let oldsz := pgroundup oldsz
    uvmallocLoop oldsz newsz xperm ((newsz - oldsz + PGSIZE - 1) / PGSIZE) pt oldsz

/-- free a table after its entries -/
def freewalkTable (f : β → KM N Unit) (t : Table β) : KM N Unit := do
  Act.each (fun i =>
    match t.ent i with
    | none => pure ()
    | some c => f c) (List.range 512)
  kfree t.pa

/-- `freewalk`: tables of tables down to level 0, where an entry is a leaf -/
def freewalk (pt : PageTable) : KM N Unit :=
  freewalkTable (freewalkTable (freewalkTable fun _ => Act.stop)) pt

def uvmfree (pt : PageTable) (sz : Nat) : KM N Unit := do
  if 0 < sz then
    let pt ← uvmunmap pt 0 (pgroundup sz / PGSIZE) true
    freewalk pt
  else freewalk pt

/-- the loop of `uvmcopy`; `n` pages from `i` on are still to be copied -/
def uvmcopyLoop (old : PageTable) : Nat → PageTable → Nat → KM N (PageTable × Bool)
  | 0, new, _ => pure (new, true)
  | n + 1, new, i => do
    let (_, ok) ← walk old i false
    match (if ok then old.leaf i else none) with
    | none => Act.stop
    | some l =>
      match ← kalloc with
      | none =>
        let new ← uvmunmap new 0 (i / PGSIZE) true
        return (new, false)
      | some mem =>
        let (new, ok) ← mappages (fun _ => l.data) new i PGSIZE mem l.flags
        if ok then uvmcopyLoop old n new (i + PGSIZE)
        else do
          kfree mem
          let new ← uvmunmap new 0 (i / PGSIZE) true
          return (new, false)

def uvmcopy (old new : PageTable) (sz : Nat) : KM N (PageTable × Bool) :=
  uvmcopyLoop old ((sz + PGSIZE - 1) / PGSIZE) new 0

/-! ## page tables of processes -/

/-- `tf` is the page of the process's trapframe -/
def procPagetable (tf : Nat) : KM N (Option PageTable) := do
  match ← uvmcreate with
  | none => return none
  | some pt =>
    let (pt, ok) ← mappages (fun _ _ => 0) pt TRAMPOLINE PGSIZE trampoline (PTE_R ||| PTE_X)
    if ok then
      let (pt, ok) ← mappages (fun _ _ => 0) pt TRAPFRAME PGSIZE tf (PTE_R ||| PTE_W)
      if ok then return some pt
      else do
        let pt ← uvmunmap pt TRAMPOLINE 1 false
        uvmfree pt 0
        return none
    else do
      uvmfree pt 0
      return none

def procFreepagetable (pt : PageTable) (sz : Nat) : KM N Unit := do
  let pt ← uvmunmap pt TRAMPOLINE 1 false
  let pt ← uvmunmap pt TRAPFRAME 1 false
  uvmfree pt sz

/-! ## every routine above uses the free list only -/

theorem descend_memOnly (t : Table (Table β)) (i : Nat) (alloc : Bool) :
    MemOnly (descend t i alloc : KM N _) := by
  unfold descend
  split
  · exact MemOnly.pure _
  · split
    · refine kalloc_memOnly.bind fun r => ?_
      cases r <;> exact MemOnly.pure _
    · exact MemOnly.pure _

theorem walk_memOnly (pt : PageTable) (va : Nat) (alloc : Bool) :
    MemOnly (walk pt va alloc : KM N _) := by
  unfold walk
  split
  · exact MemOnly.stop
  · refine (descend_memOnly _ _ _).bind fun r => ?_
    dsimp only
    split
    · exact MemOnly.pure _
    · exact (descend_memOnly _ _ _).bind fun _ => MemOnly.pure _

theorem mappagesLoop_memOnly (ram : Nat → Page) (perm n : Nat) (pt : PageTable) (a pa : Nat) :
    MemOnly (mappagesLoop ram perm n pt a pa : KM N _) := by
  induction n generalizing pt a pa with
  | zero =>
    unfold mappagesLoop
    refine (walk_memOnly _ _ _).bind fun r => ?_
    dsimp only
    split
    · split
      · exact MemOnly.stop
      · exact MemOnly.pure _
    · exact MemOnly.pure _
  | succ n ih =>
    unfold mappagesLoop
    refine (walk_memOnly _ _ _).bind fun r => ?_
    dsimp only
    split
    · split
      · exact MemOnly.stop
      · exact ih _ _ _
    · exact MemOnly.pure _

theorem mappages_memOnly (ram : Nat → Page) (pt : PageTable) (va size pa perm : Nat) :
    MemOnly (mappages ram pt va size pa perm : KM N _) := by
  unfold mappages
  split
  · exact MemOnly.stop
  · exact mappagesLoop_memOnly _ _ _ _ _ _

theorem uvmunmapLoop_memOnly (doFree : Bool) (n : Nat) (pt : PageTable) (a : Nat) :
    MemOnly (uvmunmapLoop doFree n pt a : KM N _) := by
  induction n generalizing pt a with
  | zero => exact MemOnly.pure _
  | succ n ih =>
    unfold uvmunmapLoop
    refine (walk_memOnly _ _ _).bind fun r => ?_
    dsimp only
    split
    · exact MemOnly.stop
    · split
      · exact MemOnly.stop
      · cases doFree
        · exact ih _ _
        · exact (kfree_memOnly _).bind fun _ => ih _ _

theorem uvmunmap_memOnly (pt : PageTable) (va npages : Nat) (doFree : Bool) :
    MemOnly (uvmunmap pt va npages doFree : KM N _) := by
  unfold uvmunmap
  split
  · exact MemOnly.stop
  · exact uvmunmapLoop_memOnly _ _ _ _

theorem uvmcreate_memOnly : MemOnly (uvmcreate : KM N _) := by
  refine kalloc_memOnly.bind fun r => ?_
  cases r <;> exact MemOnly.pure _

theorem uvmfirst_memOnly (pt : PageTable) (src : Page) (sz : Nat) :
    MemOnly (uvmfirst pt src sz : KM N _) := by
  unfold uvmfirst
  split
  · exact MemOnly.stop
  · refine kalloc_memOnly.bind fun r => ?_
    cases r with
    | none => exact MemOnly.stop
    | some mem => exact (mappages_memOnly _ _ _ _ _ _).bind fun _ => MemOnly.pure _

theorem uvmdealloc_memOnly (pt : PageTable) (oldsz newsz : Nat) :
    MemOnly (uvmdealloc pt oldsz newsz : KM N _) := by
  unfold uvmdealloc
  split
  · exact MemOnly.pure _
  · split
    · exact (uvmunmap_memOnly _ _ _ _).bind fun _ => MemOnly.pure _
    · exact MemOnly.pure _

theorem uvmallocLoop_memOnly (oldsz newsz xperm n : Nat) (pt : PageTable) (a : Nat) :
    MemOnly (uvmallocLoop oldsz newsz xperm n pt a : KM N _) := by
  induction n generalizing pt a with
  | zero => exact MemOnly.pure _
  | succ n ih =>
    unfold uvmallocLoop
    refine kalloc_memOnly.bind fun r => ?_
    cases r with
    | none => exact (uvmdealloc_memOnly _ _ _).bind fun _ => MemOnly.pure _
    | some mem =>
      refine (mappages_memOnly _ _ _ _ _ _).bind fun r => ?_
      dsimp only
      split
      · exact ih _ _
      · exact (kfree_memOnly _).bind fun _ =>
          (uvmdealloc_memOnly _ _ _).bind fun _ => MemOnly.pure _

theorem uvmalloc_memOnly (pt : PageTable) (oldsz newsz xperm : Nat) :
    MemOnly (uvmalloc pt oldsz newsz xperm : KM N _) := by
  unfold uvmalloc
  split
  · exact MemOnly.pure _
  · exact uvmallocLoop_memOnly _ _ _ _ _ _

theorem freewalkTable_memOnly {f : β → KM N Unit} (hf : ∀ b, MemOnly (f b)) (t : Table β) :
    MemOnly (freewalkTable f t) := by
  refine (MemOnly.each (fun i => ?_) _).bind fun _ => kfree_memOnly _
  split
  · exact MemOnly.pure _
  · exact hf _

theorem freewalk_memOnly (pt : PageTable) : MemOnly (freewalk pt : KM N _) :=
  freewalkTable_memOnly (freewalkTable_memOnly (freewalkTable_memOnly fun _ => MemOnly.stop)) pt

theorem uvmfree_memOnly (pt : PageTable) (sz : Nat) : MemOnly (uvmfree pt sz : KM N _) := by
  unfold uvmfree
  split
  · exact (uvmunmap_memOnly _ _ _ _).bind fun _ => freewalk_memOnly _
  · exact freewalk_memOnly _

theorem uvmcopyLoop_memOnly (old : PageTable) (n : Nat) (new : PageTable) (i : Nat) :
    MemOnly (uvmcopyLoop old n new i : KM N _) := by
  induction n generalizing new i with
  | zero => exact MemOnly.pure _
  | succ n ih =>
    unfold uvmcopyLoop
    refine (walk_memOnly _ _ _).bind fun r => ?_
    dsimp only
    split
    · exact MemOnly.stop
    · refine kalloc_memOnly.bind fun r => ?_
      cases r with
      | none => exact (uvmunmap_memOnly _ _ _ _).bind fun _ => MemOnly.pure _
      | some mem =>
        refine (mappages_memOnly _ _ _ _ _ _).bind fun r => ?_
        split
        · exact ih _ _
        · exact (kfree_memOnly _).bind fun _ =>
            (uvmunmap_memOnly _ _ _ _).bind fun _ => MemOnly.pure _

theorem uvmcopy_memOnly (old new : PageTable) (sz : Nat) :
    MemOnly (uvmcopy old new sz : KM N _) := uvmcopyLoop_memOnly _ _ _ _

theorem procPagetable_memOnly (tf : Nat) : MemOnly (procPagetable tf : KM N _) := by
  refine uvmcreate_memOnly.bind fun r => ?_
  cases r with
  | none => exact MemOnly.pure _
  | some pt =>
    refine (mappages_memOnly _ _ _ _ _ _).bind fun r => ?_
    dsimp only
    split
    · refine (mappages_memOnly _ _ _ _ _ _).bind fun r => ?_
      split
      · exact MemOnly.pure _
      · exact (uvmunmap_memOnly _ _ _ _).bind fun _ =>
          (uvmfree_memOnly _ _).bind fun _ => MemOnly.pure _
    · exact (uvmfree_memOnly _ _).bind fun _ => MemOnly.pure _

theorem procFreepagetable_memOnly (pt : PageTable) (sz : Nat) :
    MemOnly (procFreepagetable pt sz : KM N _) :=
  (uvmunmap_memOnly _ _ _ _).bind fun _ =>
    (uvmunmap_memOnly _ _ _ _).bind fun _ => uvmfree_memOnly _ _

end Xv6
