import Xv6.Kernel.Copy
import Xv6.Lib.Ranges

/-!
# Page tables and the free list: `walk`, `mappages`, `uvmunmap`, `freewalk`

* `MemRuns x fl a fl'`   the routine `x`, started with the free list `fl`, returns `a` and leaves `fl'`;
* `PageTable.flat`   the tree as a map from page numbers to pages;
* `PageTable.tables`   the pages that the tree itself takes;
* `walk_runs`, `mappages_runs`, `uvmunmap_runs`, `freewalk_frees`   what the routines do to both: they
  return, and no page is lost or gained.
-/

namespace Xv6
variable {N : ℕ} {α β γ : Type}

/-! ## routines on the free list -/

/-- `x` returns `a`, uses the free list only, and leaves `fl'` of `fl` -/
def MemRuns (x : KM N α) (fl : List Nat) (a : α) (fl' : List Nat) : Prop :=
  ∀ s : KState N, .kmem ∉ s.held → s.k.freelist = fl → x s = some (a, s.setFree fl')

namespace MemRuns
variable {x : KM N α} {f : α → KM N β} {fl fl' fl'' : List Nat} {a : α} {b : β}

theorem pure (a : α) (fl : List Nat) : MemRuns (Pure.pure a : KM N α) fl a fl := by
  rintro s - rfl
  rfl

theorem bind (hx : MemRuns x fl a fl') (hf : MemRuns (f a) fl' b fl'') : MemRuns (x >>= f) fl b fl'' := by
  intro s hs hfl
  rw [Act.bind_of (hx s hs hfl)]
  exact hf (s.setFree fl') hs rfl

theorem unique (h : MemRuns x fl a fl') {a' : α} {s s' : KState N} (hs : .kmem ∉ s.held)
    (hfl : s.k.freelist = fl) (e : x s = some (a', s')) : a' = a ∧ s' = s.setFree fl' := by
  rw [h s hs hfl, Option.some.injEq, Prod.mk.injEq] at e
  exact ⟨e.1.symm, e.2.symm⟩

end MemRuns

/-- a page that `kfree` accepts -/
def Freeable (pa : Nat) : Prop := pa % PGSIZE = 0 ∧ kend ≤ pa ∧ pa < PHYSTOP

instance (pa : Nat) : Decidable (Freeable pa) := inferInstanceAs (Decidable (_ ∧ _))

theorem kalloc_runs (fl : List Nat) : MemRuns (kalloc : KM N (Option Nat)) fl fl.head? fl.tail := by
  intro s hs hfl
  subst hfl
  simp [kalloc, Act.bind_run, acquire, release, hs, KState.setFree]

theorem kfree_runs {pa : Nat} (h : Freeable pa) (fl : List Nat) :
    MemRuns (kfree pa : KM N Unit) fl () (pa :: fl) := by
  intro s hs hfl
  subst hfl
  have hpa : ¬ (pa % PGSIZE ≠ 0 ∨ pa < kend ∨ PHYSTOP ≤ pa) := by
    obtain ⟨h1, h2, h3⟩ := h
    omega
  simp [kfree, hpa, Act.bind_run, acquire, release, hs, KState.setFree]

/-! ## the pages of a tree -/

/-- the page of the table and those of its entries -/
@[irreducible] def Table.pages (f : β → Multiset ℕ) (t : Table β) : Multiset ℕ :=
  {t.pa} + ∑ i ∈ Finset.range 512, (t.ent i).elim 0 f

theorem Table.pages_set (f : β → Multiset ℕ) (t : Table β) {i : Nat} (hi : i < 512) (e : Option β) :
    (t.set i e).pages f + (t.ent i).elim 0 f = t.pages f + e.elim 0 f := by
  unfold Table.pages
  have hmem := Finset.mem_range.mpr hi
  rw [← Finset.add_sum_erase _ _ hmem, ← Finset.add_sum_erase _ (fun j => (t.ent j).elim 0 f) hmem]
  have hrest : ∑ j ∈ (Finset.range 512).erase i, ((t.set i e).ent j).elim 0 f
      = ∑ j ∈ (Finset.range 512).erase i, (t.ent j).elim 0 f :=
    Finset.sum_congr rfl fun j hj => by
      simp [Table.set, Finset.ne_of_mem_erase hj]
  have hself : (t.set i e).ent i = e := by simp [Table.set]
  rw [hrest, hself]
  show {t.pa} + (e.elim 0 f + _) + (t.ent i).elim 0 f = {t.pa} + ((t.ent i).elim 0 f + _) + e.elim 0 f
  abel

@[simp] theorem Table.pages_empty (f : β → Multiset ℕ) (pa : Nat) :
    (Table.empty pa : Table β).pages f = {pa} := by
  have hsum : ∑ i ∈ Finset.range 512, ((Table.empty pa : Table β).ent i).elim 0 f = 0 :=
    Finset.sum_eq_zero fun _ _ => rfl
  unfold Table.pages
  rw [hsum, add_zero]
  rfl

namespace PageTable

/-- the pages that the tree takes -/
def tables (pt : PageTable) : Multiset ℕ := Table.pages (Table.pages (Table.pages fun _ => 0)) pt

/-- the number of entries of level 0 that a tree can have -/
def NPG : Nat := 2 ^ 27

/-- what page number `v` is mapped to -/
def flat (pt : PageTable) (v : Nat) : Option Leaf := pt.leaf (v * PGSIZE)

/-- the table of level 0 that holds the PTE of `va` -/
def path (pt : PageTable) (va : Nat) : Option (Table Leaf) :=
  (pt.ent (px 2 va)).bind fun t1 => t1.ent (px 1 va)

theorem leaf_eq_path (pt : PageTable) (va : Nat) :
    pt.leaf va = (pt.path va).bind fun t0 => t0.ent (px 0 va) := by
  unfold leaf path
  cases pt.ent (px 2 va) <;> rfl

end PageTable

theorem px_lt (level va : Nat) : px level va < 512 := Nat.mod_lt _ (by decide)

theorem px_inj {v w : Nat} (hv : v < PageTable.NPG) (hw : w < PageTable.NPG) :
    (px 2 (v * PGSIZE) = px 2 (w * PGSIZE) ∧ px 1 (v * PGSIZE) = px 1 (w * PGSIZE) ∧
      px 0 (v * PGSIZE) = px 0 (w * PGSIZE)) ↔ v = w := by
  unfold PageTable.NPG at *
  simp only [px, PGSIZE, Nat.reduceMul, Nat.reduceAdd, Nat.reducePow] at *
  omega

theorem leaf_pgrounddown (pt : PageTable) (va : Nat) : pt.leaf va = pt.flat (va / PGSIZE) := by
  have h : ∀ level, level < 3 → px level va = px level (va / PGSIZE * PGSIZE) := by
    intro level hl
    unfold px PGSIZE
    rcases (show level = 0 ∨ level = 1 ∨ level = 2 by omega) with rfl | rfl | rfl
    · omega
    · omega
    · omega
  unfold PageTable.flat PageTable.leaf
  rw [h 0 (by decide), h 1 (by decide), h 2 (by decide)]

/-! ## `walk` -/

/-- one turn of `walk`'s loop: nothing, a fresh table, or no memory -/
theorem descend_runs (t : Table (Table β)) (i : Nat) (alloc : Bool) (fl : List Nat) :
    ∃ t' c fl', MemRuns (descend t i alloc : KM N _) fl (t', c) fl' ∧
      ((t.ent i = c ∧ t' = t ∧ fl' = fl ∧ (c = none → alloc = true → fl = [])) ∨
        ∃ pa, alloc = true ∧ t.ent i = none ∧ fl = pa :: fl' ∧ c = some (Table.empty pa) ∧
          t' = t.set i c) := by
  unfold descend
  cases hi : t.ent i with
  | some c => exact ⟨t, some c, fl, MemRuns.pure _ _, Or.inl ⟨rfl, rfl, rfl, nofun⟩⟩
  | none =>
    cases alloc with
    | false => exact ⟨t, none, fl, MemRuns.pure _ _, Or.inl ⟨rfl, rfl, rfl, nofun⟩⟩
    | true =>
      cases fl with
      | nil => exact ⟨t, none, [], (kalloc_runs []).bind (MemRuns.pure _ _),
          Or.inl ⟨rfl, rfl, rfl, fun _ _ => rfl⟩⟩
      | cons pa fl => exact ⟨_, _, fl, (kalloc_runs (pa :: fl)).bind (MemRuns.pure _ _),
          Or.inr ⟨pa, rfl, rfl, rfl, rfl, rfl⟩⟩

/-- what a routine does to a page table and the free list: the tree now maps `f`; the pages `put`
came to the free list or the tables from outside, and `got` left them -/
structure Turns (pt : PageTable) (fl : List Nat) (pt' : PageTable) (fl' : List Nat)
    (f : Nat → Option Leaf) (put got : Multiset ℕ) : Prop where
  root : pt'.pa = pt.pa
  flat : ∀ v, v < PageTable.NPG → pt'.flat v = f v
  pages : (fl' : Multiset ℕ) + pt'.tables + got = fl + pt.tables + put

theorem Turns.refl (pt : PageTable) (fl : List Nat) : Turns pt fl pt fl pt.flat 0 0 :=
  ⟨rfl, fun _ _ => rfl, rfl⟩

theorem Turns.trans {pt pt' pt'' : PageTable} {fl fl' fl'' : List Nat} {f f' : Nat → Option Leaf}
    {put put' got got' : Multiset ℕ} (h : Turns pt fl pt' fl' f put got)
    (h' : Turns pt' fl' pt'' fl'' f' put' got') :
    Turns pt fl pt'' fl'' f' (put + put') (got + got') where
  root := h'.root.trans h.root
  flat := h'.flat
  pages := by
    rw [add_comm got, ← add_assoc, h'.pages, add_right_comm, h.pages, add_assoc]

theorem Turns.congr {pt pt' : PageTable} {fl fl' : List Nat} {f f' : Nat → Option Leaf}
    {put got : Multiset ℕ} (h : Turns pt fl pt' fl' f put got)
    (hf : ∀ v, v < PageTable.NPG → f v = f' v) : Turns pt fl pt' fl' f' put got :=
  ⟨h.root, fun v hv => (h.flat v hv).trans (hf v hv), h.pages⟩

@[simp] theorem Table.set_ent (t : Table β) (i : Nat) (e : Option β) (j : Nat) :
    (t.set i e).ent j = if j = i then e else t.ent j := by
  simp [Table.set, Function.update_apply]

@[simp] theorem Table.set_pa (t : Table β) (i : Nat) (e : Option β) : (t.set i e).pa = t.pa := rfl

theorem Table.set_same {t : Table β} {i : Nat} {e : Option β} (h : t.ent i = e) : t.set i e = t := by
  subst h
  show ({ t with ent := Function.update t.ent i (t.ent i) } : Table β) = t
  rw [Function.update_eq_self]

theorem Turns.level2 {pt : PageTable} {i pa : Nat} (hi : i < 512) (h : pt.ent i = none)
    (fl : List Nat) : Turns pt (pa :: fl) (pt.set i (some (Table.empty pa))) fl pt.flat 0 0 where
  root := rfl
  flat v _ := by
    unfold PageTable.flat PageTable.leaf
    rw [Table.set_ent]
    by_cases e : px 2 (v * PGSIZE) = i
    · rw [if_pos e, e, h]
      rfl
    · rw [if_neg e]
  pages := by
    have hs := Table.pages_set (Table.pages (Table.pages fun _ => 0)) pt hi (some (Table.empty pa))
    simp only [h, Option.elim_none, Option.elim_some, add_zero, Table.pages_empty] at hs
    unfold PageTable.tables
    rw [hs, ← Multiset.cons_coe, ← Multiset.singleton_add]
    abel

theorem Turns.level1 {pt : PageTable} {t : Table (Table Leaf)} {i j pa : Nat} (hi : i < 512)
    (hj : j < 512) (h : pt.ent i = some t) (h' : t.ent j = none) (fl : List Nat) :
    Turns pt (pa :: fl) (pt.set i (some (t.set j (some (Table.empty pa))))) fl pt.flat 0 0 where
  root := rfl
  flat v _ := by
    unfold PageTable.flat PageTable.leaf
    rw [Table.set_ent]
    by_cases e : px 2 (v * PGSIZE) = i
    · rw [if_pos e, e, h]
      simp only [Option.bind_some, Table.set_ent]
      by_cases e' : px 1 (v * PGSIZE) = j
      · rw [if_pos e', e', h']
        rfl
      · rw [if_neg e']
    · rw [if_neg e]
  pages := by
    have hs := Table.pages_set (Table.pages (Table.pages fun _ => 0)) pt hi
      (some (t.set j (some (Table.empty pa))))
    have ht := Table.pages_set (Table.pages fun _ => 0) t hj (some (Table.empty pa))
    simp only [h, h', Option.elim_none, Option.elim_some, add_zero, Table.pages_empty] at hs ht
    rw [ht, ← add_assoc, add_right_comm] at hs
    unfold PageTable.tables
    rw [add_right_cancel hs, ← Multiset.cons_coe, ← Multiset.singleton_add]
    abel

/-- `walk` for an address below `MAXVA` returns; it finds the PTE unless a table is missing, which
with `alloc` means that memory has run out -/
theorem walk_runs (pt : PageTable) (va : Nat) (hva : va < MAXVA) (alloc : Bool) (fl : List Nat) :
    ∃ pt' ok fl', MemRuns (walk pt va alloc : KM N _) fl (pt', ok) fl' ∧ Turns pt fl pt' fl' pt.flat 0 0 ∧
      ok = (pt'.path va).isSome ∧ (alloc = false → pt' = pt ∧ fl' = fl) ∧
      (alloc = true → ok = false → fl' = []) := by
  have hi := px_lt 2 va
  have hj := px_lt 1 va
  obtain ⟨p1, c1, f1, r1, h1⟩ := descend_runs (N := N) pt (px 2 va) alloc fl
  unfold walk
  rw [if_neg (by omega)]
  cases c1 with
  | none =>
    obtain ⟨he, rfl, rfl, hfl⟩ | ⟨pa, -, -, -, h, -⟩ := h1
    · exact ⟨p1, false, f1, r1.bind (MemRuns.pure _ _), Turns.refl _ _, by simp [PageTable.path, he],
        fun _ => ⟨rfl, rfl⟩, fun ha _ => hfl rfl ha⟩
    · cases h
  | some t1 =>
    obtain ⟨p2, c2, f2, r2, h2⟩ := descend_runs (N := N) t1 (px 1 va) alloc f1
    have hp1 : p1.ent (px 2 va) = some t1 ∧ Turns pt fl p1 f1 pt.flat 0 0 ∧
        (alloc = false → p1 = pt ∧ f1 = fl) := by
      obtain ⟨he, rfl, rfl, -⟩ | ⟨pa, ha, he, rfl, h, rfl⟩ := h1
      · exact ⟨he, Turns.refl _ _, fun _ => ⟨rfl, rfl⟩⟩
      · rw [h]
        exact ⟨by simp, Turns.level2 hi he f1, by simp [ha]⟩
    obtain ⟨he, g1, hsame⟩ := hp1
    refine ⟨p1.set (px 2 va) (some p2), c2.isSome, f2, r1.bind (r2.bind (MemRuns.pure _ _)), ?_⟩
    obtain ⟨hc, rfl, rfl, hfl⟩ | ⟨pa, ha, hn, rfl, rfl, rfl⟩ := h2
    · rw [Table.set_same he]
      refine ⟨g1, by simp [PageTable.path, he, hc], hsame, fun ha ho => hfl ?_ ha⟩
      simpa using ho
    · exact ⟨(g1.trans (Turns.level1 hi hj he hn f2)).congr g1.flat, by simp [PageTable.path], by simp [ha], by simp⟩

/-! ## writing a PTE -/

namespace PageTable

theorem setLeaf_pa (pt : PageTable) (va : Nat) (l : Option Leaf) : (pt.setLeaf va l).pa = pt.pa := by
  unfold setLeaf
  split
  · rfl
  · split <;> rfl

theorem setLeaf_tables (pt : PageTable) (va : Nat) (l : Option Leaf) :
    (pt.setLeaf va l).tables = pt.tables := by
  unfold setLeaf
  split
  · rfl
  · rename_i t1 h1
    split
    · rfl
    · rename_i t0 h0
      have s2 := Table.pages_set (Table.pages (Table.pages fun _ => 0)) pt (px_lt 2 va)
        (some (t1.set (px 1 va) (some (t0.set (px 0 va) l))))
      have s1 := Table.pages_set (Table.pages fun _ => 0) t1 (px_lt 1 va)
        (some (t0.set (px 0 va) l))
      have s0 := Table.pages_set (fun _ : Leaf => (0 : Multiset ℕ)) t0 (px_lt 0 va) l
      have hz : ∀ o : Option Leaf, o.elim (0 : Multiset ℕ) (fun _ => 0) = 0 := by
        intro o
        cases o <;> rfl
      simp only [hz, add_zero] at s0
      simp only [h0, Option.elim_some, s0, add_left_inj] at s1
      simp only [h1, Option.elim_some, s1, add_left_inj] at s2
      exact s2

theorem setLeaf_flat {pt : PageTable} {v : Nat} (hv : v < NPG) (h : (pt.path (v * PGSIZE)).isSome)
    (l : Option Leaf) {w : Nat} (hw : w < NPG) :
    (pt.setLeaf (v * PGSIZE) l).flat w = Function.update pt.flat v l w := by
  obtain ⟨t0, ht0⟩ := Option.isSome_iff_exists.mp h
  unfold path at ht0
  obtain ⟨t1, h1, h0⟩ := Option.bind_eq_some_iff.mp ht0
  have hinj := px_inj hw hv
  unfold flat setLeaf leaf
  rw [h1]
  dsimp only
  rw [h0, Function.update_apply]
  dsimp only
  rw [Table.set_ent]
  by_cases e2 : px 2 (w * PGSIZE) = px 2 (v * PGSIZE)
  · rw [if_pos e2, Option.bind_some, Table.set_ent]
    by_cases e1 : px 1 (w * PGSIZE) = px 1 (v * PGSIZE)
    · rw [if_pos e1, Option.bind_some, Table.set_ent]
      by_cases e0 : px 0 (w * PGSIZE) = px 0 (v * PGSIZE)
      · rw [if_pos e0, if_pos (hinj.mp ⟨e2, e1, e0⟩)]
      · rw [if_neg e0, if_neg fun e => e0 (hinj.mpr e).2.2, e2, e1, h1, Option.bind_some, h0]
        rfl
    · rw [if_neg e1, if_neg fun e => e1 (hinj.mpr e).2.1, e2, h1]
      rfl
  · rw [if_neg e2, if_neg fun e => e2 (hinj.mpr e).1]

theorem path_of_flat {pt : PageTable} {v : Nat} {l : Leaf} (h : pt.flat v = some l) :
    (pt.path (v * PGSIZE)).isSome := by
  unfold flat at h
  rw [leaf_eq_path] at h
  obtain ⟨t0, ht0, -⟩ := Option.bind_eq_some_iff.mp h
  rw [ht0]
  rfl

end PageTable

theorem Turns.setLeaf {pt : PageTable} {v : Nat} (hv : v < PageTable.NPG)
    (h : (pt.path (v * PGSIZE)).isSome) (l : Option Leaf) (fl : List Nat) :
    Turns pt fl (pt.setLeaf (v * PGSIZE) l) fl (Function.update pt.flat v l) 0 0 :=
  ⟨PageTable.setLeaf_pa _ _ _, fun _ hw => PageTable.setLeaf_flat hv h l hw, by
    rw [PageTable.setLeaf_tables]⟩

/-! ## `mappages` -/

/-- the PTE of the `i`-th page of a range mapped to `pa` -/
def mappedLeaf (ram : Nat → Page) (perm pa i : Nat) : Leaf :=
  ⟨pa + i * PGSIZE, perm ||| PTE_V, ram (pa + i * PGSIZE)⟩

theorem mappedLeaf_zero (ram : Nat → Page) (perm pa : Nat) :
    mappedLeaf ram perm pa 0 = ⟨pa, perm ||| PTE_V, ram pa⟩ := by
  simp [mappedLeaf]

theorem mappedLeaf_succ (ram : Nat → Page) (perm pa i : Nat) :
    mappedLeaf ram perm pa (i + 1) = mappedLeaf ram perm (pa + PGSIZE) i := by
  unfold mappedLeaf
  rw [Nat.succ_mul, Nat.add_right_comm, Nat.add_assoc pa]

theorem mapRange_congr {f g : Nat → Option Leaf} {w : Nat} (h : f w = g w) (v n : Nat)
    (l : Nat → Leaf) : mapRange f v n l w = mapRange g v n l w := by
  unfold mapRange
  rw [h]

/-- one turn of the loop of `mappages` for an absent page: it is mapped, or memory has run out -/
theorem mapPage_runs (pt : PageTable) {v : Nat} (hv : v < 2 ^ 26) (habs : pt.flat v = none)
    (l : Leaf) (fl : List Nat) :
    ∃ pt' ok fl', MemRuns (walk pt (v * PGSIZE) true : KM N _) fl (pt', ok) fl' ∧
      (ok = true ∧ pt'.leaf (v * PGSIZE) = none ∧
          Turns pt fl (pt'.setLeaf (v * PGSIZE) (some l)) fl' (Function.update pt.flat v (some l)) 0 0 ∨
        ok = false ∧ fl' = [] ∧ Turns pt fl pt' fl' pt.flat 0 0) := by
  have hva : v * PGSIZE < MAXVA := by
    unfold PGSIZE MAXVA
    omega
  have hnpg : v < PageTable.NPG := by
    unfold PageTable.NPG
    omega
  obtain ⟨pt', ok, fl', hr, ht, hok, -, hfl⟩ := walk_runs (N := N) pt _ hva true fl
  refine ⟨pt', ok, fl', hr, ?_⟩
  cases ok with
  | false => exact Or.inr ⟨rfl, hfl rfl rfl, ht⟩
  | true =>
    refine Or.inl ⟨rfl, (ht.flat v hnpg).trans habs, ?_⟩
    refine (ht.trans (Turns.setLeaf hnpg hok.symm (some l) fl')).congr fun w hw => ?_
    rw [Function.update_apply, Function.update_apply, ht.flat w hw]

theorem mappagesLoop_runs (ram : Nat → Page) (perm n : Nat) (pt : PageTable) {v : Nat} (pa : Nat)
    (fl : List Nat) (hv : v + n < 2 ^ 26)
    (habs : ∀ w, v ≤ w → w ≤ v + n → pt.flat w = none) :
    ∃ pt' ok fl' k, MemRuns (mappagesLoop ram perm n pt (v * PGSIZE) pa : KM N _) fl (pt', ok) fl' ∧
      Turns pt fl pt' fl' (mapRange pt.flat v k (mappedLeaf ram perm pa)) 0 0 ∧
      (ok = true ∧ k = n + 1 ∨ ok = false ∧ k ≤ n ∧ fl' = []) := by
  induction n generalizing pt v pa fl with
  | zero =>
    unfold mappagesLoop
    obtain ⟨pt1, ok, fl1, hr, ⟨rfl, hl, ht⟩ | ⟨rfl, hfl, ht⟩⟩ :=
      mapPage_runs (N := N) pt (by omega) (habs v (by omega) (by omega)) ⟨pa, perm ||| PTE_V, ram pa⟩ fl
    · refine ⟨pt1.setLeaf (v * PGSIZE) (some ⟨pa, perm ||| PTE_V, ram pa⟩), true, fl1, 1,
        hr.bind ?_, ?_, Or.inl ⟨rfl, rfl⟩⟩
      · simp only [↓reduceIte, hl]
        exact MemRuns.pure _ _
      · rw [mapRange_one, mappedLeaf_zero]
        exact ht
    · exact ⟨pt1, false, fl1, 0, hr.bind (MemRuns.pure _ _), by simpa using ht,
        Or.inr ⟨rfl, by omega, hfl⟩⟩
  | succ n ih =>
    unfold mappagesLoop
    obtain ⟨pt1, ok, fl1, hr, ⟨rfl, hl, ht⟩ | ⟨rfl, hfl, ht⟩⟩ :=
      mapPage_runs (N := N) pt (by omega) (habs v (by omega) (by omega)) ⟨pa, perm ||| PTE_V, ram pa⟩ fl
    · obtain ⟨pt2, ok, fl2, k, hr2, ht2, hk⟩ := ih (pt1.setLeaf (v * PGSIZE) (some _)) (v := v + 1)
        (pa + PGSIZE) fl1 (by omega) (fun w h1 h2 => by
          rw [ht.flat w (by unfold PageTable.NPG; omega), Function.update_of_ne (by omega)]
          exact habs w (by omega) (by omega))
      refine ⟨pt2, ok, fl2, k + 1, hr.bind ?_, ?_, ?_⟩
      · simp only [↓reduceIte, hl]
        rw [show (v * PGSIZE + PGSIZE) % 2 ^ 64 = (v + 1) * PGSIZE by unfold PGSIZE; omega]
        exact hr2
      · refine (ht.trans ht2).congr fun w hw => ?_
        rw [mapRange_succ, mapRange_congr (ht.flat w hw), mappedLeaf_zero]
        simp only [mappedLeaf_succ]
      · rcases hk with ⟨hok, rfl⟩ | ⟨hok, hk, hfl⟩
        · exact Or.inl ⟨hok, rfl⟩
        · exact Or.inr ⟨hok, by omega, hfl⟩
    · exact ⟨pt1, false, fl1, 0, hr.bind (MemRuns.pure _ _), by simpa using ht,
        Or.inr ⟨rfl, by omega, hfl⟩⟩

/-- **`mappages` on absent pages**: it maps all pages that `[va, va + size)` touches, or some of them
when memory runs out -/
theorem mappages_runs (ram : Nat → Page) (pt : PageTable) (va : Nat) {size : Nat} (pa perm : Nat)
    (fl : List Nat) (hsize : 0 < size) (hva : va + size ≤ MAXVA)
    (habs : ∀ w, va / PGSIZE ≤ w → w ≤ (va + size - 1) / PGSIZE → pt.flat w = none) :
    ∃ pt' ok fl' k, MemRuns (mappages ram pt va size pa perm : KM N _) fl (pt', ok) fl' ∧
      Turns pt fl pt' fl' (mapRange pt.flat (va / PGSIZE) k (mappedLeaf ram perm pa)) 0 0 ∧
      (ok = true ∧ k = (va + size - 1) / PGSIZE - va / PGSIZE + 1 ∨
        ok = false ∧ k ≤ (va + size - 1) / PGSIZE - va / PGSIZE ∧ fl' = []) := by
  unfold mappages
  rw [if_neg (by omega)]
  unfold MAXVA at hva
  have hn : (pgrounddown ((va + size - 1) % 2 ^ 64) + 2 ^ 64 - pgrounddown va) % 2 ^ 64 / PGSIZE
      = (va + size - 1) / PGSIZE - va / PGSIZE := by
    unfold pgrounddown PGSIZE
    omega
  dsimp only
  rw [hn]
  refine mappagesLoop_runs ram perm _ pt pa fl ?_ fun w h1 h2 => habs w h1 ?_
  · unfold PGSIZE
    omega
  · have : va / PGSIZE ≤ (va + size - 1) / PGSIZE := Nat.div_le_div_right (by omega)
    omega

theorem mappages_one_runs (ram : Nat → Page) (pt : PageTable) {v : Nat} (pa perm : Nat)
    (fl : List Nat) (hv : v < 2 ^ 26) (habs : pt.flat v = none) :
    ∃ pt' ok fl', MemRuns (mappages ram pt (v * PGSIZE) PGSIZE pa perm : KM N _) fl (pt', ok) fl' ∧
      (ok = true ∧
          Turns pt fl pt' fl' (Function.update pt.flat v (some ⟨pa, perm ||| PTE_V, ram pa⟩)) 0 0 ∨
        ok = false ∧ fl' = [] ∧ Turns pt fl pt' fl' pt.flat 0 0) := by
  have h1 : v * PGSIZE / PGSIZE = v := Nat.mul_div_cancel _ (by decide)
  have h2 : (v * PGSIZE + PGSIZE - 1) / PGSIZE = v := by
    unfold PGSIZE
    omega
  obtain ⟨pt', ok, fl', k, hr, ht, hk⟩ := mappages_runs (N := N) ram pt (v * PGSIZE) pa perm fl
    (show 0 < PGSIZE by decide) (by unfold PGSIZE MAXVA; omega) (fun w hw hw' => by
      rw [show w = v by omega]
      exact habs)
  rw [h1, h2, Nat.sub_self] at hk
  rw [h1] at ht
  refine ⟨pt', ok, fl', hr, ?_⟩
  rcases hk with ⟨rfl, rfl⟩ | ⟨rfl, hk, hfl⟩
  · rw [mapRange_one, mappedLeaf_zero] at ht
    exact Or.inl ⟨rfl, ht⟩
  · rw [show k = 0 by omega, mapRange_zero] at ht
    exact Or.inr ⟨rfl, hfl, ht⟩

/-! ## `uvmunmap` -/

/-- the page of a leaf, as a multiset -/
def Leaf.page (l : Leaf) : Multiset ℕ := {l.pa}

/-- the pages that the `n` page numbers from `v` on are mapped to -/
def PageTable.users (pt : PageTable) (v n : Nat) : Multiset ℕ := rangeSum Leaf.page pt.flat v n

/-- a present page that `uvmunmap` accepts -/
def Leaf.Ok (doFree : Bool) (l : Leaf) : Prop := l.flags ≠ PTE_V ∧ (doFree = true → Freeable l.pa)

theorem unmapRange_congr {f g : Nat → Option Leaf} {w : Nat} (h : f w = g w) (v n : Nat) :
    unmapRange f v n w = unmapRange g v n w := by
  unfold unmapRange
  rw [h]

theorem uvmunmapLoop_runs (doFree : Bool) (n : Nat) (pt : PageTable) {v : Nat} (fl : List Nat)
    (hv : v + n ≤ 2 ^ 26)
    (hpre : ∀ w, v ≤ w → w < v + n → ∃ l, pt.flat w = some l ∧ l.Ok doFree) :
    ∃ pt' fl', MemRuns (uvmunmapLoop doFree n pt (v * PGSIZE) : KM N _) fl pt' fl' ∧
      Turns pt fl pt' fl' (unmapRange pt.flat v n) (if doFree then pt.users v n else 0) 0 ∧
      pt'.tables = pt.tables := by
  induction n generalizing pt v fl with
  | zero =>
    refine ⟨pt, fl, MemRuns.pure _ _, ?_, rfl⟩
    have hz : (if doFree then pt.users v 0 else 0) = 0 := by simp [PageTable.users]
    rw [unmapRange_zero, hz]
    exact Turns.refl pt fl
  | succ n ih =>
    have hnpg : v < PageTable.NPG := by
      unfold PageTable.NPG
      omega
    obtain ⟨l, hl, hok, hfree⟩ := hpre v (by omega) (by omega)
    have hpath := PageTable.path_of_flat hl
    obtain ⟨pt1, ok, fl1, hr, -, hok1, hsame, -⟩ :=
      walk_runs (N := N) pt (v * PGSIZE) (by unfold PGSIZE MAXVA; omega) false fl
    obtain ⟨rfl, rfl⟩ := hsame rfl
    rw [hpath] at hok1
    subst hok1
    have ht := Turns.setLeaf hnpg hpath none (if doFree then l.pa :: fl1 else fl1)
    obtain ⟨pt2, fl2, hr2, ht2, htab⟩ := ih (pt1.setLeaf (v * PGSIZE) none) (v := v + 1)
      (if doFree then l.pa :: fl1 else fl1) (by omega) (fun w h1 h2 => by
        rw [ht.flat w (by unfold PageTable.NPG; omega), Function.update_of_ne (by omega)]
        exact hpre w (by omega) (by omega))
    have husers : (pt1.setLeaf (v * PGSIZE) none).users (v + 1) n = pt1.users (v + 1) n :=
      rangeSum_congr _ fun w h1 h2 => by
        rw [ht.flat w (by unfold PageTable.NPG; omega), Function.update_of_ne (by omega)]
    have hsucc : pt1.users v (n + 1) = {l.pa} + pt1.users (v + 1) n := by
      unfold PageTable.users
      rw [rangeSum_succ, hl]
      rfl
    refine ⟨pt2, fl2, ?_, ?_, htab.trans (PageTable.setLeaf_tables _ _ _)⟩
    · unfold uvmunmapLoop
      refine hr.bind ?_
      simp only [↓reduceIte]
      rw [show pt1.leaf (v * PGSIZE) = some l from hl]
      simp only [hok, ↓reduceIte]
      rw [show v * PGSIZE + PGSIZE = (v + 1) * PGSIZE by rw [Nat.succ_mul]]
      cases doFree with
      | false => exact hr2
      | true => exact (kfree_runs (hfree rfl) fl1).bind hr2
    · refine ⟨(ht.trans ht2).root, fun w hw => ?_, ?_⟩
      · rw [ht2.flat w hw, unmapRange_succ]
        exact unmapRange_congr (ht.flat w hw) _ _
      · rw [ht2.pages, PageTable.setLeaf_tables, husers, hsucc]
        cases doFree with
        | false => rfl
        | true =>
          simp only [↓reduceIte, ← Multiset.cons_coe, ← Multiset.singleton_add]
          abel

/-- **`uvmunmap` on present pages**: it removes exactly these; with `do_free` they go to the free
list -/
theorem uvmunmap_runs (pt : PageTable) {v n : Nat} (doFree : Bool) (fl : List Nat)
    (hv : v + n ≤ 2 ^ 26)
    (hpre : ∀ w, v ≤ w → w < v + n → ∃ l, pt.flat w = some l ∧ l.Ok doFree) :
    ∃ pt' fl', MemRuns (uvmunmap pt (v * PGSIZE) n doFree : KM N _) fl pt' fl' ∧
      Turns pt fl pt' fl' (unmapRange pt.flat v n) (if doFree then pt.users v n else 0) 0 ∧
      pt'.tables = pt.tables := by
  unfold uvmunmap
  rw [if_neg (by simp)]
  exact uvmunmapLoop_runs doFree n pt fl hv hpre

/-! ## `freewalk` -/

/-- a routine that only gives pages back -/
def Frees (x : KM N Unit) (g : Multiset ℕ) : Prop :=
  ∀ fl, ∃ fl', MemRuns x fl () fl' ∧ (fl' : Multiset ℕ) = fl + g

theorem Frees.nothing : Frees (pure () : KM N Unit) 0 := fun fl => ⟨fl, MemRuns.pure _ _, by simp⟩

theorem Frees.bind {x y : KM N Unit} {g h : Multiset ℕ} (hx : Frees x g) (hy : Frees y h) :
    Frees (do x; y) (g + h) := by
  intro fl
  obtain ⟨fl1, hr, h1⟩ := hx fl
  obtain ⟨fl2, hr', h2⟩ := hy fl1
  exact ⟨fl2, hr.bind hr', by rw [h2, h1, add_assoc]⟩

theorem kfree_frees {pa : Nat} (h : Freeable pa) : Frees (kfree pa : KM N Unit) {pa} := by
  intro fl
  refine ⟨pa :: fl, kfree_runs h fl, ?_⟩
  rw [← Multiset.cons_coe, ← Multiset.singleton_add, add_comm]

theorem Frees.each {f : Nat → KM N Unit} {g : Nat → Multiset ℕ} (is : List Nat)
    (h : ∀ i ∈ is, Frees (f i) (g i)) : Frees (Act.each f is) (is.map g).sum := by
  induction is with
  | nil => exact Frees.nothing
  | cons i is ih =>
    rw [List.map_cons, List.sum_cons]
    exact (h i (by simp)).bind (ih fun j hj => h j (by simp [hj]))

theorem sum_map_range (g : Nat → Multiset ℕ) (n : Nat) :
    ((List.range n).map g).sum = ∑ i ∈ Finset.range n, g i := rfl

theorem freewalkTable_frees {f : β → KM N Unit} {g : β → Multiset ℕ} {t : Table β}
    (hf : ∀ i, i < 512 → ∀ c, t.ent i = some c → Frees (f c) (g c)) (hpa : Freeable t.pa) :
    Frees (freewalkTable f t) (t.pages g) := by
  unfold Table.pages freewalkTable
  rw [add_comm, ← sum_map_range]
  refine Frees.bind (Frees.each _ fun i hi => ?_) (kfree_frees hpa)
  cases h : t.ent i with
  | none => exact Frees.nothing
  | some c => exact hf i (List.mem_range.mp hi) c h

theorem Table.mem_pages_self (g : β → Multiset ℕ) (t : Table β) : t.pa ∈ t.pages g := by
  unfold Table.pages
  rw [Multiset.mem_add]
  exact Or.inl (Multiset.mem_singleton_self _)

theorem Table.mem_pages_of_ent {g : β → Multiset ℕ} {t : Table β} {i : Nat} {c : β} (hi : i < 512)
    (h : t.ent i = some c) {pa : Nat} (hpa : pa ∈ g c) : pa ∈ t.pages g := by
  unfold Table.pages
  rw [Multiset.mem_add, Multiset.mem_sum]
  refine Or.inr ⟨i, Finset.mem_range.mpr hi, ?_⟩
  rw [h]
  exact hpa

/-- the entry of level 0 with the three indices, as the page of a page number -/
theorem flat_of_indices {pt : PageTable} {t1 : Table (Table Leaf)} {t0 : Table Leaf} {i j k : Nat}
    (hi : i < 512) (hj : j < 512) (hk : k < 512) (h1 : pt.ent i = some t1) (h0 : t1.ent j = some t0) :
    pt.flat ((i * 512 + j) * 512 + k) = t0.ent k := by
  have e2 : px 2 (((i * 512 + j) * 512 + k) * PGSIZE) = i := by
    unfold px PGSIZE
    omega
  have e1 : px 1 (((i * 512 + j) * 512 + k) * PGSIZE) = j := by
    unfold px PGSIZE
    omega
  have e0 : px 0 (((i * 512 + j) * 512 + k) * PGSIZE) = k := by
    unfold px PGSIZE
    omega
  unfold PageTable.flat PageTable.leaf
  rw [e2, h1, e1, Option.bind_some, h0, e0]
  rfl

/-- **`freewalk` on a tree that maps nothing** frees exactly its tables -/
theorem freewalk_frees {pt : PageTable} (hempty : ∀ v, v < PageTable.NPG → pt.flat v = none)
    (hfree : ∀ pa ∈ pt.tables, Freeable pa) : Frees (freewalk pt : KM N Unit) pt.tables := by
  unfold PageTable.tables at hfree
  unfold PageTable.tables freewalk
  refine freewalkTable_frees (fun i hi t1 h1 => ?_) (hfree _ (Table.mem_pages_self _ _))
  have hfree1 : ∀ pa ∈ t1.pages (Table.pages fun _ => 0), Freeable pa := fun pa hpa =>
    hfree pa (Table.mem_pages_of_ent hi h1 hpa)
  refine freewalkTable_frees (fun j hj t0 h0 => ?_) (hfree1 _ (Table.mem_pages_self _ _))
  have hfree0 : Freeable t0.pa :=
    hfree1 _ (Table.mem_pages_of_ent hj h0 (Table.mem_pages_self _ _))
  refine freewalkTable_frees (fun k hk l hl => ?_) hfree0
  have hv : (i * 512 + j) * 512 + k < PageTable.NPG := by
    unfold PageTable.NPG
    omega
  rw [← flat_of_indices hi hj hk h1 h0, hempty _ hv] at hl
  cases hl

end Xv6
