import Xv6.Kernel.Pages

/-!
# User memory: `uvmalloc`, `uvmdealloc`, `uvmcopy`, `uvmfree`, and the page tables of processes

* `uvmalloc_runs`, `uvmdealloc_runs`, `uvmcopy_runs`   the user part of a table grows, shrinks, or is
  copied; where memory runs out, the table maps what it mapped before;
* `Space`   the pages of a process: the first `n` page numbers, the trapframe and
  the trampoline, and nothing else;
* `procPagetable_runs`, `procFreepagetable_frees`   a table is made from free pages, and gives all
  its pages back.
-/

namespace Xv6
open Function (update update_self update_of_ne update_apply)
variable {N : ℕ}

/-! ## sizes -/

/-- the number of pages of `sz` bytes -/
def npages (sz : Nat) : Nat := (sz + PGSIZE - 1) / PGSIZE

theorem pgroundup_eq {sz : Nat} (h : sz ≤ 2 ^ 63) : pgroundup sz = npages sz * PGSIZE := by
  unfold pgroundup pgrounddown npages PGSIZE
  rw [Nat.mod_eq_of_lt (by omega)]

theorem npages_mul (n : Nat) : npages (n * PGSIZE) = n := by
  unfold npages PGSIZE
  omega

theorem npages_mono {a b : Nat} (h : a ≤ b) : npages a ≤ npages b :=
  Nat.div_le_div_right (by omega)

/-! ## bookkeeping -/

theorem Turns.cancel {pt pt' : PageTable} {fl fl' : List Nat} {f : Nat → Option Leaf}
    {put got x : Multiset ℕ} (h : Turns pt fl pt' fl' f (put + x) (got + x)) :
    Turns pt fl pt' fl' f put got :=
  ⟨h.root, h.flat, add_right_cancel (b := x) (by rw [add_assoc, h.pages, ← add_assoc])⟩

theorem Turns.taken {pt pt' : PageTable} {fl fl' : List Nat} {f : Nat → Option Leaf}
    {put got : Multiset ℕ} (pa : Nat) (h : Turns pt fl pt' fl' f put got) :
    Turns pt (pa :: fl) pt' fl' f put (got + {pa}) :=
  ⟨h.root, h.flat, by
    rw [← add_assoc, h.pages, ← Multiset.cons_coe, ← Multiset.singleton_add]
    abel⟩

theorem Turns.given {pt pt' : PageTable} {fl fl' : List Nat} {f : Nat → Option Leaf}
    {put got : Multiset ℕ} (pa : Nat) (h : Turns pt fl pt' fl' f put got) :
    Turns pt fl pt' (pa :: fl') f (put + {pa}) got :=
  ⟨h.root, h.flat, by
    rw [← add_assoc, ← h.pages, ← Multiset.cons_coe, ← Multiset.singleton_add]
    abel⟩

/-- what is free or in the tables afterwards was so before, or came from outside -/
theorem Turns.mem {pt pt' : PageTable} {fl fl' : List Nat} {f : Nat → Option Leaf}
    {put got : Multiset ℕ} (h : Turns pt fl pt' fl' f put got) (pa : Nat)
    (hpa : pa ∈ fl' ∨ pa ∈ pt'.tables ∨ pa ∈ got) : pa ∈ fl ∨ pa ∈ pt.tables ∨ pa ∈ put := by
  have hmem : pa ∈ (fl' : Multiset ℕ) + pt'.tables + got := by
    simpa only [Multiset.mem_add, Multiset.mem_coe, or_assoc] using hpa
  rw [h.pages] at hmem
  simpa only [Multiset.mem_add, Multiset.mem_coe, or_assoc] using hmem

/-! ## one new page -/

/-- `kalloc` and `mappages` for one absent page, with the page given back if it cannot be mapped:
`uvmalloc` and `uvmcopy` do this in each turn -/
theorem newPage_runs (pt : PageTable) {v : Nat} (data : Page) (perm : Nat) (fl : List Nat)
    (hv : v < 2 ^ 26) (habs : pt.flat v = none) :
    fl = [] ∨ ∃ mem fl0 pt' ok fl', fl = mem :: fl0 ∧
      MemRuns (mappages (fun _ => data) pt (v * PGSIZE) PGSIZE mem perm : KM N _) fl0 (pt', ok) fl' ∧
      (ok = true ∧
          Turns pt fl pt' fl' (update pt.flat v (some ⟨mem, perm ||| PTE_V, data⟩)) 0 {mem} ∨
        ok = false ∧ Turns pt fl pt' (mem :: fl') pt.flat 0 0) := by
  cases fl with
  | nil => exact Or.inl rfl
  | cons mem fl0 =>
    obtain ⟨pt', ok, fl', hr, ht⟩ :=
      mappages_one_runs (N := N) (fun _ => data) pt mem perm fl0 hv habs
    refine Or.inr ⟨mem, fl0, pt', ok, fl', rfl, hr, ?_⟩
    rcases ht with ⟨hok, ht⟩ | ⟨hok, -, ht⟩
    · have h := ht.taken mem
      rw [zero_add] at h
      exact Or.inl ⟨hok, h⟩
    · exact Or.inr ⟨hok, ((ht.taken mem).given mem).cancel⟩

/-! ## `uvmdealloc` -/

/-- the pages from page number `v` on, `n` of them, are present and can be freed -/
def PageTable.Full (pt : PageTable) (v n : Nat) : Prop :=
  ∀ w, v ≤ w → w < v + n → ∃ l, pt.flat w = some l ∧ l.Ok true

theorem uvmdealloc_runs (pt : PageTable) (oldsz newsz : Nat) (fl : List Nat) (hlt : newsz < oldsz)
    (hold : npages oldsz ≤ 2 ^ 26)
    (hfull : pt.Full (npages newsz) (npages oldsz - npages newsz)) :
    ∃ pt' fl', MemRuns (uvmdealloc pt oldsz newsz : KM N _) fl (pt', newsz) fl' ∧
      Turns pt fl pt' fl' (unmapRange pt.flat (npages newsz) (npages oldsz - npages newsz))
        (pt.users (npages newsz) (npages oldsz - npages newsz)) 0 := by
  have hsz : oldsz ≤ 2 ^ 63 := by
    unfold npages PGSIZE at hold
    omega
  have hle : npages newsz ≤ npages oldsz := npages_mono hlt.le
  unfold uvmdealloc
  rw [if_neg (by omega), pgroundup_eq hsz, pgroundup_eq (by omega)]
  by_cases h : npages newsz < npages oldsz
  · rw [if_pos (Nat.mul_lt_mul_of_pos_right h (by decide)), ← Nat.sub_mul,
      Nat.mul_div_cancel _ (show 0 < PGSIZE by decide)]
    obtain ⟨pt', fl', hr, ht, -⟩ := uvmunmap_runs (N := N) pt true fl (by omega) hfull
    exact ⟨pt', fl', hr.bind (MemRuns.pure _ _), ht⟩
  · rw [if_neg fun h' => h (Nat.lt_of_mul_lt_mul_right h'), show npages oldsz - npages newsz = 0 by omega,
      unmapRange_zero]
    refine ⟨pt, fl, MemRuns.pure _ _, ?_⟩
    have hz : pt.users (npages newsz) 0 = 0 := rangeSum_zero _ _ _
    rw [hz]
    exact Turns.refl pt fl

/-! ## `uvmalloc` -/

/-- what `uvmalloc` maps: a zeroed page that the user can read -/
def freshLeaf (xperm pa : Nat) : Leaf := ⟨pa, PTE_R ||| PTE_U ||| xperm ||| PTE_V, fun _ => 0⟩

theorem lt_NPG {v : Nat} (h : v < 2 ^ 26) : v < PageTable.NPG := by
  unfold PageTable.NPG
  omega

theorem PageTable.Full.congr {pt pt' : PageTable} {v n : Nat} (h : pt.Full v n)
    (he : ∀ w, v ≤ w → w < v + n → pt'.flat w = pt.flat w) : pt'.Full v n := by
  intro w h1 h2
  rw [he w h1 h2]
  exact h w h1 h2

/-- the failure paths of `uvmalloc` and `uvmcopy`: an `undo` that unmaps the pages from `v0` on, run
after a turn that changed no mapping -/
theorem undo_runs {α : Type} {pt pt1 : PageTable} {fl fl1 : List Nat} {v0 n : Nat}
    {undo : PageTable → KM N α} {res : PageTable → α}
    (hundo : ∀ (pt : PageTable) fl, pt.Full v0 n → ∃ pt' fl', MemRuns (undo pt) fl (res pt') fl' ∧
      Turns pt fl pt' fl' (unmapRange pt.flat v0 n) (pt.users v0 n) 0)
    (hn : v0 + n ≤ 2 ^ 26) (hfull : pt.Full v0 n) (ht : Turns pt fl pt1 fl1 pt.flat 0 0) :
    ∃ pt' fl', MemRuns (undo pt1) fl1 (res pt') fl' ∧
      Turns pt fl pt' fl' (unmapRange pt.flat v0 n) (pt.users v0 n) 0 := by
  have he : ∀ w, v0 ≤ w → w < v0 + n → pt1.flat w = pt.flat w := fun w _ h2 =>
    ht.flat w (lt_NPG (by omega))
  obtain ⟨pt', fl', hr, ht'⟩ := hundo pt1 fl1 (hfull.congr he)
  have hu : pt1.users v0 n = pt.users v0 n := rangeSum_congr _ he
  have htt := (ht.trans ht').congr fun w hw => unmapRange_congr (ht.flat w hw) v0 n
  rw [zero_add, hu, zero_add] at htt
  exact ⟨pt', fl', hr, htt⟩

theorem uvmdealloc_undo_runs {v0 v : Nat} (hle : v0 ≤ v) (hv : v ≤ 2 ^ 26) (pt : PageTable)
    (fl : List Nat) (hfull : pt.Full v0 (v - v0)) :
    ∃ pt' fl', MemRuns (do
        let (pt, _) ← uvmdealloc pt (v * PGSIZE) (v0 * PGSIZE)
        return (pt, 0) : KM N _) fl (pt', 0) fl' ∧
      Turns pt fl pt' fl' (unmapRange pt.flat v0 (v - v0)) (pt.users v0 (v - v0)) 0 := by
  rcases hle.lt_or_eq with hlt | rfl
  · obtain ⟨pt', fl', hr, ht⟩ := uvmdealloc_runs (N := N) pt (v * PGSIZE)
      (v0 * PGSIZE) fl (Nat.mul_lt_mul_of_pos_right hlt (by decide))
      (by rw [npages_mul]; exact hv) (by rw [npages_mul, npages_mul]; exact hfull)
    rw [npages_mul, npages_mul] at ht
    exact ⟨pt', fl', hr.bind (MemRuns.pure _ _), ht⟩
  · have hr : MemRuns (uvmdealloc pt (v0 * PGSIZE) (v0 * PGSIZE) : KM N _) fl (pt, v0 * PGSIZE) fl := by
      unfold uvmdealloc
      rw [if_pos (le_refl _)]
      exact MemRuns.pure _ _
    refine ⟨pt, fl, hr.bind (MemRuns.pure _ _), ?_⟩
    have hz : pt.users v0 0 = 0 := rangeSum_zero _ _ _
    rw [Nat.sub_self, unmapRange_zero, hz]
    exact Turns.refl pt fl

theorem Turns.undo_new {pt pt1 pt' : PageTable} {fl fl1 fl' : List Nat} {v0 v : Nat} {l : Leaf}
    (hle : v0 ≤ v) (hv : v < 2 ^ 26) (habs : pt.flat v = none)
    (ht : Turns pt fl pt1 fl1 (update pt.flat v (some l)) 0 l.page)
    (ht' : Turns pt1 fl1 pt' fl' (unmapRange pt1.flat v0 (v + 1 - v0)) (pt1.users v0 (v + 1 - v0)) 0) :
    Turns pt fl pt' fl' (unmapRange pt.flat v0 (v - v0)) (pt.users v0 (v - v0)) 0 := by
  have husers : pt1.users v0 (v + 1 - v0) = pt.users v0 (v - v0) + l.page := by
    unfold PageTable.users
    rw [show v + 1 - v0 = v - v0 + 1 by omega, rangeSum_add, rangeSum_one,
      show v0 + (v - v0) = v by omega, ht.flat v (lt_NPG hv), update_self]
    refine congrArg (· + l.page) (rangeSum_congr _ fun w h1 h2 => ?_)
    rw [ht.flat w (lt_NPG (by omega)), update_of_ne (by omega)]
  have htt := ht.trans ht'
  rw [husers, zero_add, add_comm l.page] at htt
  refine htt.cancel.congr fun w hw => ?_
  rw [unmapRange_congr (ht.flat w hw)]
  unfold unmapRange
  by_cases hwv : w = v
  · subst hwv
    rw [if_pos (by omega), if_neg (by omega), habs]
  · rw [update_of_ne hwv]
    by_cases h : v0 ≤ w ∧ w < v0 + (v - v0)
    · rw [if_pos h, if_pos (by omega)]
    · rw [if_neg h, if_neg (by omega)]

theorem Turns.new_succ {pt pt1 pt' : PageTable} {fl fl1 fl' : List Nat} {v n : Nat} {g : Nat → Leaf}
    (hv : v < 2 ^ 26)
    (ht : Turns pt fl pt1 fl1 (update pt.flat v (some (g 0))) 0 (g 0).page)
    (ht' : Turns pt1 fl1 pt' fl' (mapRange pt1.flat (v + 1) n fun i => g (i + 1)) 0
      (pt'.users (v + 1) n)) :
    Turns pt fl pt' fl' (mapRange pt.flat v (n + 1) g) 0 (pt'.users v (n + 1)) := by
  have hflat : pt'.flat v = some (g 0) := by
    rw [ht'.flat v (lt_NPG hv)]
    unfold mapRange
    rw [if_neg (by omega), ht.flat v (lt_NPG hv), update_self]
  have husers : pt'.users v (n + 1) = (g 0).page + pt'.users (v + 1) n := by
    unfold PageTable.users
    rw [rangeSum_succ, hflat]
    rfl
  have htt := ht.trans ht'
  rw [zero_add, ← husers] at htt
  refine htt.congr fun w hw => ?_
  rw [mapRange_succ]
  exact mapRange_congr (ht.flat w hw) _ _ _

theorem PageTable.Full.snoc {pt pt1 : PageTable} {v0 v : Nat} {l : Leaf} {fl fl1 : List Nat}
    {put got : Multiset ℕ} (h : pt.Full v0 (v - v0)) (hle : v0 ≤ v) (hv : v < 2 ^ 26)
    (ht : Turns pt fl pt1 fl1 (update pt.flat v (some l)) put got) (hl : l.Ok true) :
    pt1.Full v0 (v + 1 - v0) := by
  intro w h1 h2
  rw [ht.flat w (lt_NPG (by omega))]
  by_cases hwv : w = v
  · subst hwv
    exact ⟨l, update_self _ _ _, hl⟩
  · rw [update_of_ne hwv]
    exact h w h1 (by omega)

theorem flags_ne_V {flags : Nat} (h : flags.testBit 1 = true) : flags ≠ PTE_V := by
  intro e
  rw [e] at h
  exact absurd h (by decide)

theorem freshLeaf_bits (xperm pa : Nat) :
    (freshLeaf xperm pa).flags.testBit 1 = true ∧ (freshLeaf xperm pa).flags.testBit 0 = true ∧
      (freshLeaf xperm pa).flags.testBit 4 = true := by
  have hR : PTE_R.testBit 1 = true := by decide
  have hU : PTE_U.testBit 4 = true := by decide
  have hV : PTE_V.testBit 0 = true := by decide
  simp only [freshLeaf, Nat.testBit_or, hR, hU, hV, Bool.or_true, Bool.true_or, and_self]

/-- there is memory for pages below page number `B` only -/
def PageTable.Fits (pt : PageTable) (v : Nat) (fl : List Nat) (B : Nat) : Prop :=
  v + (fl.length + pt.tables.card) ≤ B

theorem PageTable.Fits.next {pt pt' : PageTable} {v B : Nat} {fl fl' : List Nat}
    {f : Nat → Option Leaf} {pa : Nat} (h : pt.Fits v fl B) (ht : Turns pt fl pt' fl' f 0 {pa}) :
    pt'.Fits (v + 1) fl' B := by
  have hc := congrArg Multiset.card ht.pages
  simp only [Multiset.card_add, Multiset.coe_card, Multiset.card_singleton, Multiset.card_zero] at hc
  unfold PageTable.Fits at *
  omega

theorem uvmallocLoop_runs {v0 : Nat} (newsz xperm n : Nat) (pt : PageTable) {v B : Nat}
    (fl : List Nat) (hle : v0 ≤ v) (hv : v ≤ 2 ^ 26) (hfull : pt.Full v0 (v - v0))
    (hfits : pt.Fits v fl B) (hB : B ≤ 2 ^ 26)
    (habs : ∀ w, v ≤ w → w < v + n → w < B → pt.flat w = none) (hfl : ∀ pa ∈ fl, Freeable pa)
    (htab : ∀ pa ∈ pt.tables, Freeable pa) :
    ∃ pt' r fl', MemRuns (uvmallocLoop (v0 * PGSIZE) newsz xperm n pt (v * PGSIZE) : KM N _) fl
        (pt', r) fl' ∧
      (r = newsz ∧ v + n ≤ B ∧ (∃ ps : Nat → Nat,
          Turns pt fl pt' fl' (mapRange pt.flat v n fun i => freshLeaf xperm (ps i)) 0
            (pt'.users v n)) ∨
        r = 0 ∧ Turns pt fl pt' fl' (unmapRange pt.flat v0 (v - v0)) (pt.users v0 (v - v0)) 0) := by
  induction n generalizing pt v fl with
  | zero =>
    refine ⟨pt, newsz, fl, MemRuns.pure _ _, Or.inl ⟨rfl, ?_, fun _ => 0, ?_⟩⟩
    · unfold PageTable.Fits at hfits
      omega
    · have hz : pt.users v 0 = 0 := rangeSum_zero _ _ _
      rw [mapRange_zero, hz]
      exact Turns.refl pt fl
  | succ n ih =>
    have undo := uvmdealloc_undo_runs (N := N) hle hv
    unfold uvmallocLoop
    by_cases hnil : fl = []
    · subst hnil
      obtain ⟨pt', fl', hr, ht⟩ := undo pt [] hfull
      exact ⟨pt', 0, fl', (kalloc_runs []).bind hr, Or.inr ⟨rfl, ht⟩⟩
    · have hvB : v < B := by
        have := List.length_pos_iff.mpr hnil
        unfold PageTable.Fits at hfits
        omega
      have habs0 := habs v (by omega) (by omega) hvB
      obtain hc | ⟨mem, fl0, pt1, ok, fl1, rfl, hr, hres⟩ := newPage_runs (N := N) pt (v := v)
        (fun _ => 0) (PTE_R ||| PTE_U ||| xperm) fl (by omega) habs0
      · exact absurd hc hnil
      · rcases hres with ⟨rfl, ht⟩ | ⟨rfl, ht⟩
        · have hfull1 : pt1.Full v0 (v + 1 - v0) := by
            refine hfull.snoc hle (by omega) ht ?_
            exact ⟨flags_ne_V (freshLeaf_bits xperm mem).1, fun _ => hfl mem (by simp)⟩
          have hmem : ∀ pa, pa ∈ fl1 ∨ pa ∈ pt1.tables → Freeable pa := by
            intro pa hpa
            rcases ht.mem pa (by tauto) with h | h | h
            · exact hfl pa h
            · exact htab pa h
            · simp at h
          obtain ⟨pt', r, fl', hr', hres⟩ := ih pt1 (v := v + 1) fl1 (by omega) (by omega) hfull1
            (hfits.next ht) (fun w h1 h2 h3 => by
              rw [ht.flat w (lt_NPG (by omega)), update_of_ne (by omega)]
              exact habs w (by omega) (by omega) h3)
            (fun pa h => hmem pa (Or.inl h)) (fun pa h => hmem pa (Or.inr h))
          refine ⟨pt', r, fl', ?_, ?_⟩
          · refine (kalloc_runs (mem :: fl0)).bind (hr.bind ?_)
            rw [Nat.succ_mul] at hr'
            exact hr'
          · rcases hres with ⟨rfl, hle', ps, ht'⟩ | ⟨rfl, ht'⟩
            · refine Or.inl ⟨rfl, by omega, fun i => Nat.casesOn i mem ps, ?_⟩
              exact Turns.new_succ (g := fun i => freshLeaf xperm (Nat.casesOn i mem ps)) (by omega)
                ht ht'
            · exact Or.inr ⟨rfl, Turns.undo_new hle (by omega) habs0 ht ht'⟩
        · obtain ⟨pt', fl', hr', ht'⟩ := undo_runs (fun pt fl => undo pt fl) (by omega) hfull ht
          refine ⟨pt', 0, fl', ?_, Or.inr ⟨rfl, ht'⟩⟩
          refine (kalloc_runs (mem :: fl0)).bind (hr.bind ?_)
          exact (kfree_runs (hfl mem (by simp)) fl1).bind hr'

/-- **`uvmalloc` upwards**: it returns the new size and has mapped fresh pages up to it, or it
returns 0 and maps what was mapped before -/
theorem uvmalloc_runs (pt : PageTable) {oldsz newsz : Nat} (xperm : Nat) (fl : List Nat) {B : Nat}
    (hle : oldsz ≤ newsz) (hfits : pt.Fits (npages oldsz) fl B) (hB : B ≤ 2 ^ 26)
    (habs : ∀ w, npages oldsz ≤ w → w < B → pt.flat w = none) (hfl : ∀ pa ∈ fl, Freeable pa)
    (htab : ∀ pa ∈ pt.tables, Freeable pa) :
    ∃ pt' r fl', MemRuns (uvmalloc pt oldsz newsz xperm : KM N _) fl (pt', r) fl' ∧
      (r = newsz ∧ npages newsz ≤ B ∧ (∃ ps : Nat → Nat,
          Turns pt fl pt' fl'
            (mapRange pt.flat (npages oldsz) (npages newsz - npages oldsz) fun i =>
              freshLeaf xperm (ps i)) 0 (pt'.users (npages oldsz) (npages newsz - npages oldsz))) ∨
        r = 0 ∧ Turns pt fl pt' fl' pt.flat 0 0) := by
  have hmono := npages_mono hle
  have hv : npages oldsz ≤ 2 ^ 26 := by
    unfold PageTable.Fits at hfits
    omega
  have hsz : oldsz ≤ 2 ^ 63 := by
    unfold npages PGSIZE at hv
    omega
  have hn : (newsz - pgroundup oldsz + PGSIZE - 1) / PGSIZE = npages newsz - npages oldsz := by
    rw [pgroundup_eq hsz]
    unfold npages PGSIZE
    omega
  have hfull : pt.Full (npages oldsz) (npages oldsz - npages oldsz) := by
    intro w h1 h2
    omega
  obtain ⟨pt', r, fl', hr, hres⟩ := uvmallocLoop_runs (N := N) newsz xperm
    (npages newsz - npages oldsz) pt fl le_rfl hv hfull hfits hB (fun w h1 _ h3 => habs w h1 h3) hfl htab
  refine ⟨pt', r, fl', ?_, ?_⟩
  · unfold uvmalloc
    rw [if_neg (by omega)]
    dsimp only
    rw [hn, pgroundup_eq hsz]
    exact hr
  · rcases hres with ⟨hr, hB', hps⟩ | ⟨hr, ht⟩
    · exact Or.inl ⟨hr, by omega, hps⟩
    · have hz : pt.users (npages oldsz) 0 = 0 := rangeSum_zero _ _ _
      rw [Nat.sub_self, unmapRange_zero, hz] at ht
      exact Or.inr ⟨hr, ht⟩

/-! ## `uvmcopy` -/

/-- the copy of a page at the physical address `pa` -/
def Leaf.copied (l : Leaf) (pa : Nat) : Leaf := { l with pa := pa }

theorem flags_or_V {flags : Nat} (h : flags.testBit 0 = true) : flags ||| PTE_V = flags := by
  refine Nat.eq_of_testBit_eq fun i => ?_
  rw [Nat.testBit_or]
  cases i with
  | zero => rw [h, Bool.true_or]
  | succ i =>
    have hz : PTE_V.testBit (i + 1) = false := by
      unfold PTE_V
      simp [Nat.testBit_succ]
    rw [hz, Bool.or_false]

theorem uvmunmap_undo_runs {v : Nat} (hv : v ≤ 2 ^ 26) (pt : PageTable) (fl : List Nat)
    (hfull : pt.Full 0 v) :
    ∃ pt' fl', MemRuns (do
        let new ← uvmunmap pt 0 (v * PGSIZE / PGSIZE) true
        return (new, false) : KM N _) fl (pt', false) fl' ∧
      Turns pt fl pt' fl' (unmapRange pt.flat 0 v) (pt.users 0 v) 0 := by
  obtain ⟨pt', fl', hr, ht, -⟩ := uvmunmap_runs (N := N) pt (v := 0) (n := v) true fl (by omega) hfull
  rw [Nat.zero_mul] at hr
  rw [Nat.mul_div_cancel _ (show 0 < PGSIZE by decide)]
  exact ⟨pt', fl', hr.bind (MemRuns.pure _ _), ht⟩

theorem uvmcopyLoop_runs (old : PageTable) (src : Nat → Leaf) (n : Nat) (new : PageTable) {v : Nat}
    (fl : List Nat) (hv : v + n ≤ 2 ^ 26)
    (hold : ∀ w, v ≤ w → w < v + n → old.flat w = some (src w) ∧ (src w).flags.testBit 0 = true ∧
      (src w).flags.testBit 1 = true)
    (habs : ∀ w, v ≤ w → w < v + n → new.flat w = none) (hfull : new.Full 0 v)
    (hfl : ∀ pa ∈ fl, Freeable pa) (htab : ∀ pa ∈ new.tables, Freeable pa) :
    ∃ new' ok fl', MemRuns (uvmcopyLoop old n new (v * PGSIZE) : KM N _) fl (new', ok) fl' ∧
      (ok = true ∧ (∃ ps : Nat → Nat, Turns new fl new' fl'
          (mapRange new.flat v n fun i => (src (v + i)).copied (ps i)) 0 (new'.users v n)) ∨
        ok = false ∧ Turns new fl new' fl' (unmapRange new.flat 0 v) (new.users 0 v) 0) := by
  induction n generalizing new v fl with
  | zero =>
    refine ⟨new, true, fl, MemRuns.pure _ _, Or.inl ⟨rfl, fun _ => 0, ?_⟩⟩
    have hz : new.users v 0 = 0 := rangeSum_zero _ _ _
    rw [mapRange_zero, hz]
    exact Turns.refl new fl
  | succ n ih =>
    have undo := uvmunmap_undo_runs (N := N) (v := v) (by omega)
    obtain ⟨hl, hV, hR⟩ := hold v (by omega) (by omega)
    obtain ⟨old1, ok1, fl1, hw, -, hok1, hsame, -⟩ :=
      walk_runs (N := N) old (v * PGSIZE) (by unfold PGSIZE MAXVA; omega) false fl
    obtain ⟨rfl, rfl⟩ := hsame rfl
    rw [PageTable.path_of_flat hl] at hok1
    subst hok1
    have habs0 := habs v (by omega) (by omega)
    unfold uvmcopyLoop
    by_cases hnil : fl1 = []
    · subst hnil
      obtain ⟨new', fl', hr, ht⟩ := undo new [] hfull
      refine ⟨new', false, fl', hw.bind ?_, Or.inr ⟨rfl, ht⟩⟩
      simp only [↓reduceIte]
      rw [show old1.leaf (v * PGSIZE) = some (src v) from hl]
      exact (kalloc_runs []).bind hr
    · obtain hc | ⟨mem, fl0, new1, ok, fl2, rfl, hr, hres⟩ := newPage_runs (N := N) new (v := v)
        (src v).data (src v).flags fl1 (by omega) habs0
      · exact absurd hc hnil
      · have hcopied : (⟨mem, (src v).flags ||| PTE_V, (src v).data⟩ : Leaf) = (src v).copied mem := by
          rw [flags_or_V hV]
          rfl
        rcases hres with ⟨rfl, ht⟩ | ⟨rfl, ht⟩
        · rw [hcopied] at ht
          have hfull1 : new1.Full 0 (v + 1) :=
            hfull.snoc (Nat.zero_le v) (by omega) ht ⟨flags_ne_V hR, fun _ => hfl mem (by simp)⟩
          have hmem : ∀ pa, pa ∈ fl2 ∨ pa ∈ new1.tables → Freeable pa := by
            intro pa hpa
            rcases ht.mem pa (by tauto) with h | h | h
            · exact hfl pa h
            · exact htab pa h
            · simp at h
          obtain ⟨new', r, fl', hr', hres⟩ := ih new1 (v := v + 1) fl2 (by omega)
            (fun w h1 h2 => hold w (by omega) (by omega)) (fun w h1 h2 => by
              rw [ht.flat w (lt_NPG (by omega)), update_of_ne (by omega)]
              exact habs w (by omega) (by omega))
            hfull1 (fun pa h => hmem pa (Or.inl h)) (fun pa h => hmem pa (Or.inr h))
          refine ⟨new', r, fl', hw.bind ?_, ?_⟩
          · simp only [↓reduceIte]
            rw [show old1.leaf (v * PGSIZE) = some (src v) from hl]
            refine (kalloc_runs (mem :: fl0)).bind (hr.bind ?_)
            rw [Nat.succ_mul] at hr'
            exact hr'
          · rcases hres with ⟨rfl, ps, ht'⟩ | ⟨rfl, ht'⟩
            · refine Or.inl ⟨rfl, fun i => Nat.casesOn i mem ps, ?_⟩
              refine Turns.new_succ (g := fun i => (src (v + i)).copied (Nat.casesOn i mem ps))
                (by omega) ht ?_
              simp only [Nat.add_right_comm v 1, Nat.add_assoc v] at ht' ⊢
              exact ht'
            · exact Or.inr ⟨rfl, Turns.undo_new (Nat.zero_le v) (by omega) habs0 ht ht'⟩
        · obtain ⟨new', fl', hr', ht'⟩ := undo_runs (fun pt fl => undo pt fl) (by omega) hfull ht
          refine ⟨new', false, fl', hw.bind ?_, Or.inr ⟨rfl, ht'⟩⟩
          simp only [↓reduceIte]
          rw [show old1.leaf (v * PGSIZE) = some (src v) from hl]
          refine (kalloc_runs (mem :: fl0)).bind (hr.bind ?_)
          exact (kfree_runs (hfl mem (by simp)) fl2).bind hr'

/-! ## the memory of a process -/

/-- what every process maps above its own memory: the trampoline, and its trapframe at `tf` -/
def sysMap (tf v : Nat) : Option Leaf :=
  if v = TRAMPOLINE / PGSIZE then some ⟨trampoline, PTE_R ||| PTE_X ||| PTE_V, fun _ => 0⟩
  else if v = TRAPFRAME / PGSIZE then some ⟨tf, PTE_R ||| PTE_W ||| PTE_V, fun _ => 0⟩
  else none

/-- the table maps the first `n` page numbers, all of them to user pages except the guard page, and
besides only the trapframe and the trampoline -/
structure Space (pt : PageTable) (n tf : Nat) (guard : Option Nat) : Prop where
  small : n ≤ TRAPFRAME / PGSIZE
  user : ∀ v, v < n → ∃ l, pt.flat v = some l ∧ l.flags.testBit 0 = true ∧ l.flags.testBit 1 = true ∧
    (l.flags.testBit 4 = true ↔ guard ≠ some v)
  rest : ∀ v, n ≤ v → v < PageTable.NPG → pt.flat v = sysMap tf v

theorem TRAPFRAME_page : TRAPFRAME / PGSIZE = 2 ^ 26 - 2 := by decide
theorem TRAMPOLINE_page : TRAMPOLINE / PGSIZE = 2 ^ 26 - 1 := by decide

theorem sysMap_none {tf v : Nat} (h : v < TRAPFRAME / PGSIZE) : sysMap tf v = none := by
  rw [TRAPFRAME_page] at h
  unfold sysMap
  rw [TRAMPOLINE_page, TRAPFRAME_page, if_neg (by omega), if_neg (by omega)]

theorem Space.absent {pt : PageTable} {n tf : Nat} {g : Option Nat} (h : Space pt n tf g) {v : Nat}
    (hn : n ≤ v) (hv : v < TRAPFRAME / PGSIZE) : pt.flat v = none := by
  rw [h.rest v hn (lt_NPG (by rw [TRAPFRAME_page] at hv; omega)), sysMap_none hv]

theorem Space.full {pt : PageTable} {n tf : Nat} {g : Option Nat} (h : Space pt n tf g)
    (hu : ∀ pa ∈ pt.users 0 n, Freeable pa) {v m : Nat} (hle : v + m ≤ n) : pt.Full v m := by
  intro w h1 h2
  obtain ⟨l, hl, -, hR, -⟩ := h.user w (by omega)
  refine ⟨l, hl, flags_ne_V hR, fun _ => hu _ ?_⟩
  unfold PageTable.users rangeSum
  refine Multiset.mem_sum.mpr ⟨w, Finset.mem_Ico.mpr ⟨by omega, by omega⟩, ?_⟩
  rw [hl]
  exact Multiset.mem_singleton_self _

theorem Space.congr {pt pt' : PageTable} {n tf : Nat} {g : Option Nat} (h : Space pt n tf g)
    (he : ∀ v, v < PageTable.NPG → pt'.flat v = pt.flat v) : Space pt' n tf g := by
  have hn := h.small
  rw [TRAPFRAME_page] at hn
  refine ⟨h.small, fun v hv => ?_, fun v hv hv' => ?_⟩
  · rw [he v (lt_NPG (by omega))]
    exact h.user v hv
  · rw [he v hv']
    exact h.rest v hv hv'

/-- **`uvmcopy`** into a table without user pages: a copy of every page, or the table without user
pages again -/
theorem uvmcopy_runs {old new : PageTable} {sz tf tf' : Nat} {g : Option Nat}
    (ho : Space old (npages sz) tf g) (hn : Space new 0 tf' none) (fl : List Nat)
    (hfl : ∀ pa ∈ fl, Freeable pa) (htab : ∀ pa ∈ new.tables, Freeable pa) :
    ∃ new' ok fl', MemRuns (uvmcopy old new sz : KM N _) fl (new', ok) fl' ∧
      (ok = true ∧ Space new' (npages sz) tf' g ∧
          (∀ v, v < npages sz → ∃ l pa, old.flat v = some l ∧ new'.flat v = some (l.copied pa)) ∧
          (fl' : Multiset ℕ) + (new'.tables + new'.users 0 (npages sz)) = fl + new.tables ∨
        ok = false ∧ Space new' 0 tf' none ∧ (fl' : Multiset ℕ) + new'.tables = fl + new.tables) := by
  have hsmall := ho.small
  rw [TRAPFRAME_page] at hsmall
  let src : Nat → Leaf := fun w => (old.flat w).getD ⟨0, 0, fun _ => 0⟩
  have hsrc : ∀ w, w < npages sz → old.flat w = some (src w) ∧ (src w).flags.testBit 0 = true ∧
      (src w).flags.testBit 1 = true ∧ ((src w).flags.testBit 4 = true ↔ g ≠ some w) := by
    intro w hw
    obtain ⟨l, hl, h0, h1, h4⟩ := ho.user w hw
    have e : src w = l := by
      show (old.flat w).getD _ = l
      rw [hl]
      rfl
    rw [e]
    exact ⟨hl, h0, h1, h4⟩
  have hfull : new.Full 0 0 := by
    intro w _ h2
    omega
  obtain ⟨new', ok, fl', hr, hres⟩ := uvmcopyLoop_runs (N := N) old src (npages sz) new (v := 0) fl
    (by omega) (fun w _ hw => by
      obtain ⟨h1, h2, h3, -⟩ := hsrc w (by omega)
      exact ⟨h1, h2, h3⟩)
    (fun w h1 h2 => hn.absent h1 (by rw [TRAPFRAME_page]; omega)) hfull hfl htab
  rw [Nat.zero_mul] at hr
  refine ⟨new', ok, fl', hr, ?_⟩
  rcases hres with ⟨hok, ps, ht⟩ | ⟨hok, ht⟩
  · have hflat : ∀ v, v < npages sz → new'.flat v = some ((src v).copied (ps v)) := by
      intro v hv
      rw [ht.flat v (lt_NPG (by omega))]
      unfold mapRange
      rw [if_pos (by omega), Nat.sub_zero]
      show some ((src (0 + v)).copied (ps v)) = _
      rw [Nat.zero_add]
    refine Or.inl ⟨hok, ⟨ho.small, fun v hv => ?_, fun v hv hv' => ?_⟩, fun v hv => ?_, ?_⟩
    · obtain ⟨-, h0, h1, h4⟩ := hsrc v hv
      exact ⟨_, hflat v hv, h0, h1, h4⟩
    · rw [ht.flat v hv']
      unfold mapRange
      rw [if_neg (by omega), hn.rest v (Nat.zero_le v) hv']
    · exact ⟨src v, ps v, (hsrc v hv).1, hflat v hv⟩
    · have hp := ht.pages
      rwa [add_zero, add_assoc] at hp
  · have hz : new.users 0 0 = 0 := rangeSum_zero _ _ _
    have hp := ht.pages
    rw [hz, add_zero, add_zero] at hp
    exact Or.inr ⟨hok, hn.congr fun v hv => by rw [ht.flat v hv, unmapRange_zero], hp⟩

/-! ## `proc_pagetable` and `proc_freepagetable` -/

theorem uvmfree_zero_frees {pt : PageTable} (hempty : ∀ v, v < PageTable.NPG → pt.flat v = none)
    (hfree : ∀ pa ∈ pt.tables, Freeable pa) : Frees (uvmfree pt 0 : KM N Unit) pt.tables :=
  freewalk_frees hempty hfree

theorem Table.empty_flat (pa v : Nat) : PageTable.flat (Table.empty pa) v = none := rfl

theorem Table.empty_tables (pa : Nat) : PageTable.tables (Table.empty pa) = {pa} := Table.pages_empty _ pa

theorem TRAMPOLINE_eq : TRAMPOLINE = (2 ^ 26 - 1) * PGSIZE := by decide
theorem TRAPFRAME_eq : TRAPFRAME = (2 ^ 26 - 2) * PGSIZE := by decide

/-- **`proc_pagetable`** makes a table without user pages, or gives back what it took -/
theorem procPagetable_runs (tf : Nat) (fl : List Nat) (hfl : ∀ pa ∈ fl, Freeable pa) :
    ∃ r fl', MemRuns (procPagetable tf : KM N _) fl r fl' ∧
      ((∃ pt, r = some pt ∧ Space pt 0 tf none ∧ (fl' : Multiset ℕ) + pt.tables = fl) ∨
        r = none ∧ (fl' : Multiset ℕ) = fl) := by
  cases fl with
  | nil =>
    have hcreate : MemRuns (uvmcreate : KM N _) [] none [] :=
      (kalloc_runs []).bind (MemRuns.pure (none : Option PageTable) [])
    exact ⟨none, [], hcreate.bind (MemRuns.pure (none : Option PageTable) []), Or.inr ⟨rfl, rfl⟩⟩
  | cons pa fl =>
    have hcreate : MemRuns (uvmcreate : KM N _) (pa :: fl) (some (Table.empty pa)) fl :=
      (kalloc_runs (pa :: fl)).bind (MemRuns.pure (some (Table.empty pa) : Option PageTable) fl)
    have hcons : ((pa :: fl : List ℕ) : Multiset ℕ) = fl + PageTable.tables (Table.empty pa) := by
      rw [Table.empty_tables, ← Multiset.cons_coe, ← Multiset.singleton_add, add_comm]
    have hfree : ∀ (pt' : PageTable) (fl' : List ℕ) f, Turns (Table.empty pa) fl pt' fl' f 0 0 →
        ∀ x ∈ pt'.tables, Freeable x := by
      intro pt' fl' f ht x hx
      rcases ht.mem x (Or.inr (Or.inl hx)) with h | h | h
      · exact hfl x (by simp [h])
      · rw [Table.empty_tables, Multiset.mem_singleton] at h
        exact hfl x (by simp [h])
      · simp at h
    -- a table that maps nothing is given back as a whole
    have hback : ∀ (pt' : PageTable) (fl' : List ℕ),
        Turns (Table.empty pa) fl pt' fl' (fun _ => none) 0 0 →
        ∃ fl'', MemRuns (uvmfree pt' 0 : KM N Unit) fl' () fl'' ∧
          (fl'' : Multiset ℕ) = (pa :: fl : List ℕ) := by
      intro pt' fl' ht
      obtain ⟨fl'', hr, he⟩ := uvmfree_zero_frees (N := N) ht.flat (hfree pt' fl' _ ht) fl'
      refine ⟨fl'', hr, ?_⟩
      have hp := ht.pages
      rw [add_zero, add_zero] at hp
      rw [he, hcons, hp]
    obtain ⟨pt1, ok1, fl1, hr1, h1⟩ := mappages_one_runs (N := N) (fun _ _ => 0) (Table.empty pa)
      (v := 2 ^ 26 - 1) trampoline (PTE_R ||| PTE_X) fl (by omega) (Table.empty_flat _ _)
    rw [← TRAMPOLINE_eq] at hr1
    rcases h1 with ⟨rfl, ht1⟩ | ⟨rfl, -, ht1⟩
    · obtain ⟨pt2, ok2, fl2, hr2, h2⟩ := mappages_one_runs (N := N) (fun _ _ => 0) pt1
        (v := 2 ^ 26 - 2) tf (PTE_R ||| PTE_W) fl1 (by omega) (by
          rw [ht1.flat _ (lt_NPG (by omega)), update_of_ne (by omega)]
          exact Table.empty_flat _ _)
      rw [← TRAPFRAME_eq] at hr2
      rcases h2 with ⟨rfl, ht2⟩ | ⟨rfl, -, ht2⟩
      · refine ⟨some pt2, fl2, hcreate.bind (hr1.bind (hr2.bind (MemRuns.pure _ _))),
          Or.inl ⟨pt2, rfl, ⟨Nat.zero_le _, fun v hv => by omega, fun v _ hv => ?_⟩, ?_⟩⟩
        · rw [ht2.flat v hv, update_apply, ht1.flat v hv, update_apply]
          unfold sysMap
          rw [TRAMPOLINE_page, TRAPFRAME_page]
          by_cases e : v = 2 ^ 26 - 1
          · subst e
            rw [if_neg (by omega), if_pos rfl, if_pos rfl]
          · rw [if_neg e, if_neg e]
            rfl
        · have hp := (ht1.trans ht2).pages
          simp only [add_zero] at hp
          rw [hp, hcons]
      · -- the trampoline is unmapped again
        have hpre : ∀ w, 2 ^ 26 - 1 ≤ w → w < 2 ^ 26 - 1 + 1 →
            ∃ l, pt2.flat w = some l ∧ l.Ok false := by
          intro w h1 h2
          obtain rfl : w = 2 ^ 26 - 1 := by omega
          rw [ht2.flat _ (lt_NPG (by omega)), ht1.flat _ (lt_NPG (by omega)), update_self]
          exact ⟨_, rfl, by decide, nofun⟩
        obtain ⟨pt3, fl3, hr3, ht3, -⟩ := uvmunmap_runs (N := N) pt2 false fl2 (by omega) hpre
        rw [← TRAMPOLINE_eq] at hr3
        have ht : Turns (Table.empty pa) fl pt3 fl3 (fun _ => none) 0 0 := by
          refine ((ht1.trans ht2).trans ht3).congr fun w hw => ?_
          unfold unmapRange
          by_cases e : w = 2 ^ 26 - 1
          · rw [if_pos (by omega)]
          · rw [if_neg (by omega), ht2.flat w hw, ht1.flat w hw, update_of_ne e]
            rfl
        obtain ⟨fl4, hr4, he⟩ := hback pt3 fl3 ht
        exact ⟨none, fl4, hcreate.bind (hr1.bind (hr2.bind (hr3.bind (hr4.bind (MemRuns.pure _ _))))),
          Or.inr ⟨rfl, he⟩⟩
    · obtain ⟨fl2, hr2, he⟩ := hback pt1 fl1 ht1
      exact ⟨none, fl2, hcreate.bind (hr1.bind (hr2.bind (MemRuns.pure _ _))), Or.inr ⟨rfl, he⟩⟩

/-- `uvmfree` of the first pages of a table that maps nothing else -/
theorem uvmfree_frees {pt : PageTable} {sz : Nat} (hsmall : npages sz ≤ 2 ^ 26)
    (hfull : pt.Full 0 (npages sz))
    (hrest : ∀ v, npages sz ≤ v → v < PageTable.NPG → pt.flat v = none)
    (hfree : ∀ pa ∈ pt.tables, Freeable pa) :
    Frees (uvmfree pt sz : KM N Unit) (pt.tables + pt.users 0 (npages sz)) := by
  unfold uvmfree
  rcases Nat.eq_zero_or_pos sz with rfl | hpos
  · have hz : pt.users 0 (npages 0) = 0 := rangeSum_zero _ _ _
    rw [if_neg (by omega), hz, add_zero]
    exact freewalk_frees (fun v hv => hrest v (Nat.zero_le v) hv) hfree
  · intro fl
    have hsz : sz ≤ 2 ^ 63 := by
      unfold npages PGSIZE at hsmall
      omega
    obtain ⟨pt', fl', hr, ht, htab⟩ :=
      uvmunmap_runs (N := N) pt (v := 0) (n := npages sz) true fl (by omega) hfull
    have hempty : ∀ v, v < PageTable.NPG → pt'.flat v = none := by
      intro v hv
      rw [ht.flat v hv]
      unfold unmapRange
      by_cases h : v < npages sz
      · rw [if_pos (by omega)]
      · rw [if_neg (by omega), hrest v (by omega) hv]
    obtain ⟨fl'', hr', he⟩ := freewalk_frees (N := N) hempty (by rw [htab]; exact hfree) fl'
    have hp := ht.pages
    simp only [add_zero, ↓reduceIte] at hp
    rw [if_pos hpos, pgroundup_eq hsz, Nat.mul_div_cancel _ (show 0 < PGSIZE by decide)]
    rw [Nat.zero_mul] at hr
    exact ⟨fl'', hr.bind hr', by rw [he, hp, add_assoc]⟩

theorem uvmunmap_sys_runs (pt : PageTable) {v : Nat} {l : Leaf} (hv : v < 2 ^ 26)
    (h : pt.flat v = some l) (hl : l.flags ≠ PTE_V) (fl : List Nat) :
    ∃ pt' fl', MemRuns (uvmunmap pt (v * PGSIZE) 1 false : KM N _) fl pt' fl' ∧
      (fl' : Multiset ℕ) = fl ∧ pt'.tables = pt.tables ∧
      ∀ w, w < PageTable.NPG → pt'.flat w = update pt.flat v none w := by
  obtain ⟨pt', fl', hr, ht, htab⟩ := uvmunmap_runs (N := N) pt (v := v) (n := 1) false fl (by omega)
    (fun w h1 h2 => ⟨l, by rw [show w = v by omega, h], hl, nofun⟩)
  have hp := ht.pages
  simp only [add_zero, Bool.false_eq_true, ↓reduceIte, htab, add_left_inj] at hp
  refine ⟨pt', fl', hr, hp, htab, fun w hw => ?_⟩
  rw [ht.flat w hw, unmapRange_succ, unmapRange_zero]

/-- **`proc_freepagetable`** frees the tables and the user pages of a process -/
theorem procFreepagetable_frees {pt : PageTable} {sz tf : Nat} {g : Option Nat}
    (h : Space pt (npages sz) tf g) (hfree : ∀ pa ∈ pt.tables, Freeable pa)
    (hu : ∀ pa ∈ pt.users 0 (npages sz), Freeable pa) :
    Frees (procFreepagetable pt sz : KM N Unit) (pt.tables + pt.users 0 (npages sz)) := by
  intro fl
  have hsmall := h.small
  rw [TRAPFRAME_page] at hsmall
  obtain ⟨pt1, fl1, hr1, hfl1, htab1, hf1⟩ := uvmunmap_sys_runs (N := N) pt (v := 2 ^ 26 - 1) (by omega)
    ((h.rest _ (by omega) (lt_NPG (by omega))).trans (by
      unfold sysMap
      rw [TRAMPOLINE_page, if_pos rfl])) (by decide) fl
  obtain ⟨pt2, fl2, hr2, hfl2, htab2, hf2⟩ := uvmunmap_sys_runs (N := N) pt1 (v := 2 ^ 26 - 2) (by omega)
    ((hf1 _ (lt_NPG (by omega))).trans (by
      rw [update_of_ne (by omega), h.rest _ (by omega) (lt_NPG (by omega))]
      unfold sysMap
      rw [TRAMPOLINE_page, TRAPFRAME_page, if_neg (by omega), if_pos rfl]))
    (show PTE_R ||| PTE_W ||| PTE_V ≠ PTE_V by decide) fl1
  rw [← TRAMPOLINE_eq] at hr1
  rw [← TRAPFRAME_eq] at hr2
  have hflat : ∀ w, w < 2 ^ 26 - 2 → pt2.flat w = pt.flat w := fun w hw => by
    rw [hf2 w (lt_NPG (by omega)), update_of_ne (by omega), hf1 w (lt_NPG (by omega)),
      update_of_ne (by omega)]
  have hrest : ∀ v, npages sz ≤ v → v < PageTable.NPG → pt2.flat v = none := by
    intro v hv hv'
    rw [hf2 v hv', update_apply, hf1 v hv', update_apply, h.rest v hv hv']
    unfold sysMap
    rw [TRAMPOLINE_page, TRAPFRAME_page]
    by_cases e1 : v = 2 ^ 26 - 2
    · rw [if_pos e1]
    · by_cases e2 : v = 2 ^ 26 - 1
      · rw [if_neg e1, if_pos e2]
      · rw [if_neg e1, if_neg e2, if_neg e2, if_neg e1]
  have hu2 : pt2.users 0 (npages sz) = pt.users 0 (npages sz) :=
    rangeSum_congr _ fun w _ h2 => hflat w (by omega)
  have hfull : pt2.Full 0 (npages sz) :=
    (h.full hu (by omega)).congr fun w _ h2 => hflat w (by omega)
  obtain ⟨fl', hr, he⟩ := uvmfree_frees (N := N) (by omega) hfull hrest
    (by rw [htab2, htab1]; exact hfree) fl2
  refine ⟨fl', hr1.bind (hr2.bind hr), ?_⟩
  rw [he, hu2, htab2, htab1, hfl2, hfl1]

end Xv6
