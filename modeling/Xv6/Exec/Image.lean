import Xv6.Kernel.Access
import Xv6.Kernel.Fit
import Xv6.Exec.Defs

/-!
# A page table under construction

* `PageTable.SameTree`   the same pages with the same flags, in the same tables: only data changed;
* `Memory`   the pages that there are: distinct, and all in `[end, PHYSTOP)`;
* `Building`   the table maps the pages of the first `sz` bytes, and these pages, its own and
  the free ones are all that there are;
* `Building.uvmalloc`, `Building.uvmclear`   what the routines of `vm.c` do to it, with any free list.
-/

namespace Xv6
variable {N : ℕ}

/-! ## The bytes and flags of a table -/

theorem and_pow_eq_zero {f i : ℕ} : f &&& 2 ^ i = 0 ↔ f.testBit i = false := by
  constructor
  · intro h
    have := congrArg (fun n => Nat.testBit n i) h
    simpa [Nat.testBit_and, Nat.testBit_two_pow_self] using this
  · intro h
    refine Nat.eq_of_testBit_eq fun j => ?_
    rw [Nat.testBit_and, Nat.zero_testBit, Nat.testBit_two_pow]
    by_cases hj : i = j
    · rw [← hj, h, Bool.false_and]
    · rw [decide_eq_false hj, Bool.and_false]

theorem and_PTE_U {f : ℕ} : f &&& PTE_U = 0 ↔ f.testBit 4 = false :=
  and_pow_eq_zero (f := f) (i := 4)

namespace PageTable

theorem load_flat (pt : PageTable) (a : ℕ) : pt.load a =
    if MAXVA ≤ a then none
    else (pt.flat (a / PGSIZE)).bind fun l =>
      if l.flags.testBit 4 = false ∨ l.pa = 0 then none else some (l.data (a % PGSIZE)) := by
  have hdiv : pgrounddown a / PGSIZE = a / PGSIZE := Nat.mul_div_cancel _ (by decide)
  unfold load walkaddr
  simp only [← and_PTE_U, leaf_pgrounddown, hdiv]
  by_cases h : MAXVA ≤ a
  · rw [if_pos h, if_pos (not_lt.1 fun hlt => absurd (pgrounddown_lt.1 hlt) (by omega))]
    rfl
  · rw [if_neg h, if_neg (not_le.2 (pgrounddown_lt.2 (by omega)))]
    cases pt.flat (a / PGSIZE) with
    | none => rfl
    | some l =>
      dsimp only [Option.bind_some]
      split <;> rfl

/-- the flags of page number `v` -/
def perm (pt : PageTable) (v : ℕ) : Option ℕ := if v < NPG then (pt.flat v).map Leaf.flags else none

/-- only the data of pages is different -/
structure SameTree (pt pt' : PageTable) : Prop where
  tables : pt'.tables = pt.tables
  flat : ∀ v < NPG, (pt'.flat v).map (fun l => (l.pa, l.flags)) = (pt.flat v).map fun l => (l.pa, l.flags)

namespace SameTree
variable {pt pt' pt'' : PageTable}

theorem refl (pt : PageTable) : pt.SameTree pt := ⟨rfl, fun _ _ => rfl⟩

theorem trans (h : pt.SameTree pt') (h' : pt'.SameTree pt'') : pt.SameTree pt'' :=
  ⟨h'.tables.trans h.tables, fun v hv => (h'.flat v hv).trans (h.flat v hv)⟩

theorem some (h : pt.SameTree pt') {v : ℕ} (hv : v < NPG) {l : Leaf} (hl : pt.flat v = some l) :
    ∃ l', pt'.flat v = some l' ∧ l'.pa = l.pa ∧ l'.flags = l.flags := by
  have e := h.flat v hv
  rw [hl, Option.map_some, Option.map_eq_some_iff] at e
  obtain ⟨l', hl', e⟩ := e
  exact ⟨l', hl', Prod.mk.inj e⟩

theorem perm (h : pt.SameTree pt') : pt'.perm = pt.perm := by
  funext v
  unfold PageTable.perm
  split
  · rename_i hv
    have e := congrArg (Option.map Prod.snd) (h.flat v hv)
    rw [Option.map_map, Option.map_map] at e
    exact e
  · rfl

theorem users (h : pt.SameTree pt') {v n : ℕ} (hn : v + n ≤ NPG) : pt'.users v n = pt.users v n := by
  unfold PageTable.users rangeSum
  refine Finset.sum_congr rfl fun w hw => ?_
  have hlt := (Finset.mem_Ico.1 hw).2
  have e := congrArg (fun o => Option.elim o (0 : Multiset ℕ) fun x => {x.1}) (h.flat w (by omega))
  simp only [Option.elim_map] at e
  exact e

theorem setLeaf {v : ℕ} {l l' : Leaf} (hv : v < NPG) (hl : pt.flat v = Option.some l)
    (hpa : l'.pa = l.pa) (hf : l'.flags = l.flags) : pt.SameTree (pt.setLeaf (v * PGSIZE) (Option.some l')) := by
  refine ⟨setLeaf_tables .., fun w hw => ?_⟩
  rw [setLeaf_flat hv (path_of_flat hl) _ hw, Function.update_apply]
  split
  · rename_i e
    rw [e, hl, Option.map_some, Option.map_some, hpa, hf]
  · rfl

end SameTree

theorem flat_of_walkaddr {pt : PageTable} {va : ℕ} {l : Leaf} (h : walkaddr pt (pgrounddown va) = some l) :
    va / PGSIZE < NPG ∧ pt.flat (va / PGSIZE) = some l := by
  obtain ⟨hlt, hl, -⟩ := walkaddr_some h
  refine ⟨?_, hl⟩
  have := pgrounddown_lt.1 hlt
  rw [MAXVA_eq] at this
  unfold NPG PGSIZE
  omega

end PageTable

theorem copyoutLoop_sameTree (f : ℕ) (pt : PageTable) (va : ℕ) (src : List Byte) :
    pt.SameTree (copyoutLoop f pt va src).1 := by
  induction f generalizing pt va src with
  | zero => exact .refl pt
  | succ f ih =>
    cases src with
    | nil => exact .refl pt
    | cons b src =>
      rw [copyoutLoop]
      dsimp only
      cases hl : walkaddr pt (pgrounddown va) with
      | none => exact .refl pt
      | some l =>
        obtain ⟨hv, hflat⟩ := PageTable.flat_of_walkaddr hl
        refine PageTable.SameTree.trans ?_ (ih _ _ _)
        exact PageTable.SameTree.setLeaf hv hflat rfl rfl

theorem copyout_sameTree (pt : PageTable) (va : ℕ) (src : List Byte) :
    pt.SameTree (copyout pt va src).1 := copyoutLoop_sameTree ..

/-! ## The pages that there are -/

/-- distinct pages in `[end, PHYSTOP)` -/
structure Memory (own : Multiset ℕ) : Prop where
  nodup : own.Nodup
  free : ∀ pa ∈ own, Freeable pa

/-- there are fewer pages than page numbers below the trapframe -/
theorem Memory.card_le {own : Multiset ℕ} (h : Memory own) : own.card ≤ 2 ^ 15 := by
  have hinj : Set.InjOn (fun pa => pa / PGSIZE) (own.toFinset : Set ℕ) := fun a ha b hb e => by
    have h1 := (h.free a (Multiset.mem_toFinset.1 ha)).1
    have h2 := (h.free b (Multiset.mem_toFinset.1 hb)).1
    unfold PGSIZE at h1 h2 e
    dsimp only at e
    omega
  have hmaps : Set.MapsTo (fun pa => pa / PGSIZE) (own.toFinset : Set ℕ)
      (Finset.Ico (KERNBASE / PGSIZE) (PHYSTOP / PGSIZE) : Set ℕ) := fun a ha => by
    obtain ⟨-, h2, h3⟩ := h.free a (Multiset.mem_toFinset.1 ha)
    rw [Finset.coe_Ico, Set.mem_Ico]
    dsimp only
    unfold kend PHYSTOP KERNBASE at *
    unfold PGSIZE
    omega
  have hcard := Finset.card_le_card_of_injOn _ hmaps hinj
  rw [Multiset.toFinset_card_of_nodup h.nodup, Nat.card_Ico] at hcard
  exact hcard

/-! ## The table -/

/-- the table maps the pages of the first `sz` bytes, and each page is free, in it, or of its tables -/
structure Building (own : Multiset ℕ) (tf : ℕ) (guard : Option ℕ) (pt : PageTable) (sz : ℕ)
    (fl : List ℕ) : Prop where
  space : Space pt (npages sz) tf guard
  pages : (fl : Multiset ℕ) + (pt.tables + pt.users 0 (npages sz)) = own

section
variable {own : Multiset ℕ} {tf : ℕ} {guard : Option ℕ} {pt pt' : PageTable} {sz : ℕ} {fl : List ℕ}

theorem Space.same {n : ℕ} (h : Space pt n tf guard) (hs : pt.SameTree pt')
    (hrest : ∀ v, n ≤ v → v < PageTable.NPG → pt'.flat v = pt.flat v) : Space pt' n tf guard := by
  have hn := h.small
  rw [TRAPFRAME_page] at hn
  refine ⟨h.small, fun v hv => ?_, fun v hv hv' => (hrest v hv hv').trans (h.rest v hv hv')⟩
  obtain ⟨l, hl, hb⟩ := h.user v hv
  obtain ⟨l', hl', -, hf⟩ := hs.some (lt_NPG (by omega)) hl
  exact ⟨l', hl', by rw [hf]; exact hb⟩

theorem Space.users_card {n : ℕ} (h : Space pt n tf guard) : (pt.users 0 n).card = n := by
  unfold PageTable.users rangeSum
  rw [Multiset.card_sum, Nat.zero_add]
  have : ∀ w ∈ Finset.Ico 0 n, Multiset.card ((pt.flat w).elim 0 Leaf.page) = 1 := fun w hw => by
    obtain ⟨l, hl, -⟩ := h.user w (Finset.mem_Ico.1 hw).2
    rw [hl]
    rfl
  rw [Finset.sum_congr rfl this, Finset.sum_const, Nat.card_Ico, Nat.sub_zero, nsmul_one, Nat.cast_id]

namespace Building

theorem mem_fl (h : Building own tf guard pt sz fl) {pa : ℕ} (hpa : pa ∈ fl) : pa ∈ own := by
  rw [← h.pages]
  exact Multiset.mem_add.2 (.inl hpa)

theorem mem_tables (h : Building own tf guard pt sz fl) {pa : ℕ} (hpa : pa ∈ pt.tables) : pa ∈ own := by
  rw [← h.pages]
  exact Multiset.mem_add.2 (.inr (Multiset.mem_add.2 (.inl hpa)))

theorem mem_users (h : Building own tf guard pt sz fl) {pa : ℕ} (hpa : pa ∈ pt.users 0 (npages sz)) :
    pa ∈ own := by
  rw [← h.pages]
  exact Multiset.mem_add.2 (.inr (Multiset.mem_add.2 (.inr hpa)))

theorem leaf (h : Building own tf guard pt sz fl) (hm : Memory own) {v : ℕ} (hv : v < npages sz) :
    ∃ l, pt.flat v = some l ∧ l.pa ≠ 0 ∧ (l.flags.testBit 4 = true ↔ guard ≠ some v) := by
  obtain ⟨l, hl, -, -, hu⟩ := h.space.user v hv
  refine ⟨l, hl, fun h0 => ?_, hu⟩
  have hmem : l.pa ∈ pt.users 0 (npages sz) := by
    unfold PageTable.users rangeSum
    refine Multiset.mem_sum.2 ⟨v, Finset.mem_Ico.2 ⟨Nat.zero_le _, by omega⟩, ?_⟩
    rw [hl]
    exact Multiset.mem_singleton_self _
  have := (hm.free _ (h.mem_users hmem)).2.1
  rw [h0] at this
  exact absurd this (by decide)

theorem small (h : Building own tf guard pt sz fl) : npages sz ≤ 2 ^ 26 - 2 := by
  have := h.space.small
  rwa [TRAPFRAME_page] at this

theorem card (h : Building own tf guard pt sz fl) :
    npages sz + (fl.length + pt.tables.card) = own.card := by
  have := congrArg Multiset.card h.pages
  rw [Multiset.card_add, Multiset.card_add, Multiset.coe_card, h.space.users_card] at this
  omega

theorem userPage (h : Building own tf guard pt sz fl) (hm : Memory own) {a : ℕ} (ha : a / PGSIZE < npages sz)
    (hg : guard ≠ some (a / PGSIZE)) : pt.UserPage a := by
  obtain ⟨l, hl, hpa, hu⟩ := h.leaf hm ha
  have hsm := h.small
  refine ⟨?_, l, ?_, ?_, hpa⟩
  · rw [MAXVA_eq]
    unfold PGSIZE at ha
    omega
  · rw [leaf_pgrounddown, pgrounddown, Nat.mul_div_cancel _ (by decide)]
    exact hl
  · exact fun h0 => by
      have := hu.2 hg
      rw [and_PTE_U.1 h0] at this
      cases this

theorem same (h : Building own tf guard pt sz fl) (hs : pt.SameTree pt')
    (hrest : ∀ v, npages sz ≤ v → v < PageTable.NPG → pt'.flat v = pt.flat v) :
    Building own tf guard pt' sz fl := by
  have hsm := h.small
  refine ⟨h.space.same hs hrest, ?_⟩
  rw [hs.tables, hs.users (by unfold PageTable.NPG; omega)]
  exact h.pages

theorem turn (h : Building own tf guard pt sz fl) {fl' : List ℕ}
    (ht : Turns pt fl pt' fl' pt.flat 0 0) : Building own tf guard pt' sz fl' := by
  have hsm := h.small
  refine ⟨h.space.congr ht.flat, ?_⟩
  have hu : pt'.users 0 (npages sz) = pt.users 0 (npages sz) :=
    rangeSum_congr _ fun w _ hw => ht.flat w (lt_NPG (by omega))
  have hp := ht.pages
  rw [add_zero, add_zero] at hp
  rw [hu, ← add_assoc, hp, add_assoc]
  exact h.pages

/-- **`uvmalloc`**, whatever the sizes: the new pages are zero and have the flags asked for, or memory has
run out and the table maps what it did -/
theorem uvmalloc (hm : Memory own) (h : Building own tf none pt sz fl) (newsz xperm : ℕ) :
    ∃ pt' r fl', MemRuns (uvmalloc pt sz newsz xperm : KM N _) fl (pt', r) fl' ∧
      (r = max sz newsz ∧ Building own tf none pt' r fl' ∧
          (∀ a, pt'.load a =
            if npages sz ≤ a / PGSIZE ∧ a / PGSIZE < npages r then some 0 else pt.load a) ∧
          (∀ v, pt'.perm v = if npages sz ≤ v ∧ v < npages r then
            some (PTE_R ||| PTE_U ||| xperm ||| PTE_V) else pt.perm v) ∨
        r = 0 ∧ Building own tf none pt' sz fl') := by
  have hcard := hm.card_le
  by_cases hlt : newsz < sz
  · refine ⟨pt, sz, fl, ?_, .inl ⟨by omega, h, fun a => ?_, fun v => ?_⟩⟩
    · unfold Xv6.uvmalloc
      rw [if_pos hlt]
      exact .pure _ _
    · rw [if_neg (by omega)]
    · rw [if_neg (by omega)]
  · have hle : sz ≤ newsz := by omega
    have habs : ∀ w, npages sz ≤ w → w < own.card → pt.flat w = none := fun w h1 h2 =>
      h.space.absent h1 (by rw [TRAPFRAME_page]; omega)
    obtain ⟨pt', r, fl', hr, ⟨rfl, hB, ps, ht⟩ | ⟨rfl, ht⟩⟩ := uvmalloc_runs (N := N) pt xperm fl hle
      (Nat.le_of_eq h.card) (by omega) habs (fun pa hpa => hm.free pa (h.mem_fl hpa))
      fun pa hpa => hm.free pa (h.mem_tables hpa)
    · have hmono := npages_mono hle
      have hold : ∀ v < PageTable.NPG, ¬ (npages sz ≤ v ∧ v < npages r) → pt'.flat v = pt.flat v :=
        fun v hv hn => by
          rw [ht.flat v hv]
          exact if_neg (by omega)
      have hnew : ∀ v, npages sz ≤ v → v < npages r →
          pt'.flat v = some (freshLeaf xperm (ps (v - npages sz))) := fun v h1 h2 => by
        rw [ht.flat v (lt_NPG (by omega))]
        exact if_pos (by omega)
      have hb : Building own tf none pt' r fl' := by
        refine ⟨⟨by rw [TRAPFRAME_page]; omega, fun v hv => ?_, fun v h1 h2 => ?_⟩, ?_⟩
        · by_cases hvs : v < npages sz
          · rw [hold v (lt_NPG (by omega)) (by omega)]
            exact h.space.user v hvs
          · obtain ⟨b1, b0, b4⟩ := freshLeaf_bits xperm (ps (v - npages sz))
            exact ⟨_, hnew v (by omega) hv, b0, b1, iff_of_true b4 nofun⟩
        · rw [hold v h2 (by omega)]
          exact h.space.rest v (by omega) h2
        · have hu : pt'.users 0 (npages r) =
              pt.users 0 (npages sz) + pt'.users (npages sz) (npages r - npages sz) := by
            have hcut : npages r = npages sz + (npages r - npages sz) := by omega
            unfold PageTable.users
            rw [hcut, rangeSum_add, ← hcut, Nat.zero_add]
            refine congrArg (· + _) (rangeSum_congr _ fun w _ hw => hold w (lt_NPG (by omega)) (by omega))
          have hp := ht.pages
          rw [add_zero] at hp
          rw [hu, ← h.pages, ← add_assoc (fl : Multiset ℕ), ← hp]
          abel
      refine ⟨pt', r, fl', hr, .inl ⟨by omega, hb, fun a => ?_, fun v => ?_⟩⟩
      · rw [PageTable.load_flat, PageTable.load_flat]
        by_cases ha : npages sz ≤ a / PGSIZE ∧ a / PGSIZE < npages r
        · obtain ⟨l, hl, hpa, hu⟩ := hb.leaf hm ha.2
          have hflat := hnew _ ha.1 ha.2
          rw [hl, Option.some.injEq] at hflat
          have hMAX : ¬ MAXVA ≤ a := by
            rw [MAXVA_eq]
            have := ha.2
            unfold PGSIZE at this
            omega
          have hbit : l.flags.testBit 4 = true := hu.2 nofun
          rw [if_pos ha, if_neg hMAX, hl, Option.bind_some, if_neg (by simp [hbit, hpa]), hflat]
          rfl
        · rw [if_neg ha]
          by_cases hMAX : MAXVA ≤ a
          · rw [if_pos hMAX, if_pos hMAX]
          · rw [if_neg hMAX, if_neg hMAX, hold _ (lt_NPG ?_) ha]
            rw [MAXVA_eq] at hMAX
            unfold PGSIZE
            omega
      · unfold PageTable.perm
        by_cases hv : npages sz ≤ v ∧ v < npages r
        · rw [if_pos hv, if_pos (lt_NPG (by omega)), hnew v hv.1 hv.2]
          rfl
        · rw [if_neg hv]
          split
          · rename_i hN
            rw [hold v hN hv]
          · rfl
    · exact ⟨pt', 0, fl', hr, .inr ⟨rfl, h.turn ht⟩⟩

theorem clear_bits (f i : ℕ) :
    (f ^^^ (f &&& PTE_U)).testBit i = (f.testBit i && decide (i ≠ 4)) := by
  rw [Nat.testBit_xor, Nat.testBit_and, show PTE_U = 2 ^ 4 from rfl, Nat.testBit_two_pow]
  by_cases hi : 4 = i
  · subst hi
    simp
  · rw [decide_eq_false hi, decide_eq_true (Ne.symm hi)]
    simp

/-- **`uvmclear`** of a page: it is not the user's any more -/
theorem uvmclear (hm : Memory own) (h : Building own tf none pt sz fl) {v : ℕ} (hv : v < npages sz) :
    ∃ pt', MemRuns (uvmclear pt (v * PGSIZE) : KM N _) fl pt' fl ∧ Building own tf (some v) pt' sz fl ∧
      (∀ a, a / PGSIZE ≠ v → pt'.load a = pt.load a) ∧ ∀ w, w ≠ v → pt'.perm w = pt.perm w := by
  have hsm := h.small
  obtain ⟨l, hl, -, -⟩ := h.leaf hm hv
  have hN : v < PageTable.NPG := lt_NPG (by omega)
  obtain ⟨pt1, ok, fl1, hwalk, -, hok, hsame, -⟩ :=
    walk_runs (N := N) pt (v * PGSIZE) (by rw [MAXVA_eq]; unfold PGSIZE; omega) false fl
  obtain ⟨rfl, rfl⟩ := hsame rfl
  rw [PageTable.path_of_flat hl] at hok
  have hflat := fun w hw => PageTable.setLeaf_flat hN (PageTable.path_of_flat hl)
    (some { l with flags := l.flags ^^^ (l.flags &&& PTE_U) }) (w := w) hw
  have hne : ∀ w < PageTable.NPG, w ≠ v → (pt1.setLeaf (v * PGSIZE)
      (some { l with flags := l.flags ^^^ (l.flags &&& PTE_U) })).flat w = pt1.flat w := fun w hw hne => by
    rw [hflat w hw, Function.update_of_ne hne]
  refine ⟨pt1.setLeaf (v * PGSIZE) (some { l with flags := l.flags ^^^ (l.flags &&& PTE_U) }),
    hwalk.bind ?_, ⟨⟨h.space.small, fun w hw => ?_, fun w h1 h2 => ?_⟩, ?_⟩, fun a ha => ?_, fun w hw => ?_⟩
  · rw [hok]
    dsimp only
    rw [if_pos rfl, show pt1.leaf (v * PGSIZE) = some l from hl]
    exact .pure _ _
  · by_cases e : w = v
    · subst e
      obtain ⟨l', hl', b0, b1, -⟩ := h.space.user w hw
      rw [hl, Option.some.injEq] at hl'
      subst hl'
      refine ⟨_, by rw [hflat w hN, Function.update_self], ?_, ?_, ?_⟩
      · show (l.flags ^^^ (l.flags &&& PTE_U)).testBit 0 = true
        rw [clear_bits, b0]
        rfl
      · show (l.flags ^^^ (l.flags &&& PTE_U)).testBit 1 = true
        rw [clear_bits, b1]
        rfl
      · show (l.flags ^^^ (l.flags &&& PTE_U)).testBit 4 = true ↔ _
        rw [clear_bits]
        exact iff_of_false (by simp) fun hc => hc rfl
    · obtain ⟨l', hl', b0, b1, b4⟩ := h.space.user w hw
      exact ⟨l', by rw [hne w (lt_NPG (by omega)) e, hl'], b0, b1,
        iff_of_true (b4.2 nofun) fun hc => e (Option.some.inj hc).symm⟩
  · rw [hne w h2 (by omega)]
    exact h.space.rest w h1 h2
  · have hu : (pt1.setLeaf (v * PGSIZE) (some { l with flags := l.flags ^^^ (l.flags &&& PTE_U) })).users 0
        (npages sz) = pt1.users 0 (npages sz) := by
      unfold PageTable.users rangeSum
      refine Finset.sum_congr rfl fun w hw => ?_
      have hlt := (Finset.mem_Ico.1 hw).2
      by_cases e : w = v
      · subst e
        rw [hflat w hN, Function.update_self, hl]
        rfl
      · rw [hne w (lt_NPG (by omega)) e]
    rw [PageTable.setLeaf_tables, hu]
    exact h.pages
  · rw [PageTable.load_flat, PageTable.load_flat]
    by_cases hMAX : MAXVA ≤ a
    · rw [if_pos hMAX, if_pos hMAX]
    · rw [if_neg hMAX, if_neg hMAX, hne _ (lt_NPG ?_) ha]
      rw [MAXVA_eq] at hMAX
      unfold PGSIZE
      omega
  · unfold PageTable.perm
    split
    · rename_i hN'
      rw [hne w hN' hw]
    · rfl

end Building
end
end Xv6
