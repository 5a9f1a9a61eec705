import Xv6.Kernel.Returns

/-!
# The memory of the processes

* `Kern.owned`   the free pages together with the pages of all slots: what the routines conserve;
* `Kern.Fit`   every page table fits the size of its process, every page can be freed, and a
  slot that is not in use has no page;
* `Fit.turn`   **a slot may exchange pages with the free list**;
* `Ends.clear`   a loop that clears slots;
* `KState.Ready`   process `p` may call `fork`, `forkn` and the like;
* `Ready.allocproc`, `Ready.copyChild`   the two ways in which each of them ends;
* `userinit_ready`   the first process is ready.
-/

namespace Xv6
open Function (update update_self)
variable {N : ℕ}

namespace Kern
variable {k k' : Kern N}

/-- all pages: the free ones, and those of the slots -/
def owned (k : Kern N) : Multiset ℕ := (k.freelist : Multiset ℕ) + ∑ j, (k.proc j).pages

structure Fit (k : Kern N) : Prop where
  fits : ∀ j, (k.proc j).Fits
  free : ∀ pa ∈ k.owned, Freeable pa
  unused : ∀ j, (k.proc j).state = .unused →
    (k.proc j).trapframe = none ∧ (k.proc j).pagetable = none ∧ (k.proc j).sz = 0

theorem owned_congr (hp : k'.proc = k.proc) (hf : k'.freelist = k.freelist) : k'.owned = k.owned := by
  unfold owned
  rw [hp, hf]

theorem Fit.congr (h : k.Fit) (hp : k'.proc = k.proc) (hf : k'.freelist = k.freelist) : k'.Fit := by
  refine ⟨?_, ?_, ?_⟩
  · rw [hp]
    exact h.fits
  · rw [owned_congr hp hf]
    exact h.free
  · rw [hp]
    exact h.unused

theorem Fit.free_list (h : k.Fit) : ∀ pa ∈ k.freelist, Freeable pa := fun pa hpa =>
  h.free pa (Multiset.mem_add.mpr (Or.inl hpa))

theorem Fit.free_slot (h : k.Fit) (j : Slot N) : ∀ pa ∈ (k.proc j).pages, Freeable pa :=
  fun pa hpa => h.free pa (Multiset.mem_add.mpr (Or.inr
    (Multiset.mem_sum.mpr ⟨j, Finset.mem_univ j, hpa⟩)))

theorem sum_pages_update (q : Slot N → Proc N) (j : Slot N) (r : Proc N) :
    ∑ i, (update q j r i).pages + (q j).pages = ∑ i, (q i).pages + r.pages := by
  have h : ∀ g : Slot N → Proc N,
      ∑ i, (g i).pages = (g j).pages + ∑ i ∈ Finset.univ.erase j, (g i).pages := fun g =>
    (Finset.add_sum_erase Finset.univ (fun i => (g i).pages) (Finset.mem_univ j)).symm
  have hrest : ∑ i ∈ Finset.univ.erase j, (update q j r i).pages
      = ∑ i ∈ Finset.univ.erase j, (q i).pages := by
    refine Finset.sum_congr rfl fun i hi => ?_
    rw [Function.update_of_ne (Finset.ne_of_mem_erase hi)]
  rw [h (update q j r), h q, update_self, hrest]
  abel

theorem owned_upd (k : Kern N) (j : Slot N) (f : Proc N → Proc N) (fl : List Nat)
    (h : (fl : Multiset ℕ) + (f (k.proc j)).pages = k.freelist + (k.proc j).pages) :
    ((k.withFree fl).upd j f).owned = k.owned := by
  have hs := sum_pages_update k.proc j (f (k.proc j))
  refine add_right_cancel (b := (k.proc j).pages) ?_
  show (fl : Multiset ℕ) + ∑ i, (update k.proc j (f (k.proc j)) i).pages
    + (k.proc j).pages = (k.freelist : Multiset ℕ) + ∑ i, (k.proc i).pages + (k.proc j).pages
  rw [add_assoc, hs, add_left_comm, h]
  abel

/-- **an exchange of pages between a slot and the free list** -/
theorem Fit.turn (h : k.Fit) {j : Slot N} {f : Proc N → Proc N} {fl : List Nat}
    (hf : (f (k.proc j)).Fits)
    (hu : (f (k.proc j)).state = .unused → (f (k.proc j)).trapframe = none ∧
      (f (k.proc j)).pagetable = none ∧ (f (k.proc j)).sz = 0)
    (hp : (fl : Multiset ℕ) + (f (k.proc j)).pages = k.freelist + (k.proc j).pages) :
    ((k.withFree fl).upd j f).Fit := by
  have hproc : ∀ {P : Proc N → Prop}, P (f (k.proc j)) → (∀ i, P (k.proc i)) →
      ∀ i, P (((k.withFree fl).upd j f).proc i) := by
    intro P h1 h2 i
    by_cases hi : i = j
    · rw [hi, upd_same]
      exact h1
    · rw [upd_ne _ _ hi]
      exact h2 i
  refine ⟨hproc (P := Proc.Fits) hf h.fits, ?_, hproc (P := fun q => q.state = .unused →
    q.trapframe = none ∧ q.pagetable = none ∧ q.sz = 0) hu h.unused⟩
  rw [owned_upd k j f fl hp]
  exact h.free

theorem Fit.freed (h : k.Fit) {j : Slot N} {fl : List Nat}
    (hp : (fl : Multiset ℕ) = k.freelist + (k.proc j).pages) :
    ((k.withFree fl).upd j Proc.freed).Fit ∧ ((k.withFree fl).upd j Proc.freed).owned = k.owned := by
  have hp' : (fl : Multiset ℕ) + (k.proc j).freed.pages = k.freelist + (k.proc j).pages := by
    rw [Proc.pages_freed, add_zero, hp]
  exact ⟨h.turn (fun pt hpt => by cases hpt) (fun _ => ⟨rfl, rfl, rfl⟩) hp', owned_upd k j _ fl hp'⟩

theorem Fit.unused_pages (h : k.Fit) {j : Slot N} (hj : (k.proc j).state = .unused) :
    (k.proc j).pages = 0 := by
  obtain ⟨h1, h2, -⟩ := h.unused j hj
  unfold Proc.pages
  rw [h1, h2]
  rfl

end Kern

/-! ## clearing slots -/

/-- the slots of `kids` were cleared -/
structure Cleared (kids : List (Slot N)) (k k' : Kern N) : Prop where
  fit : k'.Fit
  owned : k'.owned = k.owned
  fref : k'.fref = k.fref
  iref : k'.iref = k.iref
  other : ∀ j, j ∉ kids → k'.proc j = k.proc j
  kid : ∀ j ∈ kids, k'.proc j = (k.proc j).freed

/-- **a loop that clears slots**: what one turn does to one slot, all turns do to all -/
theorem Ends.clear {L : Finset (Lock N)} {x : Slot N → KM N Unit}
    (hx : ∀ j (k : Kern N), k.Fit → .proc j ∉ L → Ends L k (x j) fun _ L' k' => L' = L ∧
      ∃ fl : List Nat, k' = (k.withFree fl).upd j Proc.freed ∧
        (fl : Multiset ℕ) = k.freelist + (k.proc j).pages)
    (kids : List (Slot N)) {k : Kern N} (h : k.Fit) (hn : kids.Nodup)
    (hl : ∀ j ∈ kids, .proc j ∉ L) :
    Ends L k (Act.each x kids) fun _ L' k' => L' = L ∧ Cleared kids k k' := by
  induction kids generalizing k with
  | nil =>
    exact Ends.pure ⟨rfl, h, rfl, rfl, rfl, fun _ _ => rfl, fun _ hj => absurd hj List.not_mem_nil⟩
  | cons j kids ih =>
    obtain ⟨hj, hn⟩ := List.nodup_cons.mp hn
    refine Ends.bind (hx j k h (hl j List.mem_cons_self)) ?_
    rintro _ _ _ ⟨rfl, fl, rfl, he⟩
    obtain ⟨hfit, hown⟩ := h.freed he
    refine (ih hfit hn fun i hi => hl i (List.mem_cons_of_mem _ hi)).mono ?_
    rintro _ _ k' ⟨rfl, hc⟩
    refine ⟨rfl, hc.fit, hc.owned.trans hown, hc.fref, hc.iref, fun i hi => ?_, fun i hi => ?_⟩
    · rw [List.mem_cons, not_or] at hi
      rw [hc.other i hi.2]
      exact Kern.upd_ne _ _ hi.1
    · rcases List.mem_cons.mp hi with rfl | hi
      · rw [hc.other i hj, Kern.upd_same]
        rfl
      · rw [hc.kid i hi]
        exact congrArg Proc.freed (Kern.upd_ne _ _ fun e => hj (e ▸ hi))

/-! ## a process at the start of a system call -/

/-- process `p` has its memory and files, and its CPU holds no lock -/
structure KState.Ready (p : Slot N) (s : KState N) : Prop where
  fit : s.k.Fit
  used : (s.k.proc p).state ≠ .unused
  parent : ∃ pt tf ip, s.k.Parent (s.k.proc p) pt tf ip
  held : s.held = ∅
  noff : s.noff = 0

theorem quiet_empty : Quiet (∅ : Finset (Lock N)) := ⟨nofun, nofun, nofun, nofun⟩

theorem Ends.run {α : Type} {s : KState N} {x : KM N α}
    {Q : α → Finset (Lock N) → Kern N → Prop} (h : Ends s.held s.k x Q)
    (hn : s.noff = s.held.card) :
    ∃ a L k, x s = some (a, ⟨k, L, L.card, s.env⟩) ∧ Q a L k := by
  obtain ⟨a, L, k, hr, hq⟩ := h
  refine ⟨a, L, k, ?_, hq⟩
  have := hr s.env
  rw [← hn] at this
  exact this

/-! ## a turn of `fork` and `forkn` -/

theorem KState.Ready.allocproc {p : Slot N} {s : KState N} (h : s.Ready p) :
    (∃ np pa pt, ∃ fl : List Nat, (s.k.proc np).state = .unused ∧ Space pt 0 pa none ∧
      (fl : Multiset ℕ) + ({pa} + pt.tables) = s.k.freelist ∧
      Xv6.allocproc s = some (some np,
        ⟨(s.k.bump.withFree fl).upd np fun q => q.allocated s.k.nextpid pa pt, {.proc np}, 1, s.env⟩)) ∨
    ∃ k', Xv6.allocproc s = some (none, ⟨k', ∅, 0, s.env⟩) ∧
      (k' = s.k ∨ ∃ j, ∃ fl : List Nat, (s.k.proc j).state = .unused ∧
        k' = (s.k.bump.withFree fl).upd j Proc.freed ∧ (fl : Multiset ℕ) = s.k.freelist) := by
  have hends := allocprocScan_ends (L := s.held) (k := s.k) (slots N) (by rw [h.held]; exact quiet_empty)
    (fun j => by rw [h.held]; nofun) (fun j hj => (h.fit.unused j hj).2.1) h.fit.free_list
  obtain ⟨r, L, k', e, hres⟩ := hends.run (by rw [h.noff, h.held]; rfl)
  rw [h.held] at hres
  rcases hres with ⟨np, pa, pt, fl, rfl, rfl, hu, rfl, hs, hp⟩ | ⟨rfl, rfl, hk⟩
  · refine Or.inl ⟨np, pa, pt, fl, hu, hs, hp, ?_⟩
    rw [insert_empty_eq, Finset.card_singleton] at e
    exact e
  · exact Or.inr ⟨k', e, hk⟩

theorem Kern.Fit.allocated {k : Kern N} (h : k.Fit) {np : Slot N} {pa : Nat} {pt : PageTable}
    {fl : List Nat} (hu : (k.proc np).state = .unused) (hs : Space pt 0 pa none)
    (hp : (fl : Multiset ℕ) + ({pa} + pt.tables) = k.freelist) :
    ((k.bump.withFree fl).upd np fun q => q.allocated k.nextpid pa pt).Fit ∧
    ((k.bump.withFree fl).upd np fun q => q.allocated k.nextpid pa pt).owned = k.owned ∧
    ((k.proc np).allocated k.nextpid pa pt).pages = {pa} + pt.tables := by
  have hsz := (h.unused np hu).2.2
  have hpages : ((k.proc np).allocated k.nextpid pa pt).pages = {pa} + pt.tables := by
    unfold Proc.pages Proc.allocated
    have hz : pt.users 0 (npages 0) = 0 := rangeSum_zero _ _ _
    simp only [Option.elim_some, hsz, hz, add_zero]
  have hbal : (fl : Multiset ℕ) + ((k.proc np).allocated k.nextpid pa pt).pages
      = k.bump.freelist + (k.bump.proc np).pages := by
    rw [hpages, hp, Kern.bump_proc, Kern.bump_freelist, h.unused_pages hu, add_zero]
  refine ⟨(@Kern.Fit.congr _ _ k.bump h rfl rfl).turn ?_ (fun e => by cases e) hbal,
    (Kern.owned_upd k.bump np _ fl hbal).trans (Kern.owned_congr rfl rfl), hpages⟩
  intro pt' hpt'
  cases hpt'
  refine ⟨pa, none, ?_⟩
  show Space pt (npages (k.proc np).sz) pa none
  rw [hsz]
  exact hs

/-- **the copy of the caller** into the slot that `allocproc` has filled -/
theorem KState.Ready.copyChild {p np : Slot N} {s : KState N} (h : s.Ready p) {pa : Nat}
    {new : PageTable} {fl : List Nat} (a0 : BitVec 64) (hu : (s.k.proc np).state = .unused)
    (hs : Space new 0 pa none) (hp : (fl : Multiset ℕ) + ({pa} + new.tables) = s.k.freelist) :
    let t : KState N :=
      ⟨(s.k.bump.withFree fl).upd np fun q => q.allocated s.k.nextpid pa new, {.proc np}, 1, s.env⟩
    (∃ new' pt tf ip, ∃ fl' : List Nat, s.k.Parent (s.k.proc p) pt tf ip ∧
      (∀ v, v < npages (s.k.proc p).sz → ∃ l pa, pt.flat v = some l ∧
        new'.flat v = some (l.copied pa)) ∧
      ∃ k', Xv6.copyChild p np a0 t = some (true, ⟨k', {.proc np}, 1, s.env⟩) ∧
        k' = ((s.k.bump.dupRefs (s.k.proc p) ip).withFree fl').upd np (fun q =>
          (q.allocated s.k.nextpid pa new').childOf (s.k.proc p) pa tf ip a0) ∧
        k'.Fit ∧ k'.owned = s.k.owned) ∨
    ∃ fl' : List Nat, Xv6.copyChild p np a0 t = some (false, ⟨(s.k.bump.withFree fl').upd np fun q =>
        (q.allocated s.k.nextpid pa new).freed, {.proc np}, 1, s.env⟩) ∧
      (fl' : Multiset ℕ) = s.k.freelist := by
  intro t
  obtain ⟨pt, tf, ip, hpar⟩ := h.parent
  have hne : p ≠ np := fun e => h.used (e ▸ hu)
  obtain ⟨hfit, hown, hpages⟩ := h.fit.allocated hu hs hp
  have hsz := (h.fit.unused np hu).2.2
  have htp : t.k.proc p = s.k.proc p :=
    Kern.upd_ne (s.k.bump.withFree fl) (fun q => q.allocated s.k.nextpid pa new) hne
  have htn : t.k.proc np = (s.k.proc np).allocated s.k.nextpid pa new :=
    Kern.upd_same (s.k.bump.withFree fl) np fun q => q.allocated s.k.nextpid pa new
  have hquiet : Quiet t.held := by
    refine ⟨?_, ?_, ?_, ?_⟩ <;> exact fun hm => by cases Finset.mem_singleton.mp hm
  have hpar' : t.k.Parent (t.k.proc p) pt tf ip := by
    rw [htp]
    exact ⟨hpar.pagetable, hpar.trapframe, hpar.cwd, hpar.space, hpar.refs⟩
  have hends := copyChild_ends a0 hquiet hne hpar'
    (show (t.k.proc np).trapframe = some (pa, junk) by rw [htn]; rfl)
    (show (t.k.proc np).pagetable = some new by rw [htn]; rfl) (by rw [htn]; exact hsz) hs hfit.free_list
    (hfit.free_slot np)
  obtain ⟨ok, L, k', e, rfl, hres⟩ := hends.run rfl
  rw [htp, htn, hpages, show (t.k.freelist : Multiset ℕ) + ({pa} + new.tables) = s.k.freelist from hp]
    at hres
  rcases hres with ⟨rfl, new', fl', g, hsp, hcopy, hk, hbal⟩ | ⟨rfl, fl', hk, hbal⟩
  · have hk' : k' = ((s.k.bump.dupRefs (s.k.proc p) ip).withFree fl').upd np (fun q =>
        (q.allocated s.k.nextpid pa new').childOf (s.k.proc p) pa tf ip a0) :=
      hk.trans (upd_upd ((s.k.bump.dupRefs (s.k.proc p) ip).withFree fl') np
        (fun q => q.allocated s.k.nextpid pa new) fun q =>
          ({ q with pagetable := some new' } : Proc N).childOf (s.k.proc p) pa tf ip a0)
    rw [hk', Kern.upd_same] at hbal
    have hbal' := hbal.trans (add_zero (s.k.freelist : Multiset ℕ)).symm
    rw [← h.fit.unused_pages hu] at hbal'
    have hfit0 : (s.k.bump.dupRefs (s.k.proc p) ip).Fit := h.fit.congr rfl rfl
    refine Or.inl ⟨new', pt, tf, ip, fl', hpar, hcopy, k', e, hk', ?_, ?_⟩
    · rw [hk']
      refine hfit0.turn ?_ (fun e => by cases e) hbal'
      intro pt' hpt'
      cases hpt'
      exact ⟨pa, g, hsp⟩
    · rw [hk']
      exact (Kern.owned_upd _ np _ fl' hbal').trans (Kern.owned_congr rfl rfl)
  · refine Or.inr ⟨fl', ?_, hbal⟩
    rw [e, hk]
    exact congrArg (fun k => some (false, (⟨k, {.proc np}, 1, s.env⟩ : KState N)))
      (upd_upd (s.k.bump.withFree fl') np (fun q => q.allocated s.k.nextpid pa new) Proc.freed)

/-! ## the first process -/

theorem Kern.zero_owned (fl : List Nat) : (Kern.zero fl : Kern N).owned = fl := by
  have hz : ∑ j, ((Kern.zero fl : Kern N).proc j).pages = 0 := Finset.sum_eq_zero fun _ _ => rfl
  unfold Kern.owned
  rw [hz, add_zero]
  rfl

theorem Kern.zero_fit {fl : List Nat} (h : ∀ pa ∈ fl, Freeable pa) : (Kern.zero fl : Kern N).Fit := by
  refine ⟨?_, ?_, fun _ _ => ⟨rfl, rfl, rfl⟩⟩
  · intro _ pt hpt
    cases hpt
  · rw [Kern.zero_owned]
    exact h

/-- `uvmfirst` maps one page, unless there is no memory for a table -/
theorem uvmfirst_runs (pt : PageTable) (src : Page) {sz : Nat} (fl : List Nat) (hsz : sz < PGSIZE)
    (habs : pt.flat 0 = none) :
    (fl = [] ∧ ∀ s : KState N, .kmem ∉ s.held → s.k.freelist = fl → uvmfirst pt src sz s = none) ∨
    ∃ pt' fl', MemRuns (uvmfirst pt src sz : KM N _) fl pt' fl' ∧
      (pt'.flat 0 = none ∨ ∃ l : Leaf, l.flags = PTE_W ||| PTE_R ||| PTE_X ||| PTE_U ||| PTE_V ∧
        Turns pt fl pt' fl' (update pt.flat 0 (some l)) 0 {l.pa}) := by
  have hpos : (0 : Nat) < 2 ^ 26 := by decide
  obtain hnil | ⟨mem, fl0, pt', ok, fl', rfl, hr, hres⟩ := newPage_runs (N := N) pt (v := 0)
    (fun o => if o < sz then src o else 0) (PTE_W ||| PTE_R ||| PTE_X ||| PTE_U) fl hpos habs
  · refine Or.inl ⟨hnil, fun s hs hfl => ?_⟩
    unfold uvmfirst
    rw [if_neg (by omega), Act.bind_of (kalloc_runs fl s hs hfl), hnil]
    rfl
  · rw [Nat.zero_mul] at hr
    refine Or.inr ⟨pt', fl', ?_, ?_⟩
    · unfold uvmfirst
      rw [if_neg (by omega)]
      exact (kalloc_runs (mem :: fl0)).bind (hr.bind (MemRuns.pure _ _))
    · rcases hres with ⟨-, ht⟩ | ⟨-, ht⟩
      · exact Or.inr ⟨_, rfl, ht⟩
      · exact Or.inl ((ht.flat 0 (by decide)).trans habs)

/-- the page of the first process, in a table without user pages -/
theorem Space.first {pt pt' : PageTable} {tf : Nat} {l : Leaf} {fl fl' : List Nat}
    {put got : Multiset ℕ} (h : Space pt 0 tf none)
    (hl : l.flags = PTE_W ||| PTE_R ||| PTE_X ||| PTE_U ||| PTE_V)
    (ht : Turns pt fl pt' fl' (update pt.flat 0 (some l)) put got) :
    Space pt' 1 tf none := by
  refine ⟨by decide, fun v hv => ⟨l, ?_, ?_⟩, fun v h1 h2 => ?_⟩
  · rw [show v = 0 by omega, ht.flat 0 (by decide), update_self]
  · rw [hl]
    refine ⟨by decide, by decide, iff_of_true (by decide) nofun⟩
  · rw [ht.flat v h2, Function.update_of_ne (by omega)]
    exact h.rest v (Nat.zero_le v) h2

/-- the registers of the first process -/
def firstFrame : Trapframe := Function.update (Function.update junk Trapframe.epc 0) Trapframe.sp 4096

/-- the first process -/
def Proc.first (q : Proc N) (pid : CInt) (pa : Nat) (pt : PageTable) : Proc N :=
  { q.allocated pid pa pt with
    sz := PGSIZE, trapframe := some (pa, firstFrame), name := safestrcpy q.name initname 16,
    cwd := some 0, state := .runnable }

theorem userinit_run {pages : List Nat} (hfl : ∀ pa ∈ pages, Freeable pa) {s' : KState N}
    (e : userinit ⟨Kern.zero pages, ∅, 0, []⟩ = some ((), s')) :
    ∃ p pa pt pt', ∃ fl fl' : List Nat, Space pt 0 pa none ∧
      (fl : Multiset ℕ) + ({pa} + pt.tables) = pages ∧
      (pt'.flat 0 = none ∨ ∃ l : Leaf, l.flags = PTE_W ||| PTE_R ||| PTE_X ||| PTE_U ||| PTE_V ∧
        Turns pt fl pt' fl' (update pt.flat 0 (some l)) 0 {l.pa}) ∧
      s' = ⟨((((Kern.zero pages).bump.withIref (update (fun _ => 0) 0 1)).withFree fl').upd p
        fun q => q.first 1 pa pt'), ∅, 0, []⟩ := by
  obtain ⟨r, s1, e1, e⟩ := Act.bind_some.mp e
  obtain ⟨r', L, k1, e1', hres⟩ := (allocprocScan_ends (L := ∅) (k := Kern.zero pages) (slots N)
    quiet_empty (fun _ => nofun) (fun _ _ => rfl) hfl).run (s := ⟨Kern.zero pages, ∅, 0, []⟩) rfl
  obtain ⟨rfl, rfl⟩ := Prod.mk.inj (Option.some.inj (e1.symm.trans e1'))
  rcases hres with ⟨p, pa, pt, fl, rfl, rfl, -, rfl, hs, hp⟩ | ⟨rfl, -⟩
  · obtain ⟨_, _, e2, e⟩ := Act.bind_some.mp e
    cases e2
    simp only [Kern.upd_same] at e
    change (uvmfirst pt (fun o => initcode.getD o 0) initcode.length >>= _) _ = _ at e
    obtain ⟨pt1, s2, e2, e⟩ := Act.bind_some.mp e
    have habs : pt.flat 0 = none := hs.absent (Nat.le_refl 0) (by decide)
    have hkmem : .kmem ∉ insert (.proc p) (∅ : Finset (Lock N)) := nofun
    obtain ⟨-, hstop⟩ | ⟨pt', fl', hr, hres⟩ := @uvmfirst_runs N pt
      (fun o => initcode.getD o 0) initcode.length fl (by decide) habs
    · rw [hstop _ hkmem rfl] at e2
      cases e2
    · rw [hr _ hkmem rfl] at e2
      obtain ⟨rfl, rfl⟩ := Prod.mk.inj (Option.some.inj e2)
      obtain ⟨_, s3, e3, e⟩ := Act.bind_some.mp e
      obtain ⟨ip, s4, e4, e⟩ := Act.bind_some.mp e
      obtain ⟨_, s5, e5, e⟩ := Act.bind_some.mp e
      obtain ⟨-, hs'⟩ := release_some.mp e
      refine ⟨p, pa, pt, pt', fl, fl', hs, hp, hres, ?_⟩
      cases e3
      cases e4
      cases e5
      rw [hs']
      have hk : ∀ (k : Kern N) (f g h : Proc N → Proc N),
          ((k.upd p f).upd p g).upd p h = k.upd p fun q => h (g (f q)) := fun k f g h => by
        rw [upd_upd, upd_upd]
      have hk' := hk (((Kern.zero pages).bump.withIref (update (fun _ => 0) 0 1)).withFree fl')
        (fun q => q.allocated 1 pa pt) (fun q => { q with
          pagetable := some pt', sz := PGSIZE, trapframe := some (pa, firstFrame),
          name := safestrcpy q.name initname 16 }) fun q => { q with cwd := some 0, state := .runnable }
      have hheld : (insert (.proc p) (∅ : Finset (Lock N))).erase (.proc p) = ∅ :=
        Finset.erase_insert (Finset.notMem_empty _)
      have hcard : (insert (.proc p) (∅ : Finset (Lock N))).card - 1 = 0 := by
        rw [Finset.card_insert_of_notMem (Finset.notMem_empty _)]
        rfl
      exact KState.mk.injEq .. ▸ ⟨hk', hheld, hcard, rfl⟩
  · cases e

/-- **the first process is ready** if there was memory for its page -/
theorem userinit_ready {pages : List Nat} (hfl : ∀ pa ∈ pages, Freeable pa) {s' : KState N}
    (e : userinit ⟨Kern.zero pages, ∅, 0, []⟩ = some ((), s'))
    (hpage : ∀ p pt, (s'.k.proc p).pagetable = some pt → pt.flat 0 ≠ none) :
    ∃ p, (s'.k.proc p).state = .runnable ∧ s'.Ready p ∧ s'.k.owned = pages := by
  obtain ⟨p, pa, pt, pt', fl, fl', hs, hp, hres, rfl⟩ := userinit_run hfl e
  rcases hres with hres | ⟨l, hl, ht⟩
  · exact absurd hres (hpage p pt' (by rw [Kern.upd_same]; rfl))
  · have hsp := hs.first hl ht
    have hnp : npages PGSIZE = 1 := by decide
    have hzero : ((Kern.zero pages).bump.withIref (update (fun _ => 0) 0 1) : Kern N).Fit :=
      (Kern.zero_fit hfl).congr rfl rfl
    have husers : pt'.users 0 1 = {l.pa} := by
      unfold PageTable.users
      rw [rangeSum_one, ht.flat 0 (by decide), update_self]
      rfl
    have hpages : ((Proc.zero : Proc N).first 1 pa pt').pages = {pa} + (pt'.tables + {l.pa}) := by
      rw [← husers, ← hnp]
      rfl
    have hbal : (fl' : Multiset ℕ) + ((Proc.zero : Proc N).first 1 pa pt').pages = pages + 0 := by
      have := ht.pages
      rw [hpages, ← hp, add_zero, add_left_comm, ← add_assoc (fl' : Multiset ℕ), this]
      abel
    have hfit := @Kern.Fit.turn _ _ hzero p (fun q => q.first 1 pa pt') fl' ?_ ?_ hbal
    refine ⟨p, by rw [Kern.upd_same]; rfl, ⟨hfit, ?_, ⟨pt', firstFrame, 0, ?_⟩, rfl, rfl⟩, ?_⟩
    · rw [Kern.upd_same]
      nofun
    · rw [Kern.upd_same]
      refine ⟨rfl, ⟨pa, rfl⟩, rfl, ⟨pa, none, ?_⟩, fun fd _ f hf => by cases hf⟩
      show Space pt' (npages PGSIZE) pa none
      rw [hnp]
      exact hsp
    · refine (Kern.owned_upd _ p _ fl' hbal).trans ((Kern.owned_congr rfl rfl).trans ?_)
      exact Kern.zero_owned pages
    · intro pt'' hpt''
      cases hpt''
      refine ⟨pa, none, ?_⟩
      show Space pt' (npages PGSIZE) pa none
      rw [hnp]
      exact hsp
    · nofun

theorem Kern.Fit.keep {k : Kern N} (h : k.Fit) {j : Slot N} {f : Proc N → Proc N}
    (hm : ∀ q, (f q).trapframe = q.trapframe ∧ (f q).pagetable = q.pagetable ∧ (f q).sz = q.sz)
    (hu : (f (k.proc j)).state = .unused → (k.proc j).state = .unused) :
    (k.upd j f).Fit ∧ (k.upd j f).owned = k.owned := by
  obtain ⟨h1, h2, h3⟩ := hm (k.proc j)
  have hpages : (f (k.proc j)).pages = (k.proc j).pages := by
    unfold Proc.pages
    rw [h1, h2, h3]
  have hbal : (k.freelist : Multiset ℕ) + (f (k.proc j)).pages = k.freelist + (k.proc j).pages := by
    rw [hpages]
  refine ⟨h.turn (fun pt hpt => ?_) (fun hs => ?_) hbal, Kern.owned_upd k j f k.freelist hbal⟩
  · rw [h3]
    exact h.fits j pt (h2 ▸ hpt)
  · rw [h1, h2, h3]
    exact h.unused j (hu hs)

theorem KState.Ready.running {s : KState N} {p : Slot N} (h : s.Ready p) :
    ({ s with k := s.k.upd p fun q => { q with state := .running } } : KState N).Ready p ∧
      (s.k.upd p fun q => { q with state := .running }).owned = s.k.owned := by
  obtain ⟨pt, tf, ip, hpar⟩ := h.parent
  obtain ⟨hfit, howned⟩ := h.fit.keep (j := p) (f := fun q => { q with state := .running })
    (fun _ => ⟨rfl, rfl, rfl⟩) nofun
  refine ⟨⟨hfit, ?_, ⟨pt, tf, ip, ?_⟩, h.held, h.noff⟩, howned⟩
  · rw [Kern.upd_same]
    nofun
  · rw [Kern.upd_same]
    exact ⟨hpar.pagetable, hpar.trapframe, hpar.cwd, hpar.space, hpar.refs⟩

theorem userinit_running {pages : List ℕ} {z : Slot N} (hfl : ∀ pa ∈ pages, Freeable pa) {s' : KState N}
    (e : userinit ⟨Kern.zero pages, ∅, 0, []⟩ = some ((), s'))
    (hpage : ∀ j pt, ((s'.k.upd z fun q => { q with state := .running }).proc j).pagetable = some pt →
      pt.flat 0 ≠ none)
    (hone : ∀ j, j ≠ z → ((s'.k.upd z fun q => { q with state := .running }).proc j).state = .unused) :
    ({ s' with k := s'.k.upd z fun q => { q with state := .running } } : KState N).Ready z ∧
      (s'.k.upd z fun q => { q with state := .running }).owned = pages := by
  have hpt : ∀ j, ((s'.k.upd z fun q => { q with state := .running }).proc j).pagetable =
      (s'.k.proc j).pagetable := fun j => by
    by_cases hj : j = z
    · rw [hj, Kern.upd_same]
    · rw [Kern.upd_ne _ _ hj]
  obtain ⟨p, hst, hr, howned⟩ := userinit_ready hfl e fun j pt h => hpage j pt ((hpt j).trans h)
  have hp : p = z := by
    by_contra hne
    have := hone p hne
    rw [Kern.upd_ne _ _ hne, hst] at this
    cases this
  subst hp
  obtain ⟨h1, h2⟩ := hr.running
  exact ⟨h1, h2.trans howned⟩

theorem sample_pages {m : ℕ} (hm : ∀ i < m, Freeable (0x80100000 + 4096 * i)) :
    ∀ pa ∈ (List.range m).map (fun i => 0x80100000 + 4096 * i), Freeable pa := by
  intro pa hpa
  obtain ⟨i, hi, rfl⟩ := List.mem_map.mp hpa
  exact hm i (List.mem_range.mp hi)

theorem sample_ready {m : Nat} (hm : ∀ i < m + 7, Freeable (0x80100000 + 4096 * i)) {s : KState 3}
    (hs : sample m = some s)
    (hpage : ∀ j pt, (s.k.proc j).pagetable = some pt → pt.flat 0 ≠ none)
    (hone : ∀ j, j ≠ 0 → (s.k.proc j).state = .unused) : s.Ready 0 := by
  obtain ⟨⟨_, s'⟩, e, hs⟩ := Option.bind_eq_some_iff.mp hs
  cases hs
  exact (userinit_running (sample_pages hm) e hpage hone).1

end Xv6
