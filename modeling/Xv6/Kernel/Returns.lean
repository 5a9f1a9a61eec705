import Xv6.Kernel.Space
import Xv6.Kernel.Spec

/-!
# The routines of `proc.c` return

`Returns L k x a L' k'`: run by a CPU that holds the locks `L`, on the tables `k`, the routine `x`
returns `a`, holding `L'` and leaving `k'`.  So `x` neither panics nor waits.

* `Proc.pages`, `Proc.Fits`   the pages of a process, and that its page table fits its size;
* `freeproc_ends`, `allocprocScan_ends`, `copyChild_ends`   the pieces of `fork` and `forkn`, for
  every free list: they return, and each page goes from the free list to the slot or back.
-/

namespace Xv6
open Function (update)
variable {N : ℕ} {α β : Type}

def Returns (L : Finset (Lock N)) (k : Kern N) (x : KM N α) (a : α) (L' : Finset (Lock N))
    (k' : Kern N) : Prop :=
  ∀ env, x ⟨k, L, L.card, env⟩ = some (a, ⟨k', L', L'.card, env⟩)

/-- the tables with another free list -/
def Kern.withFree (k : Kern N) (fl : List Nat) : Kern N := { k with freelist := fl }

/-- the tables with other reference counts of files -/
def Kern.withFref (k : Kern N) (r : Nat → Nat) : Kern N := { k with fref := r }

/-- the tables with other reference counts of inodes -/
def Kern.withIref (k : Kern N) (r : Nat → Nat) : Kern N := { k with iref := r }

@[simp] theorem Kern.upd_withFref (k : Kern N) (j : Slot N) (f : Proc N → Proc N) (r : Nat → Nat) :
    (k.upd j f).withFref r = (k.withFref r).upd j f := rfl
@[simp] theorem Kern.withFref_withFref (k : Kern N) (r r' : Nat → Nat) :
    (k.withFref r).withFref r' = k.withFref r' := rfl
@[simp] theorem Kern.upd_withIref (k : Kern N) (j : Slot N) (f : Proc N → Proc N) (r : Nat → Nat) :
    (k.upd j f).withIref r = (k.withIref r).upd j f := rfl
@[simp] theorem Kern.withFree_proc (k : Kern N) (fl : List Nat) : (k.withFree fl).proc = k.proc := rfl
@[simp] theorem Kern.withFree_freelist (k : Kern N) (fl : List Nat) :
    (k.withFree fl).freelist = fl := rfl
@[simp] theorem Kern.upd_freelist (k : Kern N) (j : Slot N) (f : Proc N → Proc N) :
    (k.upd j f).freelist = k.freelist := rfl
@[simp] theorem Kern.upd_withFree (k : Kern N) (j : Slot N) (f : Proc N → Proc N) (fl : List Nat) :
    (k.upd j f).withFree fl = (k.withFree fl).upd j f := rfl
@[simp] theorem Kern.withFree_withFree (k : Kern N) (fl fl' : List Nat) :
    (k.withFree fl).withFree fl' = k.withFree fl' := rfl

theorem Returns.seq {L L' L'' : Finset (Lock N)} {k k' k'' : Kern N} {a : α} {b : β} {x : KM N α}
    {f : α → KM N β} (hx : Returns L k x a L' k') (hf : Returns L' k' (f a) b L'' k'') :
    Returns L k (x >>= f) b L'' k'' := by
  intro env
  rw [Act.bind_of (hx env)]
  exact hf env

/-- `x` returns, with a result for which `Q` holds -/
def Ends (L : Finset (Lock N)) (k : Kern N) (x : KM N α)
    (Q : α → Finset (Lock N) → Kern N → Prop) : Prop :=
  ∃ a L' k', Returns L k x a L' k' ∧ Q a L' k'

namespace Ends
variable {L : Finset (Lock N)} {k : Kern N} {Q : β → Finset (Lock N) → Kern N → Prop}

theorem pure {b : β} (h : Q b L k) : Ends L k (Pure.pure b) Q := ⟨b, L, k, fun _ => rfl, h⟩

theorem next {x : KM N α} {f : α → KM N β} {a : α} {L' : Finset (Lock N)} {k' : Kern N}
    (hx : Returns L k x a L' k') (hf : Ends L' k' (f a) Q) : Ends L k (x >>= f) Q := by
  obtain ⟨b, L'', k'', hr', hq⟩ := hf
  exact ⟨b, L'', k'', hx.seq hr', hq⟩

theorem bind {x : KM N α} {f : α → KM N β} {P : α → Finset (Lock N) → Kern N → Prop}
    (hx : Ends L k x P) (hf : ∀ a L' k', P a L' k' → Ends L' k' (f a) Q) : Ends L k (x >>= f) Q := by
  obtain ⟨a, L', k', hr, hp⟩ := hx
  exact next hr (hf a L' k' hp)

theorem mono {x : KM N β} {P : β → Finset (Lock N) → Kern N → Prop} (h : Ends L k x P)
    (hq : ∀ b L' k', P b L' k' → Q b L' k') : Ends L k x Q := by
  obtain ⟨b, L', k', hr, hp⟩ := h
  exact ⟨b, L', k', hr, hq b L' k' hp⟩

theorem acquire {l : Lock N} {f : Unit → KM N β} (h : l ∉ L) (hf : Ends (insert l L) k (f ()) Q) :
    Ends L k (Xv6.acquire l >>= f) Q := by
  refine next (fun env => ?_) hf
  rw [acquire_run h, KState.lock, Finset.card_insert_of_notMem h]

theorem release {l : Lock N} {f : Unit → KM N β} (h : l ∈ L) (hf : Ends (L.erase l) k (f ()) Q) :
    Ends L k (Xv6.release l >>= f) Q := by
  refine next (fun env => ?_) hf
  refine release_some.mpr ⟨⟨h, Finset.card_pos.mpr ⟨l, h⟩⟩, ?_⟩
  rw [Finset.card_erase_of_mem h]

theorem unlock {l : Lock N} {f : Unit → KM N β} (h : l ∉ L) (hf : Ends L k (f ()) Q) :
    Ends (insert l L) k (Xv6.release l >>= f) Q := by
  refine release (Finset.mem_insert_self l L) ?_
  rw [Finset.erase_insert h]
  exact hf

theorem getProc {j : Slot N} {f : Proc N → KM N β} (hf : Ends L k (f (k.proc j)) Q) :
    Ends L k (Xv6.getProc j >>= f) Q := next (fun _ => rfl) hf

theorem setProc {j : Slot N} {g : Proc N → Proc N} {f : Unit → KM N β}
    (hf : Ends L (k.upd j g) (f ()) Q) : Ends L k (Xv6.setProc j g >>= f) Q := next (fun _ => rfl) hf

theorem setKern {g : Kern N → Kern N} {f : Unit → KM N β} (hf : Ends L (g k) (f ()) Q) :
    Ends L k (Xv6.setKern g >>= f) Q := next (fun _ => rfl) hf

theorem mem {x : KM N α} {f : α → KM N β} {a : α} {fl : List Nat} (h : MemRuns x k.freelist a fl)
    (hL : .kmem ∉ L) (hf : Ends L (k.withFree fl) (f a) Q) : Ends L k (x >>= f) Q :=
  next (fun _ => h _ hL rfl) hf

theorem last {x : KM N Unit} {Q : Unit → Finset (Lock N) → Kern N → Prop}
    (h : Ends L k (x >>= fun _ => Pure.pure ()) Q) : Ends L k x Q := by
  rwa [← Act.then_nothing] at h

end Ends

/-! ## the pages of a process -/

/-- the page of the trapframe, the tables, and the pages of the first `sz` bytes -/
def Proc.pages (q : Proc N) : Multiset ℕ :=
  q.trapframe.elim 0 (fun t => {t.1}) +
    q.pagetable.elim 0 fun pt => pt.tables + pt.users 0 (npages q.sz)

/-- the page table, if there is one, maps the memory of a process of this size -/
def Proc.Fits (q : Proc N) : Prop :=
  ∀ pt, q.pagetable = some pt → ∃ tf g, Space pt (npages q.sz) tf g

theorem Proc.pages_freed (q : Proc N) : q.freed.pages = 0 := rfl

theorem freeTrapframe_frees {t : Option (Nat × Trapframe)}
    (h : ∀ pa ∈ t.elim (0 : Multiset ℕ) fun t => {t.1}, Freeable pa) :
    Frees (freeTrapframe t : KM N Unit) (t.elim 0 fun t => {t.1}) := by
  cases t with
  | none => exact Frees.nothing
  | some t => exact kfree_frees (h t.1 (Multiset.mem_singleton_self _))

theorem freeUserMem_frees {q : Proc N} (hfits : q.Fits)
    (h : ∀ pa ∈ q.pagetable.elim (0 : Multiset ℕ) fun pt => pt.tables + pt.users 0 (npages q.sz),
      Freeable pa) :
    Frees (freeUserMem q.pagetable q.sz : KM N Unit)
      (q.pagetable.elim 0 fun pt => pt.tables + pt.users 0 (npages q.sz)) := by
  cases hpt : q.pagetable with
  | none => exact Frees.nothing
  | some pt =>
    rw [hpt] at h
    obtain ⟨tf, g, hs⟩ := hfits pt hpt
    exact procFreepagetable_frees hs (fun pa hpa => h pa (Multiset.mem_add.mpr (Or.inl hpa)))
      fun pa hpa => h pa (Multiset.mem_add.mpr (Or.inr hpa))

/-- **`freeproc`** gives all pages of the slot back -/
theorem freeproc_ends {L : Finset (Lock N)} {k : Kern N} {j : Slot N} (hL : .kmem ∉ L)
    (hfits : (k.proc j).Fits) (hfree : ∀ pa ∈ (k.proc j).pages, Freeable pa) :
    Ends L k (freeproc j) fun _ L' k' => L' = L ∧ ∃ fl, k' = (k.withFree fl).upd j Proc.freed ∧
      (fl : Multiset ℕ) = k.freelist + (k.proc j).pages := by
  obtain ⟨fl1, hr1, h1⟩ := freeTrapframe_frees (N := N) (t := (k.proc j).trapframe)
    (fun pa hpa => hfree pa (Multiset.mem_add.mpr (Or.inl hpa))) k.freelist
  obtain ⟨fl2, hr2, h2⟩ := freeUserMem_frees hfits
    (fun pa hpa => hfree pa (Multiset.mem_add.mpr (Or.inr hpa))) fl1
  apply Ends.getProc
  apply Ends.mem hr1 hL
  apply Ends.mem hr2 hL
  apply Ends.last
  apply Ends.setProc
  refine Ends.pure ⟨rfl, fl2, rfl, ?_⟩
  rw [h2, h1, add_assoc]
  rfl

/-! ## `allocproc` -/

/-- the tables after `allocpid` -/
def Kern.bump (k : Kern N) : Kern N := { k with nextpid := k.nextpid + 1 }

@[simp] theorem Kern.bump_proc (k : Kern N) : k.bump.proc = k.proc := rfl
@[simp] theorem Kern.bump_freelist (k : Kern N) : k.bump.freelist = k.freelist := rfl

theorem allocpid_returns {L : Finset (Lock N)} (hL : .pid ∉ L) (k : Kern N) :
    Returns L k allocpid k.nextpid L k.bump := by
  have h : Ends L k allocpid fun a L' k' => a = k.nextpid ∧ L' = L ∧ k' = k.bump := by
    apply Ends.acquire hL
    apply Ends.next (a := k.nextpid) fun _ => rfl
    apply Ends.setKern
    apply Ends.unlock hL
    exact Ends.pure ⟨rfl, rfl, rfl⟩
  obtain ⟨_, _, _, hr, rfl, rfl, rfl⟩ := h
  exact hr

/-- **`allocproc` from `found:` on**: the slot gets a trapframe and an empty page table, or is cleared
with all pages given back -/
theorem allocprocFound_ends {L : Finset (Lock N)} {k : Kern N} {j : Slot N} (hm : .kmem ∉ L)
    (hp : .pid ∉ L) (hq : (k.proc j).pagetable = none)
    (hfl : ∀ pa ∈ k.freelist, Freeable pa) :
    Ends L k (allocprocFound j) fun ok L' k' => L' = L ∧
      ((ok = true ∧ ∃ pa pt fl,
          k' = (k.bump.withFree fl).upd j (fun q => q.allocated k.nextpid pa pt) ∧
          Space pt 0 pa none ∧ (fl : Multiset ℕ) + ({pa} + pt.tables) = k.freelist) ∨
        (ok = false ∧ ∃ fl, k' = (k.bump.withFree fl).upd j Proc.freed ∧
          (fl : Multiset ℕ) = k.freelist)) := by
  apply Ends.next (allocpid_returns hp k)
  apply Ends.setProc
  cases hk : k.freelist with
  | nil =>
    have hr : MemRuns (kalloc : KM N _) k.freelist none [] := by
      rw [hk]
      exact kalloc_runs []
    refine Ends.mem hr hm ?_
    apply Ends.setProc
    refine Ends.bind (freeproc_ends hm ?_ ?_) ?_
    · intro pt
      simp [hq]
    · intro pa
      simp [Proc.pages, hq]
    · rintro _ _ _ ⟨rfl, fl, rfl, he⟩
      refine Ends.pure ⟨rfl, Or.inr ⟨rfl, fl, ?_, ?_⟩⟩
      · simp only [Kern.upd_withFree, upd_upd]
        rfl
      · rw [he]
        simp [Proc.pages, hq]
  | cons pa fl =>
    have hr : MemRuns (kalloc : KM N _) k.freelist (some pa) fl := by
      rw [hk]
      exact kalloc_runs (pa :: fl)
    refine Ends.mem hr hm ?_
    apply Ends.setProc
    obtain ⟨r, fl', hr', h⟩ := procPagetable_runs (N := N) pa fl fun x hx => hfl x (by simp [hk, hx])
    refine Ends.mem hr' hm ?_
    have hcons : ((pa :: fl : List ℕ) : Multiset ℕ) = fl + {pa} := by
      rw [← Multiset.cons_coe, ← Multiset.singleton_add, add_comm]
    rcases h with ⟨pt, rfl, hs, he⟩ | ⟨rfl, he⟩
    · apply Ends.setProc
      refine Ends.pure ⟨rfl, Or.inl ⟨rfl, pa, pt, fl', ?_, hs, ?_⟩⟩
      · simp only [Kern.upd_withFree, upd_upd]
        rfl
      · rw [hcons, ← he]
        abel
    · apply Ends.setProc
      refine Ends.bind (freeproc_ends hm ?_ ?_) ?_
      · intro pt
        simp
      · intro x
        simp only [Proc.pages, Kern.upd_same, Option.elim_none, add_zero, Kern.withFree_proc,
          Option.elim_some, Multiset.mem_singleton]
        rintro rfl
        exact hfl _ (by simp [hk])
      · rintro _ _ _ ⟨rfl, fl2, rfl, he2⟩
        refine Ends.pure ⟨rfl, Or.inr ⟨rfl, fl2, ?_, ?_⟩⟩
        · simp only [Kern.upd_withFree, upd_upd]
          rfl
        · rw [he2, hcons]
          simp [Proc.pages, he]

/-- the locks under which a system call may start a piece of code that allocates -/
structure Quiet (L : Finset (Lock N)) : Prop where
  kmem : .kmem ∉ L
  pid : .pid ∉ L
  ftable : .ftable ∉ L
  itable : .itable ∉ L

theorem Quiet.insert_proc {L : Finset (Lock N)} (h : Quiet L) (j : Slot N) :
    Quiet (insert (.proc j) L) := by
  refine ⟨?_, ?_, ?_, ?_⟩ <;> simp [h.kmem, h.pid, h.ftable, h.itable]

/-- **`allocproc`**: a free slot with a trapframe and an empty page table, or nothing -/
theorem allocprocScan_ends {L : Finset (Lock N)} {k : Kern N} (js : List (Slot N)) (hL : Quiet L)
    (hproc : ∀ j, .proc j ∉ L)
    (hunused : ∀ j, (k.proc j).state = .unused → (k.proc j).pagetable = none)
    (hfl : ∀ pa ∈ k.freelist, Freeable pa) :
    Ends L k (allocprocScan js) fun r L' k' =>
      (∃ np pa pt fl, r = some np ∧ L' = insert (.proc np) L ∧ (k.proc np).state = .unused ∧
        k' = (k.bump.withFree fl).upd np (fun q => q.allocated k.nextpid pa pt) ∧
        Space pt 0 pa none ∧ (fl : Multiset ℕ) + ({pa} + pt.tables) = k.freelist) ∨
      (r = none ∧ L' = L ∧ (k' = k ∨ ∃ j fl, (k.proc j).state = .unused ∧
        k' = (k.bump.withFree fl).upd j Proc.freed ∧ (fl : Multiset ℕ) = k.freelist)) := by
  induction js with
  | nil => exact Ends.pure (Or.inr ⟨rfl, rfl, Or.inl rfl⟩)
  | cons j js ih =>
    apply Ends.acquire (hproc j)
    apply Ends.getProc
    by_cases hst : (k.proc j).state = .unused
    · rw [if_pos hst]
      refine Ends.bind (allocprocFound_ends (hL.insert_proc j).kmem (hL.insert_proc j).pid
        (hunused j hst) hfl) ?_
      rintro ok L' k' ⟨rfl, ⟨rfl, pa, pt, fl, hk', hs, he⟩ | ⟨rfl, fl, hk', he⟩⟩
      · exact Ends.pure (Or.inl ⟨j, pa, pt, fl, rfl, rfl, hst, hk', hs, he⟩)
      · apply Ends.unlock (hproc j)
        exact Ends.pure (Or.inr ⟨rfl, rfl, Or.inr ⟨j, fl, hst, hk', he⟩⟩)
    · rw [if_neg hst]
      apply Ends.unlock (hproc j)
      exact ih

/-! ## the child -/

/-- how many of the descriptors point to file `f` -/
def fdCount (ofile : Nat → Option Nat) (fds : List Nat) (f : Nat) : Nat :=
  fds.countP fun fd => ofile fd = some f

/-- the child's descriptors: those of the parent where it has one open -/
def dupOfile (src dst : Nat → Option Nat) (fds : List Nat) : Nat → Option Nat :=
  fun fd => if fd ∈ fds then (src fd).or (dst fd) else dst fd

theorem filedup_ends {L : Finset (Lock N)} {k : Kern N} {f : Nat} (hL : .ftable ∉ L)
    (hf : 1 ≤ k.fref f) :
    Returns L k (filedup f) () L (k.withFref (update k.fref f (k.fref f + 1))) := by
  have h : Ends L k (filedup f) fun _ L' k' => L' = L ∧
      k' = k.withFref (update k.fref f (k.fref f + 1)) := by
    apply Ends.acquire hL
    apply Ends.next (a := k.fref f) fun _ => rfl
    rw [if_neg (by omega)]
    apply Ends.setKern
    apply Ends.last
    apply Ends.unlock hL
    exact Ends.pure ⟨rfl, rfl⟩
  obtain ⟨_, _, _, hr, rfl, rfl⟩ := h
  exact hr

theorem idup_ends {L : Finset (Lock N)} (k : Kern N) (ip : Nat) (hL : .itable ∉ L) :
    Returns L k (idup ip) () L (k.withIref (update k.iref ip (k.iref ip + 1))) := by
  have h : Ends L k (idup ip) fun _ L' k' => L' = L ∧
      k' = k.withIref (update k.iref ip (k.iref ip + 1)) := by
    apply Ends.acquire hL
    apply Ends.setKern
    apply Ends.last
    apply Ends.unlock hL
    exact Ends.pure ⟨rfl, rfl⟩
  obtain ⟨_, _, _, hr, rfl, rfl⟩ := h
  exact hr

theorem fdCount_cons (ofile : Nat → Option Nat) (fd : Nat) (fds : List Nat) (f : Nat) :
    fdCount ofile (fd :: fds) f = fdCount ofile fds f + if ofile fd = some f then 1 else 0 := by
  unfold fdCount
  rw [List.countP_cons]
  simp

theorem dupOfile_nil (src dst : Nat → Option Nat) : dupOfile src dst [] = dst := by
  funext x
  simp [dupOfile]

theorem dupOfile_cons_none {src : Nat → Option Nat} {fd : Nat} (h : src fd = none)
    (dst : Nat → Option Nat) (fds : List Nat) :
    dupOfile src dst (fd :: fds) = dupOfile src dst fds := by
  funext x
  unfold dupOfile
  by_cases hx : x = fd
  · subst hx
    simp [h]
  · simp [hx]

theorem dupOfile_cons_some {src : Nat → Option Nat} {fd f : Nat} (h : src fd = some f)
    (dst : Nat → Option Nat) (fds : List Nat) :
    dupOfile src dst (fd :: fds) = dupOfile src (update dst fd (some f)) fds := by
  funext x
  unfold dupOfile
  by_cases hx : x = fd
  · subst hx
    simp [h]
  · simp [hx]

theorem Kern.upd_id (k : Kern N) (j : Slot N) : (k.upd j fun q => q) = k := by
  unfold Kern.upd
  rw [Function.update_eq_self]

theorem dupFiles_returns {L : Finset (Lock N)} (src : Nat → Option Nat) (np : Slot N)
    (fds : List Nat) (k : Kern N) (hL : .ftable ∉ L)
    (href : ∀ fd ∈ fds, ∀ f, src fd = some f → 1 ≤ k.fref f) :
    Returns L k (Act.each (dupFile src np) fds) () L
      ((k.withFref fun f => k.fref f + fdCount src fds f).upd np fun q =>
        { q with ofile := dupOfile src q.ofile fds }) := by
  induction fds generalizing k with
  | nil =>
    simp only [dupOfile_nil]
    intro env
    show _ = some ((), (⟨Kern.upd k np fun q => q, L, L.card, env⟩ : KState N))
    rw [Kern.upd_id]
    rfl
  | cons fd fds ih =>
    cases hfd : src fd with
    | none =>
      have hcount : ∀ f, fdCount src (fd :: fds) f = fdCount src fds f := by
        intro f
        rw [fdCount_cons, hfd]
        simp
      have hstep : Act.each (dupFile src np) (fd :: fds) = Act.each (dupFile src np) fds := by
        rw [Act.each_cons]
        unfold dupFile
        rw [hfd]
        rfl
      simp only [hcount, dupOfile_cons_none hfd, hstep]
      exact ih k fun fd' h' => href fd' (by simp [h'])
    | some f =>
      have hone : 1 ≤ k.fref f := href fd (by simp) f hfd
      have hfref : (fun g => update k.fref f (k.fref f + 1) g + fdCount src fds g)
          = fun g => k.fref g + fdCount src (fd :: fds) g := by
        funext g
        rw [fdCount_cons, hfd, Function.update_apply]
        by_cases hg : g = f
        · subst hg
          simp
          omega
        · rw [if_neg hg, if_neg fun e => hg (Option.some.inj e).symm]
          omega
      have hstep : Returns L k (dupFile src np fd) () L
          ((k.withFref (update k.fref f (k.fref f + 1))).upd np fun q =>
            { q with ofile := update q.ofile fd (some f) }) := by
        unfold dupFile
        rw [hfd]
        exact (filedup_ends hL hone).seq fun _ => rfl
      have hrest := ih ((k.withFref (update k.fref f (k.fref f + 1))).upd np
        fun q => { q with ofile := update q.ofile fd (some f) }) (by
          intro fd' h' g hg
          have := href fd' (by simp [h']) g hg
          show 1 ≤ update k.fref f (k.fref f + 1) g
          rw [Function.update_apply]
          split <;> omega)
      intro env
      rw [Act.each_cons, Act.bind_of (hstep env)]
      refine (hrest env).trans ?_
      simp only [dupOfile_cons_some hfd, ← hfref, Kern.upd_withFref, Kern.withFref_withFref, upd_upd]
      rfl

/-- a child with the parent's size, registers, descriptors, directory and name -/
def Proc.childOf (q pp : Proc N) (pa : Nat) (tf : Trapframe) (ip : Nat) (a0 : BitVec 64) : Proc N :=
  { q.filled pp.sz pa tf a0 with
    ofile := dupOfile pp.ofile q.ofile (List.range NOFILE), cwd := some ip,
    name := safestrcpy q.name pp.name 16 }

/-- the reference counts with those of a child of `pp` -/
def Kern.dupRefs (k : Kern N) (pp : Proc N) (ip : Nat) : Kern N :=
  (k.withFref fun f => k.fref f + fdCount pp.ofile (List.range NOFILE) f).withIref
    (Function.update k.iref ip (k.iref ip + 1))

@[simp] theorem Kern.upd_dupRefs (k : Kern N) (j : Slot N) (f : Proc N → Proc N) (pp : Proc N)
    (ip : Nat) : (k.upd j f).dupRefs pp ip = (k.dupRefs pp ip).upd j f := rfl

theorem copyRest_returns {L : Finset (Lock N)} {k : Kern N} {p np : Slot N} (a0 : BitVec 64)
    {pp : Proc N} {tf : Trapframe} {pa pa' ip : Nat} {tf' : Trapframe} (hL : Quiet L)
    (hp : k.proc p = pp) (htf : pp.trapframe = some (pa', tf))
    (hnp : (k.proc np).trapframe = some (pa, tf')) (hcwd : pp.cwd = some ip)
    (href : ∀ fd < NOFILE, ∀ f, pp.ofile fd = some f → 1 ≤ k.fref f) :
    Returns L k (copyRest p np a0) () L
      ((k.dupRefs pp ip).upd np fun q => q.childOf pp pa tf ip a0) := by
  have h : Ends L k (copyRest p np a0) fun _ L' k' =>
      L' = L ∧ k' = (k.dupRefs pp ip).upd np fun q => q.childOf pp pa tf ip a0 := by
    apply Ends.getProc
    apply Ends.getProc
    rw [hp, htf, hnp, hcwd]
    apply Ends.setProc
    refine Ends.next (dupFiles_returns pp.ofile np _ _ hL.ftable fun fd hfd f hf =>
      href fd (List.mem_range.mp hfd) f hf) ?_
    refine Ends.next (idup_ends _ ip hL.itable) ?_
    apply Ends.last
    apply Ends.setProc
    refine Ends.pure ⟨rfl, ?_⟩
    simp only [Kern.upd_withFref, Kern.upd_withIref, upd_upd]
    rfl
  obtain ⟨_, _, _, hr, rfl, rfl⟩ := h
  exact hr

/-- a process that can be copied: it has its memory, its files are open, and it is in a directory -/
structure Kern.Parent (k : Kern N) (pp : Proc N) (pt : PageTable) (tf : Trapframe) (ip : Nat) :
    Prop where
  pagetable : pp.pagetable = some pt
  trapframe : ∃ pa, pp.trapframe = some (pa, tf)
  cwd : pp.cwd = some ip
  space : ∃ tf g, Space pt (npages pp.sz) tf g
  refs : ∀ fd < NOFILE, ∀ f, pp.ofile fd = some f → 1 ≤ k.fref f

/-- **the copy of a process** into a new slot: the child is complete, or its slot is cleared and all
pages are free again -/
theorem copyChild_ends {L : Finset (Lock N)} {k : Kern N} {p np : Slot N} (a0 : BitVec 64)
    {pt new : PageTable} {tf tf' : Trapframe} {ip pa : Nat} (hL : Quiet L) (hne : p ≠ np)
    (hp : k.Parent (k.proc p) pt tf ip) (htf : (k.proc np).trapframe = some (pa, tf'))
    (hpt : (k.proc np).pagetable = some new) (hsz : (k.proc np).sz = 0) (hs : Space new 0 pa none)
    (hfl : ∀ x ∈ k.freelist, Freeable x) (hnew : ∀ x ∈ (k.proc np).pages, Freeable x) :
    Ends L k (copyChild p np a0) fun ok L' k' => L' = L ∧
      ((ok = true ∧ ∃ new' fl g, Space new' (npages (k.proc p).sz) pa g ∧
          (∀ v, v < npages (k.proc p).sz → ∃ l pa, pt.flat v = some l ∧
            new'.flat v = some (l.copied pa)) ∧
          k' = ((k.withFree fl).dupRefs (k.proc p) ip).upd np (fun q =>
            ({ q with pagetable := some new' } : Proc N).childOf (k.proc p) pa tf ip a0) ∧
          (fl : Multiset ℕ) + (k'.proc np).pages = k.freelist + (k.proc np).pages) ∨
        (ok = false ∧ ∃ fl, k' = (k.withFree fl).upd np Proc.freed ∧
          (fl : Multiset ℕ) = k.freelist + (k.proc np).pages)) := by
  obtain ⟨pa', htf0⟩ := hp.trapframe
  obtain ⟨tf0, g, hs0⟩ := hp.space
  have hpages : (k.proc np).pages = {pa} + new.tables := by
    unfold Proc.pages
    rw [htf, hpt, hsz]
    have hz : new.users 0 (npages 0) = 0 := rangeSum_zero _ _ _
    simp only [Option.elim_some, hz, add_zero]
  have htab : ∀ x ∈ new.tables, Freeable x := fun x hx =>
    hnew x (by rw [hpages]; exact Multiset.mem_add.mpr (Or.inr hx))
  apply Ends.getProc
  apply Ends.getProc
  rw [hp.pagetable, hpt]
  obtain ⟨new', ok, fl', hr, hres⟩ := uvmcopy_runs (N := N) hs0 hs k.freelist hfl htab
  refine Ends.mem hr hL.kmem ?_
  apply Ends.setProc
  rcases hres with ⟨rfl, hsp, hcopy, hpg⟩ | ⟨rfl, hsp, hpg⟩
  · -- the child has its memory
    rw [if_pos rfl]
    have hnp : (((k.withFree fl').upd np fun q => { q with pagetable := some new' }).proc np).trapframe
        = some (pa, tf') := by
      rw [Kern.upd_same]
      exact htf
    refine Ends.next (copyRest_returns a0 hL (Kern.upd_ne _ _ hne) htf0 hnp hp.cwd hp.refs) ?_
    rw [Kern.upd_dupRefs, upd_upd]
    refine Ends.pure ⟨rfl, Or.inl ⟨rfl, new', fl', g, hsp, hcopy, rfl, ?_⟩⟩
    rw [Kern.upd_same, hpages]
    show (fl' : Multiset ℕ) + ({pa} + (new'.tables + new'.users 0 (npages (k.proc p).sz))) = _
    rw [add_left_comm, hpg]
    abel
  · -- there was no memory for it
    rw [if_neg (by decide)]
    have hpages' : (((k.withFree fl').upd np fun q => { q with pagetable := some new' }).proc np).pages
        = {pa} + new'.tables := by
      rw [Kern.upd_same]
      unfold Proc.pages
      have hz : new'.users 0 (npages 0) = 0 := rangeSum_zero _ _ _
      simp only [Kern.withFree_proc, htf, hsz, Option.elim_some, hz, add_zero]
    have hall : ∀ x, x ∈ (fl' : Multiset ℕ) + new'.tables → Freeable x := by
      intro x hx
      rw [hpg] at hx
      rcases Multiset.mem_add.mp hx with h | h
      · exact hfl x h
      · exact htab x h
    refine Ends.bind (freeproc_ends hL.kmem ?_ ?_) ?_
    · intro pt' hpt'
      rw [Kern.upd_same] at hpt' ⊢
      cases hpt'
      refine ⟨pa, none, ?_⟩
      show Space new' (npages (k.proc np).sz) pa none
      rw [hsz]
      exact hsp
    · intro x hx
      rw [hpages'] at hx
      rcases Multiset.mem_add.mp hx with h | h
      · exact hnew x (by rw [hpages]; exact Multiset.mem_add.mpr (Or.inl h))
      · exact hall x (Multiset.mem_add.mpr (Or.inr h))
    · rintro _ _ _ ⟨rfl, fl, rfl, he⟩
      refine Ends.pure ⟨rfl, Or.inr ⟨rfl, fl, ?_, ?_⟩⟩
      · simp only [Kern.upd_withFree, upd_upd]
        rfl
      · rw [he, hpages', hpages]
        show (fl' : Multiset ℕ) + ({pa} + new'.tables) = _
        rw [add_left_comm, hpg]
        abel

end Xv6
