import Xv6.Exec.Load
import Xv6.Exec.Stack

/-!
# What `exec` does

* `Sys.Ready`   process `p` may call `exec`: it has its memory, the pages are distinct, and no other
  call is on its way;
* `Loaded`   the memory that the program headers of a file ask for;
* `Staged`   that memory with a guard page and a stack;
* `execImage_spec`, `execArgs_spec`   **`exec` ends, for every file, every argument and every free list**;
* `exec_spec`   the two ways in which it ends.
-/

namespace Xv6

open FileSys

section
variable {N K M : ℕ} {s : Sys N K M} {fl : List ℕ} {o : ℤ} {sb : FsSuper} {p : Slot N} {ip : Fin K}
  {g : Ghost (Slot N) K M} {own : Multiset ℕ} {tf sz : ℕ} {guard : Option ℕ} {pt : PageTable}
  {f0 f : Fsys (Slot N) K M}

/-! ## The file -/

/-- the inode of the program is locked, with a reference of its own -/
structure Opened (sb : FsSuper) (p : Slot N) (f0 : Fsys (Slot N) K M) (ip : Fin K)
    (g : Ghost (Slot N) K M) : Prop where
  walk : Walk sb p f0 ((Fsys.ghost sb f0).hands p) (some ip) (((Fsys.ghost sb f0).hands p).inc ip) g
  clean : Clean sb p ip g
  fine : Sound sb f0 → Lasting sb f0 (g.inum ip)

/-- the file had no name and is freed, and the log has no room for it -/
def Bursting (sb : FsSuper) (f0 : Fsys (Slot N) K M) (m : SysPanic) : Prop :=
  ∃ e, m = .fs e ∧ Walk.Bursts sb f0 e

theorem Opened.close (hok : sb.Ok) (h : Opened sb p f0 ip g) :
    (iunlockput sb p ip).Outcome g.s (fun _ f => Refers sb f0 none f) (Walk.Bursts sb f0) := by
  have hpos := h.walk.inv.table.locked_ref h.clean.lock
  have hlt : ((Fsys.ghost sb f0).hands p).ref ip < (((Fsys.ghost sb f0).hands p).inc ip).ref ip := by
    rw [Hands.inc_ref, if_pos rfl]
    omega
  refine (h.walk.iunlockput hok h.clean hlt fun hs =>
    h.walk.fine_of_lasting hpos (h.fine hs)).mono ?_ fun _ h => h
  rintro _ _ ⟨g', rfl, hw, -⟩
  rw [Hands.inc_dec] at hw
  exact Walk.Arrived.refers (t := none) (r := none) ⟨g', rfl, hw, rfl, nofun⟩

/-- the bytes that are read are those of the file when the call began -/
theorem Opened.bytes (h : Opened sb p f0 ip g) :
    (g.d ip).size = (sb.dinode f0.blk (g.inum ip)).size ∧
      ∀ i < (g.d ip).size.toNat, g.byte ip i = (sb.dinode f0.blk (g.inum ip)).content f0.blk i := by
  have hd : g.d ip = sb.dinode g.s.blk (g.inum ip) := h.clean.disk
  have hs := h.walk.older (g.inum ip) h.clean.node.lt (by rw [← hd]; exact h.clean.type)
  refine ⟨by rw [hd, hs.1], fun i hi => ?_⟩
  rw [hd, hs.1] at hi
  rw [← hs.2 i hi, ← hd]

/-! ## `bad` -/

theorem execBad_mem (hm : Memory own) (hk : .kmem ∉ s.kern.held) (hb : Building own tf guard pt sz fl) :
    (execBad sb p (some pt) sz (none : Option (Fin K))).Yields (s.mid fl f o) fun _ s' =>
      ∃ fl' : List ℕ, (fl' : Multiset ℕ) = own ∧ s' = s.mid fl' f o := by
  obtain ⟨fl', hr, he⟩ := procFreepagetable_frees (N := N) hb.space
    (fun pa hpa => hm.free pa (hb.mem_tables hpa)) (fun pa hpa => hm.free pa (hb.mem_users hpa)) fl
  refine (onKern_mem hr hk).bind ?_
  rintro _ _ ⟨-, rfl⟩
  exact .pure ⟨fl', by rw [he, hb.pages], rfl⟩

theorem execBad_inode (hok : sb.Ok) (h : Opened sb p f0 ip g) :
    (execBad sb p none 0 (some ip)).Outcome (s.mid fl g.s o) (fun _ s' =>
      ∃ f, Refers sb f0 none f ∧ s' = s.mid fl f (o - 1)) (Bursting sb f0) := by
  refine (onFs_outcome (h.close hok)).bind ?_
  rintro _ _ ⟨f, rfl, hf⟩
  exact .of_yields (.modify ⟨f, hf, rfl⟩)

theorem execBad_both (hok : sb.Ok) (hm : Memory own) (hk : .kmem ∉ s.kern.held)
    (h : Opened sb p f0 ip g) (hb : Building own tf guard pt sz fl) :
    (execBad sb p (some pt) sz (some ip)).Outcome (s.mid fl g.s o) (fun _ s' => ∃ fl' : List ℕ, ∃ f,
      (fl' : Multiset ℕ) = own ∧ Refers sb f0 none f ∧ s' = s.mid fl' f (o - 1)) (Bursting sb f0) := by
  obtain ⟨fl', hr, he⟩ := procFreepagetable_frees (N := N) hb.space
    (fun pa hpa => hm.free pa (hb.mem_tables hpa)) (fun pa hpa => hm.free pa (hb.mem_users hpa)) fl
  refine .bind (.of_yields (onKern_mem hr hk)) ?_
  rintro _ _ ⟨-, rfl⟩
  refine (onFs_outcome (h.close hok)).bind ?_
  rintro _ _ ⟨f, rfl, hf⟩
  exact .of_yields (.modify ⟨fl', f, by rw [he, hb.pages], hf, rfl⟩)

/-! ## The segments -/

/-- the header of a file -/
def Elfhdr.of (c : ℕ → Byte) : Elfhdr := Elfhdr.load ((List.range Elfhdr.bytes).map c)

/-- the segments of a file, as `exec` reads them -/
def segments (c : ℕ → Byte) : List Proghdr :=
  loads (headers c (Elfhdr.of c).phnum ((Elfhdr.of c).phoff % 2 ^ 32))

/-- the memory holds the segments of the file, one after the other -/
structure Loaded (c : ℕ → Byte) (m : UMem) : Prop where
  magic : (Elfhdr.of c).magic = ELF_MAGIC
  checked : ∀ ph ∈ segments c, ph.Checked
  mem : ∃ m0 : UMem, m0.sz = 0 ∧ m = (segments c).foldl (UMem.segment c) m0

/-- **the file is read**: a table with its segments, or nothing is kept -/
theorem execSegments_spec (hok : sb.Ok) (hk : .kmem ∉ s.kern.held) (hm : Memory (fl : Multiset ℕ))
    (h : Opened sb p f0 ip g) :
    (execSegments sb p ip).Outcome (s.mid fl g.s o) (fun r s' => ∃ fl' : List ℕ, ∃ f,
      s' = s.mid fl' f (o - 1) ∧ Refers sb f0 none f ∧
      (r = none ∧ (fl' : Multiset ℕ) = fl ∨
        ∃ pt sz, r = some (pt, sz, (Elfhdr.of (g.byte ip)).entry) ∧
          Building (fl : Multiset ℕ) ((s.kern.k.proc p).trapframe.elim 0 Prod.fst) none pt sz fl' ∧
          Elfhdr.bytes ≤ (g.d ip).size.toNat ∧ Loaded (g.byte ip) (UMem.of pt sz)))
      (Bursting sb f0) := by
  have hi := h.walk.inv
  have hf := h.clean.full
  unfold execSegments
  refine .bind (.of_yields (readi_kernel hi hf 0 (by decide))) ?_
  rintro _ _ ⟨rfl, l, -, rfl, hsize⟩
  dsimp only
  refine .ite (fun _ => ?_) fun hgood => ?_
  · refine (execBad_inode hok h).bind ?_
    rintro _ _ ⟨f, hf, rfl⟩
    exact .pure ⟨fl, f, rfl, hf, .inl ⟨rfl, rfl⟩⟩
  rw [not_or, not_not, not_not] at hgood
  obtain ⟨hl, hmagic⟩ := hgood
  have hl : l = Elfhdr.bytes := by exact_mod_cast hl
  rw [hl] at hsize hmagic ⊢
  have helf : Elfhdr.load (g.bytes ip 0 Elfhdr.bytes) = Elfhdr.of (g.byte ip) := by
    unfold Elfhdr.of Ghost.bytes
    simp only [Nat.zero_add]
  rw [helf] at hmagic ⊢
  have hbytes := hsize rfl (by decide)
  rw [Nat.zero_add] at hbytes
  refine .bind (.of_yields (onKern_getProc p)) ?_
  rintro _ _ ⟨rfl, rfl⟩
  obtain ⟨r, fl1, hr, h1⟩ := procPagetable_runs (N := N)
    ((s.kern.k.proc p).trapframe.elim 0 Prod.fst) fl fun pa hpa => hm.free pa hpa
  refine .bind (.of_yields (onKern_mem hr hk)) ?_
  rintro _ _ ⟨rfl, rfl⟩
  rcases h1 with ⟨pt, rfl, hsp, hpages⟩ | ⟨rfl, hpages⟩
  · have hb : Building (fl : Multiset ℕ) ((s.kern.k.proc p).trapframe.elim 0 Prod.fst) none pt 0 fl1 := by
      refine ⟨hsp, ?_⟩
      have hz : pt.users 0 (npages 0) = 0 := rangeSum_zero _ _ _
      rw [hz, add_zero]
      exact hpages
    dsimp only
    refine .bind (.of_yields (loadSegments_spec hm hk hi hf _ _ hb)) ?_
    rintro ⟨pt', sz, ok⟩ _ ⟨fl2, rfl, hb2, hload⟩
    cases ok with
    | false =>
      refine (execBad_both hok hm hk h hb2).bind ?_
      rintro _ _ ⟨fl', f, he, hf, rfl⟩
      exact .pure ⟨fl', f, rfl, hf, .inl ⟨rfl, he⟩⟩
    | true =>
      obtain ⟨hchk, hmem⟩ := hload rfl
      refine (onFs_outcome (h.close hok)).bind ?_
      rintro _ _ ⟨f, rfl, hf⟩
      refine .bind (.of_yields (.modify rfl : (endOp : SysM N K M Unit).Yields _
        fun _ s' => s' = s.mid fl2 f (o - 1))) ?_
      rintro _ _ rfl
      exact .pure ⟨fl2, f, rfl, hf, .inr ⟨pt', sz, rfl, hb2, hbytes, hmagic, hchk, _, rfl, hmem⟩⟩
  · dsimp only
    refine (execBad_inode hok h).bind ?_
    rintro _ _ ⟨f, hf, rfl⟩
    exact .pure ⟨fl1, f, rfl, hf, .inl ⟨rfl, hpages⟩⟩

/-! ## The stack -/

/-- the memory `m`, with a guard page and a page for the stack above it -/
structure Staged (m : UMem) (pt : PageTable) (sz : ℕ) : Prop where
  size : sz = (npages m.sz + 2) * PGSIZE
  load : ∀ a, a / PGSIZE < npages m.sz → pt.load a = m.load a
  perm : ∀ v < npages m.sz, pt.perm v = m.perm v
  stack : pt.perm (npages m.sz + 1) = some (PTE_R ||| PTE_U ||| PTE_W ||| PTE_V)
  page : StackPage pt (sz - PGSIZE)

/-- **guard page and stack**, or all pages are given back -/
theorem execStack_spec (hk : .kmem ∉ s.kern.held) (hm : Memory own)
    (hb : Building own tf none pt sz fl) :
    (execStack sb p pt sz).Yields (s.mid fl f o) fun r s' => ∃ fl' : List ℕ, s' = s.mid fl' f o ∧
      (r = none ∧ (fl' : Multiset ℕ) = own ∨ ∃ pt' sz', r = some (pt', sz') ∧
        Building own tf (some (npages sz)) pt' sz' fl' ∧ Staged (UMem.of pt sz) pt' sz') := by
  have hcard := hb.card
  have hown := hm.card_le
  have hsz : sz ≤ 2 ^ 63 := by
    unfold npages PGSIZE at hcard
    omega
  have hP : PGSIZE = 4096 := rfl
  have hmod : (npages sz * PGSIZE + 2 * PGSIZE) % 2 ^ 64 = (npages sz + 2) * PGSIZE := by
    rw [← Nat.add_mul, hP]
    exact Nat.mod_eq_of_lt (by omega)
  have hb0 : Building own tf none pt (npages sz * PGSIZE) fl := by
    refine ⟨?_, ?_⟩
    · rw [npages_mul]
      exact hb.space
    · rw [npages_mul]
      exact hb.pages
  unfold execStack
  rw [pgroundup_eq hsz]
  dsimp only
  rw [hmod]
  obtain ⟨pt1, r, fl1, hr, h1⟩ := hb0.uvmalloc (N := N) hm ((npages sz + 2) * PGSIZE) PTE_W
  refine (onKern_mem hr hk).bind ?_
  rintro _ _ ⟨rfl, rfl⟩
  have hmax : max (npages sz * PGSIZE) ((npages sz + 2) * PGSIZE) = (npages sz + 2) * PGSIZE :=
    Nat.max_eq_right (Nat.mul_le_mul_right _ (Nat.le_add_right ..))
  rcases h1 with ⟨rfl, hb1, hload, hperm⟩ | ⟨rfl, hb1⟩
  · simp only [hmax, npages_mul] at hb1 hload hperm ⊢
    rw [if_neg (by omega)]
    have hv : npages sz < npages ((npages sz + 2) * PGSIZE) := by
      rw [npages_mul]
      omega
    have hva : (npages sz + 2) * PGSIZE - 2 * PGSIZE = npages sz * PGSIZE := by omega
    obtain ⟨pt2, hr2, hb2, hload2, hperm2⟩ := hb1.uvmclear (N := N) hm hv
    rw [hva]
    refine (onKern_mem hr2 hk).bind ?_
    rintro pt2 _ ⟨rfl, rfl⟩
    refine .pure ⟨fl1, rfl, .inr ⟨_, _, rfl, hb2, rfl, fun a ha => ?_, fun v hv => ?_, ?_, fun a h1 h2 => ?_⟩⟩
    · have ha : a / PGSIZE < npages sz := ha
      rw [hload2 a (by omega), hload a, if_neg (by omega)]
      rfl
    · have hv : v < npages sz := hv
      rw [hperm2 v (by omega), hperm v, if_neg (by omega)]
      rfl
    · show pt2.perm (npages sz + 1) = _
      rw [hperm2 _ (by omega), hperm, if_pos (by omega)]
    · rw [hP] at h1 h2
      refine PageTable.load_isSome.2 (hb2.userPage hm ?_ fun e => ?_)
      · rw [npages_mul, hP]
        omega
      · have := Option.some.inj e
        rw [hP] at this
        omega
  · rw [if_pos rfl]
    refine (execBad_mem hm hk hb1).bind ?_
    rintro _ _ ⟨fl', he, rfl⟩
    exact .pure ⟨fl', rfl, .inl ⟨rfl, he⟩⟩

/-! ## The arguments -/

/-- process `p` may call `exec` -/
structure Sys.Ready (sb : FsSuper) (p : Slot N) (s : Sys N K M) : Prop where
  kern : s.kern.Ready p
  mem : Memory s.kern.k.owned
  fs : AtRest sb s.fs

namespace Sys.Ready

theorem kmem (h : s.Ready sb p) : .kmem ∉ s.kern.held := by
  rw [h.kern.held]
  exact Finset.notMem_empty _

theorem freelist (h : s.Ready sb p) : Memory (s.kern.k.freelist : Multiset ℕ) := by
  have hle : (s.kern.k.freelist : Multiset ℕ) ≤ s.kern.k.owned := Multiset.le_add_right _ _
  exact ⟨Multiset.nodup_of_le hle h.mem.nodup, fun pa hpa => h.mem.free pa (Multiset.mem_of_le hle hpa)⟩

end Sys.Ready

/-- the pages of the memory of a process -/
def Proc.userPages (q : Proc N) : Multiset ℕ :=
  q.pagetable.elim 0 fun pt => pt.tables + pt.users 0 (npages q.sz)

/-- the record of `p` is changed -/
def Sys.commit (s : Sys N K M) (p : Slot N) (F : Proc N → Proc N) (fl : List ℕ)
    (f : Fsys (Slot N) K M) (o : ℤ) : Sys N K M :=
  ⟨{ s.kern with k := (s.kern.k.withFree fl).upd p F }, f, o⟩

theorem execCommit_spec (h : s.Ready sb p) (path : List Byte) (sp entry : ℕ) :
    (onKern (execCommit p path pt sz entry sp (s.kern.k.proc p).sz)).Yields (s.mid fl f o) fun _ s' =>
      ∃ fl' : List ℕ, (fl' : Multiset ℕ) = fl + (s.kern.k.proc p).userPages ∧
        s' = s.commit p (fun q => q.execed pt sz entry sp path) fl' f o := by
  obtain ⟨old, tf, ip, hpar⟩ := h.kern.parent
  have hfree := h.kern.fit.free_slot p
  obtain ⟨tf', g', hsp⟩ := h.kern.fit.fits p old hpar.pagetable
  have hpages : (s.kern.k.proc p).userPages = old.tables + old.users 0 (npages (s.kern.k.proc p).sz) := by
    unfold Proc.userPages
    rw [hpar.pagetable]
    rfl
  have hmem : ∀ pa ∈ old.tables + old.users 0 (npages (s.kern.k.proc p).sz), Freeable pa := fun pa hpa => by
    refine hfree pa (Multiset.mem_add.2 (.inr ?_))
    rw [hpar.pagetable]
    exact hpa
  obtain ⟨fl', hr, he⟩ := procFreepagetable_frees (N := N) hsp
    (fun pa hpa => hmem pa (Multiset.mem_add.2 (.inl hpa)))
    (fun pa hpa => hmem pa (Multiset.mem_add.2 (.inr hpa))) fl
  rw [← hpages] at he
  refine @Code.Yields.ofAct _ _ _ _ _ Sys.kernPart _ _ _ () (s.commit p (fun q =>
    q.execed pt sz entry sp path) fl' f o).kern _ ?_ ⟨fl', he, rfl⟩
  show execCommit p path pt sz entry sp (s.kern.k.proc p).sz (s.mid fl f o).kern = _
  unfold execCommit
  have hget : getProc p (s.mid fl f o).kern = some (s.kern.k.proc p, (s.mid fl f o).kern) := rfl
  rw [Act.bind_of hget, hpar.pagetable]
  exact hr _ h.kmem rfl

/-- **the arguments**: they are pushed and the new image is taken, or all of it is given back -/
theorem execArgs_spec (h : s.Ready sb p) (hm : Memory own) (hb : Building own tf guard pt sz fl)
    (path : List Byte) (argv : List (List Byte)) (entry : ℕ) :
    (execArgs sb p path argv entry (s.kern.k.proc p).sz pt sz).Yields (s.mid fl f o) fun r s' =>
      r = -1 ∧ (pushStack (sz - PGSIZE) pt sz argv).2 = none ∧
          (∃ fl' : List ℕ, (fl' : Multiset ℕ) = own ∧ s' = s.mid fl' f o) ∨
        ∃ pt' sp, ∃ fl' : List ℕ, r = argv.length ∧ pushStack (sz - PGSIZE) pt sz argv = (pt', some sp) ∧
          Building own tf guard pt' sz fl ∧ (fl' : Multiset ℕ) = fl + (s.kern.k.proc p).userPages ∧
          s' = s.commit p (fun q => q.execed pt' sz entry sp path) fl' f o := by
  have hb' := hb.pokes (.pushStack (sz - PGSIZE) pt sz argv)
  unfold execArgs
  cases e : pushStack (sz - PGSIZE) pt sz argv with
  | mk pt' r =>
    rw [e] at hb'
    cases r with
    | none =>
      dsimp only
      refine (execBad_mem hm h.kmem hb').bind ?_
      rintro _ _ ⟨fl', he, rfl⟩
      exact .pure (.inl ⟨rfl, rfl, fl', he, rfl⟩)
    | some sp =>
      dsimp only
      refine (execCommit_spec h path sp entry).bind ?_
      rintro _ _ ⟨fl', he, rfl⟩
      exact .pure (.inr ⟨pt', sp, fl', rfl, rfl, hb', he, rfl⟩)

/-! ## `exec` -/

/-- the file at the end of the path has the bytes `c`, as far as it goes, and a header -/
structure Program (sb : FsSuper) (f : Fsys (Slot N) K M) (p : Slot N) (path : List Byte) (i : ℕ)
    (c : ℕ → Byte) : Prop where
  inode : (pathStart f p path).bind (fun i => resolve sb f.blk i (components path)) = some i
  header : Elfhdr.bytes ≤ (sb.dinode f.blk i).size.toNat
  bytes : ∀ a < (sb.dinode f.blk i).size.toNat, c a = (sb.dinode f.blk i).content f.blk a

/-- a panic of the file system on the way to the file -/
def NoProgram (sb : FsSuper) (s : Sys N K M) (p : Slot N) (path : List Byte) (m : SysPanic) : Prop :=
  ∃ e, m = .fs e ∧ CannotWalk sb s.fs p path e

/-- the image that `exec` has built when it comes to the arguments -/
structure Prepared (sb : FsSuper) (p : Slot N) (path : List Byte) (s : Sys N K M) (pt : PageTable)
    (sz entry : ℕ) (fl : List ℕ) (i : ℕ) (c : ℕ → Byte) (m : UMem) : Prop where
  program : Program sb s.fs p path i c
  entry : entry = (Elfhdr.of c).entry
  loaded : Loaded c m
  staged : Staged m pt sz
  building : Building (s.kern.k.freelist : Multiset ℕ) ((s.kern.k.proc p).trapframe.elim 0 Prod.fst)
    (some (npages m.sz)) pt sz fl

/-- **`exec` before the arguments** -/
theorem execImage_spec (h : s.Ready sb p) (path : List Byte) :
    (execImage sb p path).Outcome s (fun r s' => ∃ fl : List ℕ, ∃ f, s' = s.mid fl f s.outstanding ∧
        Refers sb s.fs none f ∧
        (r = none ∧ (fl : Multiset ℕ) = s.kern.k.freelist ∨ ∃ pt sz entry i c m,
          r = some (pt, sz, entry, (s.kern.k.proc p).sz) ∧ Prepared sb p path s pt sz entry fl i c m))
      (NoProgram sb s p path) := by
  have hok := h.fs.image.ok
  have hm := h.freelist
  have hback : s.outstanding + 1 - 1 = s.outstanding := by omega
  refine .bind (.of_yields (.modify rfl : (beginOp : SysM N K M Unit).Yields s fun _ s' =>
    s' = s.mid s.kern.k.freelist s.fs (s.outstanding + 1))) ?_
  rintro _ _ rfl
  refine .bind ((onFs_outcome (h.fs.namei p path)).mono (fun _ _ h => h)
    fun m ⟨e, he, hw⟩ => ⟨e, he, hw.1⟩) ?_
  rintro r _ ⟨f1, rfl, ⟨name, harr⟩, -⟩
  have hrefers := harr.refers
  obtain ⟨g, rfl, hw, hinum, hlast⟩ := harr
  cases r with
  | none =>
    refine .bind (.of_yields (.modify rfl : (endOp : SysM N K M Unit).Yields _ fun _ s' =>
      s' = s.mid s.kern.k.freelist g.s (s.outstanding + 1 - 1))) ?_
    rintro _ _ rfl
    rw [hback]
    exact .pure ⟨_, g.s, rfl, hrefers, .inl ⟨rfl, rfl⟩⟩
  | some ip =>
    have hlt : 0 < (((Fsys.ghost sb s.fs).hands p).inc ip).ref ip := by
      rw [Hands.inc_ref, if_pos rfl]
      omega
    have hfine := hlast (ip, name) rfl
    refine .bind ((onFs_outcome (hw.ilock hlt fun hs => (hfine hs).1)).mono (fun _ _ h => h) ?_) ?_
    · rintro _ ⟨e, rfl, he⟩
      exact ⟨e, rfl, .inl he.1⟩
    rintro _ _ ⟨_, rfl, g1, rfl, hw1, hc1, e1⟩
    have hopen : Opened sb p s.fs ip g1 := ⟨hw1, hc1, fun hs => e1 ▸ hfine hs⟩
    refine .bind ((execSegments_spec hok h.kmem hm hopen).mono (fun _ _ h => h)
      fun m ⟨e, he, hb⟩ => ⟨e, he, .inl (.inr (.inr hb))⟩) ?_
    rintro _ _ ⟨fl1, f1, rfl, hf1, ⟨rfl, he⟩ | ⟨pt, sz, rfl, hb, hhdr, hload⟩⟩
    · rw [hback]
      exact .pure ⟨fl1, f1, rfl, hf1, .inl ⟨rfl, he⟩⟩
    · obtain ⟨hsize, hbytes⟩ := hopen.bytes
      rw [hsize] at hhdr hbytes
      have hprog : Program sb s.fs p path (g1.inum ip) (g1.byte ip) := by
        refine ⟨?_, hhdr, hbytes⟩
        have := congrArg (Option.map Prod.fst) hinum
        rw [Option.map_map, Option.map_map, Option.map_map] at this
        refine (this.trans Option.map_id').symm.trans ?_
        rw [e1]
        rfl
      dsimp only
      refine .bind (.of_yields (onKern_getProc p)) ?_
      rintro _ _ ⟨rfl, rfl⟩
      refine .bind (.of_yields (execStack_spec h.kmem hm hb)) ?_
      rintro _ _ ⟨fl2, rfl, ⟨rfl, he⟩ | ⟨pt', sz', rfl, hb', hst⟩⟩
      · rw [hback]
        exact .pure ⟨fl2, f1, rfl, hf1, .inl ⟨rfl, he⟩⟩
      · rw [hback]
        exact .pure ⟨fl2, f1, rfl, hf1, .inr ⟨pt', sz', _, _, _, _, rfl, hprog, rfl, hload, hst, hb'⟩⟩

/-- `exec` has failed: only the order of the free list may differ, and the file may be gone if it had no
name -/
structure ExecFailed (sb : FsSuper) (s s' : Sys N K M) : Prop where
  state : ∃ fl : List ℕ, (fl : Multiset ℕ) = s.kern.k.freelist ∧
    s' = s.mid fl s'.fs s.outstanding
  refers : Refers sb s.fs none s'.fs

/-- `exec` has succeeded: `p` has the image `pt` -/
structure ExecDone (sb : FsSuper) (p : Slot N) (path : List Byte) (argv : List (List Byte))
    (s s' : Sys N K M) (pt0 pt : PageTable) (sz sp : ℕ) (fl : List ℕ) (i : ℕ) (c : ℕ → Byte)
    (m : UMem) : Prop where
  prepared : Prepared sb p path s pt0 sz (Elfhdr.of c).entry fl i c m
  pushed : pushStack (sz - PGSIZE) pt0 sz argv = (pt, some sp)
  building : Building (s.kern.k.freelist : Multiset ℕ) ((s.kern.k.proc p).trapframe.elim 0 Prod.fst)
    (some (npages m.sz)) pt sz fl
  state : ∃ fl' : List ℕ, (fl' : Multiset ℕ) = fl + (s.kern.k.proc p).userPages ∧
    s' = s.commit p (fun q => q.execed pt sz (Elfhdr.of c).entry sp path) fl' s'.fs s.outstanding
  refers : Refers sb s.fs none s'.fs

/-- **`exec`** fails and leaves no trace, or the process has the new image -/
theorem exec_spec (h : s.Ready sb p) (path : List Byte) (argv : List (List Byte)) :
    (Sys.exec sb p path argv).Outcome s (fun r s' => r = -1 ∧ ExecFailed sb s s' ∨
        r = argv.length ∧ ∃ pt0 pt sz sp fl i c m, ExecDone sb p path argv s s' pt0 pt sz sp fl i c m)
      (NoProgram sb s p path) := by
  refine (execImage_spec h path).bind ?_
  rintro _ _ ⟨fl, f, rfl, hf, ⟨rfl, he⟩ | ⟨pt, sz, entry, i, c, m, rfl, hp⟩⟩
  · exact .pure (.inl ⟨rfl, ⟨fl, he, rfl⟩, hf⟩)
  · have hent := hp.entry
    rw [hent] at hp ⊢
    refine .of_yields ((execArgs_spec h h.freelist hp.building path argv _).mono ?_)
    rintro r _ (⟨rfl, -, fl', he, rfl⟩ | ⟨pt', sp, fl', rfl, hpush, hb, he, rfl⟩)
    · exact .inl ⟨rfl, ⟨fl', he, rfl⟩, hf⟩
    · exact .inr ⟨rfl, pt, pt', sz, sp, fl, i, c, m, hp, hpush, hb, ⟨fl', he, rfl⟩, hf⟩

end
end Xv6
