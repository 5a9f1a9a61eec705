import Xv6.Exec.Spec

/-!
# Programs, and what `exec` makes of them

* `exec_failure_atomic`   **an `exec` that fails has changed nothing**;
* `exec_never_panics`   **no file makes it panic in the memory routines**;
* `exec_arguments`   **the arguments of the new program**, and when they are too many;
* `UMem.Shows.fold`   segments that ascend are all in memory;
* `exec_loads_program`   **the memory of the new program is what its file asks for**.
-/

namespace Xv6

open FileSys

/-! ## A small system -/

/-- a program of one segment, with two bytes in the file and ten in memory -/
def smallElf : List Byte :=
  [0x7f, 0x45, 0x4c, 0x46] ++ List.replicate 20 0 ++ le64 4 ++ le64 64 ++ List.replicate 16 0 ++ [1, 0] ++
    List.replicate 6 0 ++ [1, 0, 0, 0, 5, 0, 0, 0] ++ le64 120 ++ le64 0 ++ le64 0 ++ le64 2 ++ le64 10 ++
    le64 4096 ++ [0x13, 0x37]

def smallElfCalls : List FsCall :=
  [.openAt [0x61] O_RDWR, .write 0 (fun i => smallElf[i]?) smallElf.length]

/-- the first process, in a system with `m` pages and the program in the file `a` -/
def bootSys (m : ℕ) : Option (Sys 2 3 2) := do
  let pages := (List.range m).map fun i => 0x80100000 + 4096 * i
  let (_, k) ← userinit ⟨Kern.zero pages, ∅, 0, []⟩
  let f ← Pool.runAll (callsOf smallSuper (0 : Fin 2) smallElfCalls) smallFs
  return ⟨{ k with k := k.k.upd 0 fun q => { q with state := .running } }, f, 0⟩

/-- the first process has its page, and is alone -/
def Sys.booted (s : Sys 2 3 2) : Bool :=
  (slots 2).all fun j => (s.kern.k.proc j).pagetable.all (fun pt => (pt.flat 0).isSome) &&
    (j == 0 || (s.kern.k.proc j).state == .unused)

theorem bootSys_ready {m : ℕ} {s : Sys 2 3 2} (hm : ∀ i < m, Freeable (0x80100000 + 4096 * i))
    (hs : bootSys m = some s) (hb : s.booted = true) : s.Ready smallSuper 0 := by
  obtain ⟨⟨_, k⟩, e, hs⟩ := Option.bind_eq_some_iff.mp hs
  obtain ⟨f, hf, hs⟩ := Option.bind_eq_some_iff.mp hs
  cases hs
  have hall := List.all_eq_true.1 hb
  have hslot : ∀ j : Slot 2, j ∈ slots 2 := by decide
  obtain ⟨hready, howned⟩ := userinit_running (z := 0) (sample_pages hm) e
    (fun j pt hpt hnone => by
      have := (Bool.and_eq_true_iff.1 (hall j (hslot j))).1
      dsimp only at this
      rw [hpt, Option.all_some, hnone] at this
      cases this)
    fun j hj => by
      have := (Bool.and_eq_true_iff.1 (hall j (hslot j))).2
      rw [Bool.or_eq_true, beq_iff_eq, beq_iff_eq] at this
      exact this.resolve_left hj
  have hmem : Memory ((List.range m).map (fun i => 0x80100000 + 4096 * i) : Multiset ℕ) := by
    refine ⟨Multiset.coe_nodup.2 (List.Nodup.map (fun i j hij => ?_) List.nodup_range), fun pa hpa => ?_⟩
    · omega
    · exact sample_pages hm pa (Multiset.mem_coe.1 hpa)
  rw [← howned] at hmem
  exact ⟨hready, hmem, smallFs_atRest.of_calls hf⟩

/-- the routine returns `r` -/
def SysM.returns {N K M : ℕ} (x : SysM N K M ℤ) (s : Sys N K M) (r : ℤ) : Bool :=
  match x.run s with
  | .ok a => a.1 == r
  | _ => false

theorem SysM.returns_run {N K M : ℕ} {x : SysM N K M ℤ} {s : Sys N K M} {r : ℤ}
    (h : SysM.returns x s r = true) : ∃ s', x.run s = .ok (r, s') := by
  unfold SysM.returns at h
  split at h
  · rename_i a e
    rw [beq_iff_eq] at h
    exact ⟨a.2, by rw [e, ← h]⟩
  · cases h

section
variable {N K M : ℕ} {s s' : Sys N K M} {sb : FsSuper} {p : Slot N}

/-! ## Failure -/

/-- **`exec` that fails** leaves all processes, the set of free pages, the references to inodes and the
count of operations as they were -/
theorem exec_failure_atomic (h : s.Ready sb p) (path : List Byte) (argv : List (List Byte))
    (hrun : (Sys.exec sb p path argv).run s = .ok (-1, s')) :
    s'.kern.k.proc = s.kern.k.proc ∧ s'.kern = s.kern.setFree s'.kern.k.freelist ∧
      (s'.kern.k.freelist : Multiset ℕ) = s.kern.k.freelist ∧
      (∀ k, (s'.fs.inode k).ref = (s.fs.inode k).ref ∧ s'.fs.lock k = none) ∧
      s'.outstanding = s.outstanding := by
  obtain ⟨-, ⟨fl, hfl, he⟩, hrefs⟩ | ⟨hr, -⟩ := (exec_spec h path argv).of_run hrun
  · have hkern : s'.kern = s.kern.setFree fl := congrArg Sys.kern he
    have hlist : s'.kern.k.freelist = fl := by rw [hkern]; rfl
    refine ⟨by rw [hkern]; rfl, by rw [hlist]; exact hkern, by rw [hlist]; exact hfl, fun k => ?_,
      (congrArg Sys.outstanding he).trans rfl⟩
    exact ⟨by rw [hrefs.ref k, if_neg nofun, Nat.add_zero], hrefs.lock k⟩
  · omega

theorem exec_failure_atomic_sample : ∃ s s', bootSys 13 = some s ∧ s.Ready smallSuper 0 ∧
    (Sys.exec smallSuper 0 [0x61] []).run s = .ok (-1, s') ∧ s'.kern.k.proc = s.kern.k.proc ∧
    (s'.kern.k.freelist : Multiset ℕ) = s.kern.k.freelist ∧ s'.outstanding = s.outstanding := by
  have key : (bootSys 13).any (fun s => s.booted &&
      SysM.returns (Sys.exec smallSuper 0 [0x61] []) s (-1)) = true := by decide +kernel
  obtain ⟨s, hs, key⟩ := (Option.any_eq_true _ _).1 key
  obtain ⟨hb, hret⟩ := Bool.and_eq_true_iff.1 key
  obtain ⟨s', hrun⟩ := SysM.returns_run hret
  have hready := bootSys_ready (by decide) hs hb
  obtain ⟨h1, -, h2, -, h3⟩ := exec_failure_atomic hready [0x61] [] hrun
  exact ⟨s, s', hs, hready, hrun, h1, h2, h3⟩

/-- **no file can crash `exec`**: it comes to its end, or it panics in the file system, on a path through
directories that are gone -/
theorem exec_never_panics (h : s.Ready sb p) (path : List Byte) (argv : List (List Byte)) :
    (Sys.exec sb p path argv).run s ≠ .panic .mem ∧ (Sys.exec sb p path argv).run s ≠ .panic .loadseg ∧
      (Sys.exec sb p path argv).run s ≠ .wait ∧
      ∀ e, (Sys.exec sb p path argv).run s = .panic (.fs e) → CannotWalk sb s.fs p path e := by
  have hspec := exec_spec h path argv
  unfold Code.Outcome at hspec
  cases hrun : (Sys.exec sb p path argv).run s with
  | ok r => exact ⟨nofun, nofun, nofun, nofun⟩
  | wait =>
    rw [hrun] at hspec
    exact hspec.elim
  | panic m =>
    rw [hrun] at hspec
    obtain ⟨e, rfl, he⟩ := hspec
    refine ⟨nofun, nofun, nofun, fun e' h' => ?_⟩
    cases h'
    exact he

theorem exec_never_panics_sample : ∃ s, bootSys 13 = some s ∧ s.Ready smallSuper 0 ∧
    (Sys.exec smallSuper 0 [0x61] []).run s ≠ .panic .mem ∧
    (Sys.exec smallSuper 0 [0x61] []).run s ≠ .panic .loadseg := by
  have key : (bootSys 13).any Sys.booted = true := by decide +kernel
  obtain ⟨s, hs, hb⟩ := (Option.any_eq_true _ _).1 key
  have hready := bootSys_ready (by decide) hs hb
  obtain ⟨h1, h2, -⟩ := exec_never_panics hready [0x61] []
  exact ⟨s, hs, hready, h1, h2⟩

/-! ## The arguments -/

/-- the arguments of a program that starts: the strings at `addrs`, and the array of pointers at `sp` -/
structure ArgLayout (q : Proc N) (argv : List (List Byte)) (pt : PageTable) (sp : ℕ) (addrs : List ℕ) :
    Prop where
  pagetable : q.pagetable = some pt
  regs : ∃ pa tf, q.trapframe = some (pa, tf) ∧ (tf Trapframe.sp).toNat = sp ∧
    (tf Trapframe.a1).toNat = sp
  count : addrs.length = argv.length
  array : pt.Holds sp ((addrs ++ [0]).flatMap le64)
  string : ∀ i (ha : i < addrs.length) (hs : i < argv.length), pt.Holds addrs[i] (argv[i] ++ [0])
  aligned : sp % 16 = 0 ∧ ∀ a ∈ addrs, a % 16 = 0
  disjoint : ∀ i j (_ : i < j) (ha : j < addrs.length) (hs : j < argv.length),
    addrs[j] + (argv[j].length + 1) ≤ addrs[i]
  inside : q.sz - PGSIZE ≤ sp ∧ sp + (argv.length + 1) * 8 ≤ q.sz ∧
    ∀ i (ha : i < addrs.length) (hs : i < argv.length),
      sp + (argv.length + 1) * 8 ≤ addrs[i] ∧ addrs[i] + (argv[i].length + 1) ≤ q.sz
  guard : ∀ a, q.sz - 2 * PGSIZE ≤ a → a < q.sz - PGSIZE → pt.load a = none

section
variable {path : List Byte} {argv : List (List Byte)} {pt0 pt : PageTable} {sz entry sp i : ℕ}
  {fl : List ℕ} {c : ℕ → Byte} {m : UMem}

/-- the page of the stack is at a multiple of the page size, above the first page -/
theorem Prepared.stack (h : Prepared sb p path s pt sz entry fl i c m) :
    PGSIZE ≤ sz - PGSIZE ∧ sz - PGSIZE + PGSIZE = sz ∧ sz < 2 ^ 64 ∧ sz % 16 = 0 := by
  have hsize := h.staged.size
  have hsmall := h.building.small
  rw [hsize, npages_mul] at hsmall
  rw [hsize]
  unfold PGSIZE
  omega

theorem Prepared.fits (h : Prepared sb p path s pt0 sz entry fl i c m) (hargs : argv.length < MAXARG)
    (hfit : argBytes argv ≤ PGSIZE) :
    ∃ pt addrs, pushStack (sz - PGSIZE) pt0 sz argv = (pt, some (sz - argBytes argv)) ∧
      Pushed pt sz addrs argv (sz - stringBytes argv) ∧
      pt.Holds (sz - argBytes argv) ((addrs ++ [0]).flatMap le64) ∧
      (sz - argBytes argv) % 16 = 0 ∧
      sz - argBytes argv + (argv.length + 1) * 8 ≤ sz - stringBytes argv := by
  obtain ⟨hlow, htop, hbig, h16⟩ := h.stack
  obtain ⟨pt, addrs, h1, h2, h3, h4, h5, -⟩ := pushStack_fits argv h.staged.page h16 (by omega)
    (by omega) (by omega) (show sz - PGSIZE + argBytes argv ≤ sz by omega)
  exact ⟨pt, addrs, h1, h2, h3, h4, h5⟩

theorem Prepared.full (h : Prepared sb p path s pt0 sz entry fl i c m) (hargs : argv.length < MAXARG)
    (hshort : ∀ x ∈ argv, x.length < PGSIZE) (hfull : PGSIZE < argBytes argv) :
    (pushStack (sz - PGSIZE) pt0 sz argv).2 = none := by
  obtain ⟨hlow, htop, hbig, h16⟩ := h.stack
  obtain ⟨pt, e⟩ := pushStack_full argv h.staged.page h16 (by omega) (by omega) hlow (by omega) (by omega)
    hshort (show sz < sz - PGSIZE + argBytes argv by omega)
  rw [e]

theorem Building.guard_load {own : Multiset ℕ} {tf v : ℕ} (h : Building own tf (some v) pt sz fl)
    (hv : v < npages sz) {a : ℕ} (ha : a / PGSIZE = v) : pt.load a = none := by
  obtain ⟨l, hl, -, -, hu⟩ := h.space.user v hv
  rw [← Option.not_isSome_iff_eq_none, PageTable.load_isSome]
  rintro ⟨-, l', hl', hne, -⟩
  rw [leaf_pgrounddown, pgrounddown, Nat.mul_div_cancel _ (by decide), ha] at hl'
  have e : l' = l := Option.some.inj (hl'.symm.trans hl)
  subst e
  refine hne (and_PTE_U.2 ?_)
  cases hb : l'.flags.testBit 4 with
  | false => rfl
  | true => exact absurd rfl (hu.1 hb)

/-- **the new program finds its arguments** -/
theorem ExecDone.layout (h : s.Ready sb p) (hd : ExecDone sb p path argv s s' pt0 pt sz sp fl i c m)
    (hargs : argv.length < MAXARG) (hshort : ∀ x ∈ argv, x.length < PGSIZE) :
    argBytes argv ≤ PGSIZE ∧ ∃ addrs, ArgLayout (s'.kern.k.proc p) argv pt sp addrs := by
  have hfit : argBytes argv ≤ PGSIZE := by
    by_contra hfull
    have := hd.prepared.full hargs hshort (by omega)
    rw [hd.pushed] at this
    cases this
  obtain ⟨hlow, htop, hbig, h16⟩ := hd.prepared.stack
  obtain ⟨pt', addrs, hrun, hp, harr, hal, hsep⟩ := hd.prepared.fits hargs hfit
  rw [hd.pushed] at hrun
  obtain ⟨rfl, hsp⟩ := Prod.mk.inj hrun
  have hsp : sp = sz - argBytes argv := Option.some.inj hsp
  rw [← hsp] at harr hal hsep
  obtain ⟨fl', -, hstate⟩ := hd.state
  have hproc : s'.kern.k.proc p =
      (s.kern.k.proc p).execed pt sz (Elfhdr.of c).entry sp path := by
    rw [hstate]
    exact Kern.upd_same (s.kern.k.withFree fl') p fun q => q.execed pt sz (Elfhdr.of c).entry sp path
  obtain ⟨_, tf, _, hpar⟩ := h.kern.parent
  obtain ⟨pa, htf⟩ := hpar.trapframe
  have hlt : sp < 2 ^ 64 := by omega
  have hle := hp.le
  refine ⟨hfit, addrs, ?_⟩
  rw [hproc]
  refine ⟨rfl, ⟨pa, _, by rw [Proc.execed, htf]; rfl, ?_, ?_⟩, hp.length, harr,
    fun i ha hs => (hp.get i ha hs).1, ⟨hal, fun a ha => ?_⟩, hp.disjoint, ⟨?_, ?_, fun i ha hs => ?_⟩,
    fun a h1 h2 => ?_⟩
  · rw [Function.update_self]
    exact (BitVec.toNat_ofNat ..).trans (Nat.mod_eq_of_lt hlt)
  · rw [Function.update_of_ne (by decide), Function.update_of_ne (by decide), Function.update_self]
    exact (BitVec.toNat_ofNat ..).trans (Nat.mod_eq_of_lt hlt)
  · obtain ⟨i, hi, rfl⟩ := List.mem_iff_getElem.1 ha
    exact (hp.get i hi (hp.length ▸ hi)).2.1
  · show sz - PGSIZE ≤ sp
    omega
  · show sp + (argv.length + 1) * 8 ≤ sz
    omega
  · obtain ⟨-, -, h3, h4⟩ := hp.get i ha hs
    exact ⟨by omega, h4⟩
  · have h1 : sz - 2 * PGSIZE ≤ a := h1
    have h2 : a < sz - PGSIZE := h2
    have hsize := hd.prepared.staged.size
    refine hd.building.guard_load ?_ ?_
    · rw [hsize, npages_mul]
      omega
    · rw [hsize] at h1 h2
      unfold PGSIZE at h1 h2 ⊢
      omega

end

/-- **the arguments of `exec`**: a program that starts has all of them on its stack, and where there is a
program and the memory for it, `exec` fails exactly if they take more than a page -/
theorem exec_arguments (h : s.Ready sb p) (path : List Byte) (argv : List (List Byte))
    (hargs : argv.length ≤ MAXARG - 1) (hshort : ∀ x ∈ argv, x.length < PGSIZE) :
    (∀ r s', (Sys.exec sb p path argv).run s = .ok (r, s') → r ≠ -1 →
      r = argv.length ∧ ∃ pt sp addrs, ArgLayout (s'.kern.k.proc p) argv pt sp addrs) ∧
    ∀ x s1, (execImage sb p path).run s = .ok (some x, s1) →
      ∃ r s', (Sys.exec sb p path argv).run s = .ok (r, s') ∧ (r = -1 ↔ PGSIZE < argBytes argv) := by
  have hlt : argv.length < MAXARG := by
    unfold MAXARG at hargs ⊢
    omega
  refine ⟨fun r s' hrun hr => ?_, fun x s1 himg => ?_⟩
  · obtain ⟨rfl, -⟩ | ⟨rfl, pt0, pt, sz, sp, fl, i, c, m, hd⟩ := (exec_spec h path argv).of_run hrun
    · exact absurd rfl hr
    · obtain ⟨-, addrs, hl⟩ := hd.layout h hlt hshort
      exact ⟨rfl, pt, sp, addrs, hl⟩
  · obtain ⟨fl, f, rfl, -, ⟨hx, -⟩ | ⟨pt, sz, entry, i, c, m, hx, hp⟩⟩ :=
      (execImage_spec h path).of_run himg
    · cases hx
    cases hx
    have hrun : ∀ {a : ℤ × Sys N K M}, (execArgs sb p path argv entry (s.kern.k.proc p).sz pt sz).run
        (s.mid fl f s.outstanding) = .ok a → (Sys.exec sb p path argv).run s = .ok a := fun e => by
      unfold Sys.exec
      rw [Code.run_bind, himg]
      exact e
    obtain ⟨r, s', e, hres⟩ := execArgs_spec (f := f) (o := s.outstanding) h h.freelist hp.building path
      argv entry
    refine ⟨r, s', hrun e, ?_⟩
    rcases hres with ⟨rfl, hnone, -⟩ | ⟨pt', sp, fl', rfl, hpush, -⟩
    · refine iff_of_true rfl ?_
      by_contra hfit
      obtain ⟨_, _, e, -⟩ := hp.fits hlt (Nat.le_of_not_lt hfit)
      rw [e] at hnone
      cases hnone
    · refine iff_of_false (by omega) fun hfull => ?_
      have := hp.full hlt hshort hfull
      rw [hpush] at this
      cases this

theorem exec_arguments_sample : ∃ s s', bootSys 30 = some s ∧ s.Ready smallSuper 0 ∧
    (Sys.exec smallSuper 0 [0x61] [[0x41], [0x42, 0x43]]).run s = .ok (2, s') ∧
    ∃ pt sp addrs, ArgLayout (s'.kern.k.proc 0) [[0x41], [0x42, 0x43]] pt sp addrs := by
  have key : (bootSys 30).any (fun s => s.booted &&
      SysM.returns (Sys.exec smallSuper 0 [0x61] [[0x41], [0x42, 0x43]]) s 2) = true := by decide +kernel
  obtain ⟨s, hs, key⟩ := (Option.any_eq_true _ _).1 key
  obtain ⟨hb, hret⟩ := Bool.and_eq_true_iff.1 key
  obtain ⟨s', hrun⟩ := SysM.returns_run hret
  have hready := bootSys_ready (by decide) hs hb
  have harg := exec_arguments hready [0x61] [[0x41], [0x42, 0x43]] (by decide) (by decide)
  exact ⟨s, s', hs, hready, hrun, (harg.1 2 s' hrun (by decide)).2⟩

/-! ## The segments -/

theorem segFlags_eq (flags : ℕ) : segFlags flags = PTE_V ||| PTE_R ||| PTE_U |||
    (if flags.testBit 1 then PTE_W else 0) ||| if flags.testBit 0 then PTE_X else 0 := by
  have hx : flags &&& 1 ≠ 0 ↔ flags.testBit 0 = true := by
    rw [← Bool.not_eq_false, ← and_pow_eq_zero, Nat.pow_zero]
  have hw : flags &&& 2 ≠ 0 ↔ flags.testBit 1 = true := by
    rw [← Bool.not_eq_false, ← and_pow_eq_zero, Nat.pow_one]
  unfold segFlags flags2perm
  dsimp only
  rw [if_congr hx rfl rfl, if_congr hw rfl rfl]
  cases flags.testBit 0 <;> cases flags.testBit 1 <;> decide

/-- the segment of the program header `ph` is in memory, with the bytes of the file, zeros after them, and
the permissions that it asks for -/
structure UMem.Shows (m : UMem) (c : ℕ → Byte) (ph : Proghdr) : Prop where
  sizes : ph.filesz ≤ ph.memsz
  size : ph.vaddr + ph.memsz ≤ m.sz
  file : ∀ j < ph.filesz, m.load (ph.vaddr + j) = some (c (ph.off + j))
  zero : ∀ j, ph.filesz ≤ j → j < ph.memsz → m.load (ph.vaddr + j) = some 0
  perm : ∀ v, ph.vaddr ≤ v * PGSIZE → v * PGSIZE < ph.vaddr + ph.memsz →
    m.perm v = some (PTE_V ||| PTE_R ||| PTE_U ||| (if ph.flags.testBit 1 then PTE_W else 0) |||
      if ph.flags.testBit 0 then PTE_X else 0)

namespace UMem
variable {m m' : UMem} {c : ℕ → Byte} {ph ph' : Proghdr}

theorem Shows.of_eq (h : m.Shows c ph) (hsz : m.sz ≤ m'.sz) (hload : ∀ a < m.sz, m'.load a = m.load a)
    (hperm : ∀ v < npages m.sz, m'.perm v = m.perm v) : m'.Shows c ph := by
  have h1 := h.sizes
  have h2 := h.size
  refine ⟨h1, by omega, fun j hj => ?_, fun j hj hj' => ?_, fun v hv hv' => ?_⟩
  · rw [hload _ (by omega), h.file j hj]
  · rw [hload _ (by omega), h.zero j hj hj']
  · rw [hperm v ?_, h.perm v hv hv']
    unfold npages PGSIZE at *
    omega

theorem shows_segment (hch : ph.Checked) (hoff : ph.off < 2 ^ 32) (hlow : m.sz ≤ ph.vaddr) :
    (m.segment c ph).Shows c ph := by
  have hal := hch.aligned
  have hmax : max m.sz (ph.vaddr + ph.memsz) = ph.vaddr + ph.memsz := Nat.max_eq_right (by omega)
  have hmod : ph.off % 2 ^ 32 = ph.off := Nat.mod_eq_of_lt hoff
  refine ⟨hch.sizes, (Nat.le_max_right ..), fun j hj => ?_, fun j hj hj' => ?_, fun v hv hv' => ?_⟩
  · refine (if_pos (by omega)).trans ?_
    rw [Nat.add_sub_cancel_left, hmod]
  · refine (if_neg (by omega)).trans (if_pos ?_)
    rw [hmax]
    unfold npages PGSIZE at *
    omega
  · rw [← segFlags_eq]
    refine if_pos ?_
    rw [hmax]
    unfold npages PGSIZE at *
    omega

theorem Shows.segment (h : m.Shows c ph) (hlow : m.sz ≤ ph'.vaddr) : (m.segment c ph').Shows c ph := by
  refine h.of_eq (Nat.le_max_left ..) (fun a ha => ?_) fun v hv => ?_
  · refine (if_neg (by omega)).trans (if_neg fun hc => ?_)
    unfold npages PGSIZE at hc
    omega
  · exact if_neg (by omega)

/-- **segments that ascend are all in memory** -/
theorem Shows.fold (phs : List Proghdr)
    (hasc : phs.Pairwise fun ph ph' => ph.vaddr + ph.memsz ≤ ph'.vaddr)
    (hlow : ∀ ph ∈ phs, m.sz ≤ ph.vaddr) (hgood : ∀ ph ∈ phs, ph.Checked ∧ ph.off < 2 ^ 32) :
    (∀ ph, m.Shows c ph → (phs.foldl (UMem.segment c) m).Shows c ph) ∧
      ∀ ph ∈ phs, (phs.foldl (UMem.segment c) m).Shows c ph := by
  induction phs generalizing m with
  | nil => exact ⟨fun ph h => h, nofun⟩
  | cons ph phs ih =>
    obtain ⟨hfirst, hrest⟩ := List.pairwise_cons.1 hasc
    have hph := hlow ph List.mem_cons_self
    obtain ⟨hch, hoff⟩ := hgood ph List.mem_cons_self
    have hsz : (m.segment c ph).sz = ph.vaddr + ph.memsz := Nat.max_eq_right (by omega)
    obtain ⟨h1, h2⟩ := ih (m := m.segment c ph) hrest (fun ph' h' => hsz ▸ hfirst ph' h')
      fun ph' h' => hgood ph' (List.mem_cons_of_mem _ h')
    refine ⟨fun ph' h' => h1 ph' (h'.segment hph), fun ph' h' => ?_⟩
    rcases List.mem_cons.1 h' with rfl | h'
    · exact h1 _ (shows_segment hch hoff hph)
    · exact h2 ph' h'

end UMem

/-! ## Program files -/

/-- program header `n` of a file -/
def phdr (c : ℕ → Byte) (n : ℕ) : Proghdr := Proghdr.at c ((Elfhdr.of c).phoff + Proghdr.bytes * n)

/-- segment `n` of a file is to be loaded -/
def Loads (c : ℕ → Byte) (n : ℕ) : Prop := n < (Elfhdr.of c).phnum ∧ (phdr c n).type = ELF_PROG_LOAD

/-- a file of `size` bytes that has its program headers and its segments, which are page-aligned, ascend
and do not overlap -/
structure ElfImage (c : ℕ → Byte) (size : ℕ) : Prop where
  table : (Elfhdr.of c).phoff + Proghdr.bytes * (Elfhdr.of c).phnum ≤ size
  inside : ∀ n, Loads c n → (phdr c n).off + (phdr c n).filesz ≤ size
  aligned : ∀ n, Loads c n → (phdr c n).vaddr % PGSIZE = 0
  ascending : ∀ n n', n < n' → Loads c n → Loads c n' →
    (phdr c n).vaddr + (phdr c n).memsz ≤ (phdr c n').vaddr

theorem headers_eq (c : ℕ → Byte) (n off : ℕ) (h : off + Proghdr.bytes * n < 2 ^ 32) :
    headers c n off = (List.range n).map fun k => Proghdr.at c (off + Proghdr.bytes * k) := by
  induction n generalizing off with
  | zero => rfl
  | succ n ih =>
    have hb : Proghdr.bytes = 56 := rfl
    rw [hb] at h ih ⊢
    rw [headers, hb, Nat.mod_eq_of_lt (by omega), ih _ (by omega), List.range_succ_eq_map, List.map_cons,
      List.map_map]
    refine congrArg₂ List.cons rfl (List.map_congr_left fun k _ => ?_)
    show Proghdr.at c (off + 56 + 56 * k) = Proghdr.at c (off + 56 * (k + 1))
    congr 1
    omega

section
variable {c c0 : ℕ → Byte} {size : ℕ}

theorem Proghdr.at_congr {off : ℕ} (h : ∀ a < size, c a = c0 a) (ho : off + Proghdr.bytes ≤ size) :
    Proghdr.at c off = Proghdr.at c0 off := by
  unfold Proghdr.at
  refine congrArg _ (List.map_congr_left fun i hi => h _ ?_)
  have := List.mem_range.1 hi
  omega

theorem Elfhdr.of_congr (h : ∀ a < size, c a = c0 a) (hs : Elfhdr.bytes ≤ size) :
    Elfhdr.of c = Elfhdr.of c0 := by
  unfold Elfhdr.of
  refine congrArg _ (List.map_congr_left fun i hi => h _ ?_)
  have := List.mem_range.1 hi
  omega

theorem ElfImage.segments (h : ElfImage c0 size) (hc : ∀ a < size, c a = c0 a)
    (hs : Elfhdr.bytes ≤ size) (hsize : size < 2 ^ 32) :
    segments c = loads ((List.range (Elfhdr.of c0).phnum).map (phdr c0)) := by
  have htab := h.table
  unfold Xv6.segments
  rw [Elfhdr.of_congr hc hs, Nat.mod_eq_of_lt (by omega), headers_eq _ _ _ (by omega)]
  refine congrArg loads (List.map_congr_left fun n hn => Proghdr.at_congr hc ?_)
  have hn := List.mem_range.1 hn
  have hmul : Proghdr.bytes * (n + 1) ≤ Proghdr.bytes * (Elfhdr.of c0).phnum := Nat.mul_le_mul_left _ hn
  rw [Nat.mul_add, Nat.mul_one] at hmul
  omega

theorem mem_loads {n : ℕ} {ph : Proghdr} :
    ph ∈ loads ((List.range n).map (phdr c0)) ↔ ∃ k < n, phdr c0 k = ph ∧ ph.type = ELF_PROG_LOAD := by
  unfold loads
  rw [List.mem_filter, List.mem_map, decide_eq_true_iff]
  constructor
  · rintro ⟨⟨k, hk, rfl⟩, ht⟩
    exact ⟨k, List.mem_range.1 hk, rfl, ht⟩
  · rintro ⟨k, hk, rfl, ht⟩
    exact ⟨⟨k, List.mem_range.2 hk, rfl⟩, ht⟩

theorem ElfImage.pairwise (h : ElfImage c0 size) :
    (loads ((List.range (Elfhdr.of c0).phnum).map (phdr c0))).Pairwise
      fun ph ph' => ph.vaddr + ph.memsz ≤ ph'.vaddr := by
  unfold loads
  rw [List.pairwise_filter, List.pairwise_map]
  refine List.Pairwise.imp_of_mem (fun {n n'} hn hn' hlt ht ht' => ?_) List.pairwise_lt_range
  exact h.ascending n n' hlt ⟨List.mem_range.1 hn, of_decide_eq_true ht⟩
    ⟨List.mem_range.1 hn', of_decide_eq_true ht'⟩

/-- **the segments of a program file are all in memory** -/
theorem Loaded.shows {m : UMem} (hl : Loaded c m) (h : ElfImage c0 size) (hc : ∀ a < size, c a = c0 a)
    (hs : Elfhdr.bytes ≤ size) (hsize : size < 2 ^ 32) {n : ℕ} (hn : Loads c0 n) :
    m.Shows c0 (phdr c0 n) := by
  obtain ⟨m0, hm0, rfl⟩ := hl.mem
  have hchk := hl.checked
  have hseg := h.segments hc hs hsize
  rw [hseg] at hchk ⊢
  have hfold := UMem.Shows.fold (m := m0) (c := c) _ h.pairwise (fun ph _ => by omega) (fun ph hph => ?_)
  · have := hfold.2 (phdr c0 n) (mem_loads.2 ⟨n, hn.1, rfl, hn.2⟩)
    refine ⟨this.sizes, this.size, fun j hj => ?_, this.zero, this.perm⟩
    have hin := h.inside n hn
    rw [this.file j hj, hc _ (by omega)]
  · obtain ⟨k, hk, rfl, ht⟩ := mem_loads.1 hph
    have hin := h.inside k ⟨hk, ht⟩
    exact ⟨hchk _ hph, by omega⟩

end

/-- **the memory of a new program**: every segment of its file, with its bytes, its zeros and its
permissions, and a stack that is writable and not executable -/
theorem exec_loads_program (h : s.Ready sb p) {path : List Byte} {argv : List (List Byte)} {i : ℕ}
    (hi : (pathStart s.fs p path).bind (fun i => resolve sb s.fs.blk i (components path)) = some i)
    (helf : ElfImage ((sb.dinode s.fs.blk i).content s.fs.blk) (sb.dinode s.fs.blk i).size.toNat)
    {r : ℤ} (hrun : (Sys.exec sb p path argv).run s = .ok (r, s')) (hr : r ≠ -1) :
    ∃ pt, (s'.kern.k.proc p).pagetable = some pt ∧
      (∀ n, Loads ((sb.dinode s.fs.blk i).content s.fs.blk) n →
        (UMem.of pt (s'.kern.k.proc p).sz).Shows ((sb.dinode s.fs.blk i).content s.fs.blk)
          (phdr ((sb.dinode s.fs.blk i).content s.fs.blk) n)) ∧
      pt.perm ((s'.kern.k.proc p).sz / PGSIZE - 1) = some (PTE_V ||| PTE_R ||| PTE_U ||| PTE_W) := by
  obtain ⟨rfl, -⟩ | ⟨rfl, pt0, pt, sz, sp, fl, i', c, m, hd⟩ := (exec_spec h path argv).of_run hrun
  · exact absurd rfl hr
  obtain ⟨hi', hhdr, hbytes⟩ := hd.prepared.program
  obtain rfl : i' = i := Option.some.inj (hi'.symm.trans hi)
  obtain ⟨fl', -, hstate⟩ := hd.state
  have hproc : s'.kern.k.proc p = (s.kern.k.proc p).execed pt sz (Elfhdr.of c).entry sp path := by
    rw [hstate]
    exact Kern.upd_same (s.kern.k.withFree fl') p fun q => q.execed pt sz (Elfhdr.of c).entry sp path
  have hpoke := PageTable.Pokes.pushStack (sz - PGSIZE) pt0 sz argv
  rw [hd.pushed] at hpoke
  have hst := hd.prepared.staged
  have hsize := hst.size
  rw [hproc]
  refine ⟨pt, rfl, fun n hn => ?_, ?_⟩
  · refine (hd.prepared.loaded.shows helf hbytes hhdr (BitVec.isLt _) hn).of_eq ?_ (fun a ha => ?_)
      fun v hv => ?_
    · show m.sz ≤ sz
      unfold npages PGSIZE at hsize
      omega
    · have hpage : a / PGSIZE < npages m.sz := by
        unfold npages PGSIZE
        omega
      refine (hpoke.below a ?_).trans (hst.load a hpage)
      unfold PGSIZE at *
      omega
    · exact (congrFun hpoke.tree.perm v).trans (hst.perm v hv)
  · have hpage : sz / PGSIZE - 1 = npages m.sz + 1 := by
      rw [hsize, Nat.mul_div_cancel _ (by decide)]
      omega
    show pt.perm (sz / PGSIZE - 1) = _
    rw [hpage, hpoke.tree.perm, hst.stack]
    decide

end

/-- what is to be computed about the file `a` -/
def Sys.smallProgram (s : Sys 2 3 2) : Bool :=
  let c := (smallSuper.dinode s.fs.blk 2).content s.fs.blk
  let ph := phdr c 0
  decide ((pathStart s.fs 0 [0x61]).bind (fun i => resolve smallSuper s.fs.blk i (components [0x61])) =
      some 2 ∧ (smallSuper.dinode s.fs.blk 2).size.toNat = 122 ∧ (Elfhdr.of c).phoff = 64 ∧
    (Elfhdr.of c).phnum = 1 ∧ ph.off = 120 ∧ ph.filesz = 2 ∧ ph.vaddr = 0)

theorem exec_loads_program_sample : ∃ s s' pt, bootSys 30 = some s ∧ s.Ready smallSuper 0 ∧
    (Sys.exec smallSuper 0 [0x61] []).run s = .ok (0, s') ∧ (s'.kern.k.proc 0).pagetable = some pt ∧
    pt.perm ((s'.kern.k.proc 0).sz / PGSIZE - 1) = some (PTE_V ||| PTE_R ||| PTE_U ||| PTE_W) := by
  have key : (bootSys 30).any (fun s => s.booted && s.smallProgram &&
      SysM.returns (Sys.exec smallSuper 0 [0x61] []) s 0) = true := by decide +kernel
  obtain ⟨s, hs, key⟩ := (Option.any_eq_true _ _).1 key
  obtain ⟨hb, hret⟩ := Bool.and_eq_true_iff.1 key
  obtain ⟨hb, hprog⟩ := Bool.and_eq_true_iff.1 hb
  obtain ⟨s', hrun⟩ := SysM.returns_run hret
  have hready := bootSys_ready (by decide) hs hb
  obtain ⟨hi, hsize, hoff, hnum, ho, hf, hv⟩ := of_decide_eq_true hprog
  have hone : ∀ n, Loads ((smallSuper.dinode s.fs.blk 2).content s.fs.blk) n → n = 0 := fun n hn => by
    have := hn.1
    omega
  have helf : ElfImage ((smallSuper.dinode s.fs.blk 2).content s.fs.blk) 122 := by
    refine ⟨?_, fun n hn => ?_, fun n hn => ?_, fun n n' hlt hn hn' => ?_⟩
    · rw [hoff, hnum]
      decide
    · rw [hone n hn, ho, hf]
    · rw [hone n hn, hv]
      decide
    · have := hone n' hn'
      omega
  rw [← hsize] at helf
  obtain ⟨pt, hpt, -, hstack⟩ := exec_loads_program hready hi helf hrun (by decide)
  exact ⟨s, s', pt, hs, hready, hrun, hpt, hstack⟩

end Xv6
