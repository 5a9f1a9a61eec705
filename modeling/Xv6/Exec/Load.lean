import Xv6.Exec.Image
import Xv6.Fs.Path

/-!
# The segments of a program

* `Sys.mid`   a system call on its way: the free list, the file system and the log may differ;
* `UMem`   the memory of a program: its bytes and the flags of its pages;
* `UMem.segment`   what one program header adds, from the bytes of the file;
* `loadsegLoop_spec`, `loadSegments_spec`   **the loop over the program headers ends, for every file and
  every free list; where it succeeds, the memory is that of the headers, one after the other**.
-/

namespace Xv6

open FileSys

section
variable {N K M : ℕ} {α : Type} {s : Sys N K M} {fl fl' : List ℕ} {f : Fsys (Slot N) K M} {o : ℤ}

/-! ## On the way -/

/-- the state with another free list, file system and count of operations -/
def Sys.mid (s : Sys N K M) (fl : List ℕ) (f : Fsys (Slot N) K M) (o : ℤ) : Sys N K M :=
  ⟨s.kern.setFree fl, f, o⟩

theorem onKern_mem {x : KM N α} {a : α} (h : MemRuns x fl a fl') (hs : .kmem ∉ s.kern.held) :
    (onKern x).Yields (s.mid fl f o) fun b s' => b = a ∧ s' = s.mid fl' f o :=
  .ofAct (h _ hs rfl) ⟨rfl, rfl⟩

theorem onKern_getProc (p : Slot N) :
    (onKern (getProc p)).Yields (s.mid fl f o) fun q s' => q = s.kern.k.proc p ∧ s' = s.mid fl f o :=
  .ofAct rfl ⟨rfl, rfl⟩

theorem onFs_yields {c : FsM (Slot N) K M α} {Q : α → Fsys (Slot N) K M → Prop} (h : c.Yields f Q) :
    (onFs c).Yields (s.mid fl f o) fun a s' => ∃ f', s' = s.mid fl f' o ∧ Q a f' :=
  @Code.Yields.zoom _ _ _ _ _ _ Sys.fsPart _ _ (s.mid fl f o) _ h

theorem onFs_outcome {c : FsM (Slot N) K M α} {Q : α → Fsys (Slot N) K M → Prop} {A : FsPanic → Prop}
    (h : c.Outcome f Q A) :
    (onFs c).Outcome (s.mid fl f o) (fun a s' => ∃ f', s' = s.mid fl f' o ∧ Q a f')
      fun m => ∃ e, m = .fs e ∧ A e :=
  @Code.Outcome.zoom _ _ _ _ _ _ Sys.fsPart _ _ (s.mid fl f o) _ _ h

/-! ## Reading the program -/

section
variable {sb : FsSuper} {p : Slot N} {ip : Fin K} {g : Ghost (Slot N) K M}

theorem readi_kernel (hi : Inv sb g) (hf : Full sb p ip g) (off : ℕ) {n : ℕ} (hn : n < 2 ^ 32) :
    (onFs (readi sb ip kernelDst off n)).Yields (s.mid fl g.s o) fun r s' => s' = s.mid fl g.s o ∧
      ∃ l ≤ n, r = ((l : ℤ), g.bytes ip off l) ∧
        (l = n → n ≠ 0 → off + n ≤ (g.d ip).size.toNat) := by
  refine (onFs_yields (hi.readi hf kernelDst off hn)).mono ?_
  rintro ⟨r, x⟩ _ ⟨_, rfl, rfl, l, -, hx, ⟨hr, hl⟩ | ⟨-, i, -, hc⟩⟩
  · refine ⟨rfl, l, ?_, Prod.ext hr hx, fun e hn0 => ?_⟩
    · rw [hl]
      unfold readLen
      split
      · exact Nat.zero_le _
      · exact Nat.min_le_left ..
    · rw [hl] at e
      unfold readLen at e
      split at e
      · exact absurd e.symm hn0
      · omega
  · cases hc

end
end

/-! ## The memory of a program -/

/-- the size, the bytes that the user can read, and the flags of the pages -/
structure UMem where
  sz : ℕ
  load : ℕ → Option Byte
  perm : ℕ → Option ℕ

/-- the memory that a table maps -/
def UMem.of (pt : PageTable) (sz : ℕ) : UMem := ⟨sz, pt.load, pt.perm⟩

/-- the memory grows to `newsz` bytes, with zeroed pages -/
def UMem.grow (m : UMem) (newsz flags : ℕ) : UMem where
  sz := newsz
  load a := if npages m.sz ≤ a / PGSIZE ∧ a / PGSIZE < npages newsz then some 0 else m.load a
  perm v := if npages m.sz ≤ v ∧ v < npages newsz then some flags else m.perm v

/-- `n` bytes are stored from `va` on -/
def UMem.store (m : UMem) (va n : ℕ) (x : ℕ → Byte) : UMem :=
  { m with load := fun a => if va ≤ a ∧ a < va + n then some (x (a - va)) else m.load a }

/-- a segment is added, from the bytes `c` of the file -/
def UMem.segment (c : ℕ → Byte) (m : UMem) (ph : Proghdr) : UMem :=
  (m.grow (max m.sz (ph.vaddr + ph.memsz)) (segFlags ph.flags)).store ph.vaddr ph.filesz
    fun i => c (ph.off % 2 ^ 32 + i)

/-- the program header at offset `off` of the file -/
def Proghdr.at (c : ℕ → Byte) (off : ℕ) : Proghdr :=
  Proghdr.load ((List.range Proghdr.bytes).map fun i => c (off + i))

/-- the headers as the loop reads them -/
def headers (c : ℕ → Byte) : ℕ → ℕ → List Proghdr
  | 0, _ => []
  | n + 1, off => Proghdr.at c off :: headers c n ((off + Proghdr.bytes) % 2 ^ 32)

/-- those to be loaded -/
def loads (phs : List Proghdr) : List Proghdr := phs.filter fun ph => ph.type = ELF_PROG_LOAD

/-- the checks of `exec` -/
structure Proghdr.Checked (ph : Proghdr) : Prop where
  sizes : ph.filesz ≤ ph.memsz
  aligned : ph.vaddr % PGSIZE = 0

/-! ## `loadseg` -/

section
variable {N K M : ℕ} {s : Sys N K M} {fl : List ℕ} {o : ℤ} {sb : FsSuper} {p : Slot N} {ip : Fin K}
  {g : Ghost (Slot N) K M}

theorem load_page {pt : PageTable} {va : ℕ} {l : Leaf} (hva : va % PGSIZE = 0)
    (hl : walkaddr pt va = some l) {x : List Byte} (hx : x.length ≤ PGSIZE) (a : ℕ) :
    (pt.setLeaf va (some (l.write 0 x))).load a =
      if va ≤ a then (x[a - va]?).or (pt.load a) else pt.load a := by
  have e : pgrounddown va = va := by
    rw [pgrounddown_eq]
    unfold PGSIZE at hva
    omega
  have := @load_write pt va _ (by rw [e]; exact hl) x (by rw [e, Nat.sub_self]; omega) a
  rwa [e, Nat.sub_self] at this

theorem sameTree_page {pt : PageTable} {va : ℕ} {l : Leaf} (hva : va % PGSIZE = 0)
    (hl : walkaddr pt va = some l) (x : List Byte) : pt.SameTree (pt.setLeaf va (some (l.write 0 x))) ∧
      ∀ v < PageTable.NPG, v ≠ va / PGSIZE → (pt.setLeaf va (some (l.write 0 x))).flat v = pt.flat v := by
  have e : pgrounddown va = va := by
    rw [pgrounddown_eq]
    unfold PGSIZE at hva
    omega
  obtain ⟨hv, hflat⟩ := @PageTable.flat_of_walkaddr _ va _ (by rw [e]; exact hl)
  have h := @PageTable.SameTree.setLeaf _ _ _ (l.write 0 x) hv hflat rfl rfl
  have hne := fun v hv' hne => (PageTable.setLeaf_flat hv (PageTable.path_of_flat hflat)
    (some (l.write 0 x)) (w := v) hv').trans (Function.update_of_ne hne _ _)
  rw [show va / PGSIZE * PGSIZE = va from e] at h hne
  exact ⟨h, hne⟩

theorem loadsegLoop_spec (hi : Inv sb g) (hf : Full sb p ip g) {va offset sz : ℕ}
    (hva : va % PGSIZE = 0) (hend : va + sz ≤ 2 ^ 38) (n : ℕ) {i : ℕ} {pt : PageTable}
    (hi0 : i % PGSIZE = 0) (hn : n = npages (sz - i)) (hoff : offset + i < 2 ^ 32)
    (hmap : ∀ a, va + i ≤ a → a < va + sz → pt.UserPage a) :
    (loadsegLoop sb ip va offset sz n i pt).Yields (s.mid fl g.s o) fun r s' =>
      s' = s.mid fl g.s o ∧ pt.SameTree r.1 ∧
      (∀ v < PageTable.NPG, ¬ (va ≤ v * PGSIZE ∧ v * PGSIZE < va + sz) → r.1.flat v = pt.flat v) ∧
      (r.2 = true → ∀ a, r.1.load a =
        if va + i ≤ a ∧ a < va + sz then some (g.byte ip (offset + (a - va))) else pt.load a) := by
  induction n generalizing i pt with
  | zero =>
    have hle : sz ≤ i := by
      unfold npages PGSIZE at hn
      omega
    refine .pure ⟨rfl, .refl pt, fun _ _ _ => rfl, fun _ a => ?_⟩
    rw [if_neg (by omega)]
  | succ n ih =>
    have hlt : i < sz := by
      unfold npages PGSIZE at hn
      omega
    have haddr : (va + i) % 2 ^ 64 = va + i := Nat.mod_eq_of_lt (by omega)
    have hpage : (va + i) % PGSIZE = 0 := by
      unfold PGSIZE at *
      omega
    have hround : pgrounddown (va + i) = va + i := by
      rw [pgrounddown_eq]
      unfold PGSIZE at hpage
      omega
    obtain ⟨l, hl⟩ := PageTable.userPage_iff.1 (hmap (va + i) (by omega) (by omega))
    rw [hround] at hl
    unfold loadsegLoop
    rw [haddr, hl]
    dsimp only
    have hm : ∃ m, (if sz - i < PGSIZE then sz - i else PGSIZE) = m ∧ 0 < m ∧ m ≤ PGSIZE ∧
        m ≤ sz - i ∧ (sz - i ≤ m ∨ m = PGSIZE) := by
      refine ⟨_, rfl, ?_⟩
      unfold PGSIZE
      split <;> omega
    obtain ⟨m, hm, hm0, hmP, hms, hmore⟩ := hm
    rw [hm, Nat.mod_eq_of_lt hoff]
    refine (readi_kernel hi hf (offset + i) (lt_of_le_of_lt hmP (by decide))).bind ?_
    rintro _ _ ⟨rfl, k, hk, rfl, hsize⟩
    have hxlen := bytes_length g ip (offset + i) k
    obtain ⟨htree, hrest⟩ := sameTree_page hpage hl (g.bytes ip (offset + i) k)
    have hload := load_page hpage hl (x := g.bytes ip (offset + i) k) (by omega)
    have hnot : ∀ v, ¬ (va ≤ v * PGSIZE ∧ v * PGSIZE < va + sz) → v ≠ (va + i) / PGSIZE := fun v hv e => by
      refine hv ?_
      rw [e]
      unfold PGSIZE at *
      omega
    dsimp only
    refine .ite (fun hr => .pure ⟨rfl, htree, fun v hv hout => hrest v hv (hnot v hout), nofun⟩) fun hr => ?_
    have hkm : k = m := by
      have := not_not.1 hr
      exact_mod_cast this
    subst hkm
    have hfit := hsize rfl (by omega)
    have hmax := hf.covers.size
    have hMAX : MAXFILE * BSIZE = 274432 := by decide
    have hnext : npages (sz - (i + PGSIZE)) = n := by
      unfold npages PGSIZE at *
      omega
    refine (ih (i := i + PGSIZE) (by unfold PGSIZE at *; omega) hnext.symm (by unfold PGSIZE; omega)
      fun a h1 h2 => ?_).mono ?_
    · rw [← PageTable.load_isSome, hload]
      have := PageTable.load_isSome.2 (hmap a (by omega) h2)
      split
      · cases (g.bytes ip (offset + i) k)[a - (va + i)]? with
        | none => exact this
        | some b => rfl
      · exact this
    · rintro ⟨pt', ok⟩ _ ⟨rfl, htree', hrest', hload'⟩
      refine ⟨rfl, htree.trans htree', fun v hv hout => ?_, fun hok a => ?_⟩
      · exact (hrest' v hv hout).trans (hrest v hv (hnot v hout))
      · rw [hload' hok a]
        by_cases h1 : va + (i + PGSIZE) ≤ a ∧ a < va + sz
        · rw [if_pos h1, if_pos (by omega)]
        · rw [if_neg h1, hload a]
          by_cases h2 : va + i ≤ a ∧ a < va + sz
          · have hb : (g.bytes ip (offset + i) k)[a - (va + i)]? = some (g.byte ip (offset + (a - va))) := by
              have hlt : a - (va + i) < k := by omega
              unfold Ghost.bytes
              rw [List.getElem?_map, List.getElem?_range hlt, Option.map_some]
              refine congrArg some (congrArg (g.byte ip) ?_)
              omega
            rw [if_pos h2, if_pos h2.1, hb]
            rfl
          · rw [if_neg h2]
            by_cases h3 : va + i ≤ a
            · rw [if_pos h3, List.getElem?_eq_none (by omega), Option.none_or]
            · rw [if_neg h3]

/-! ## The loop over the program headers -/

theorem leNat_lt (x : List Byte) : leNat x < 256 ^ x.length := by
  induction x with
  | nil => exact Nat.one_pos
  | cons b x ih =>
    show b.toNat + 256 * leNat x < 256 ^ (x.length + 1)
    have := b.isLt
    rw [Nat.pow_succ]
    omega

theorem field_lt (x : List Byte) (k n : ℕ) : field x k n < 256 ^ n :=
  lt_of_lt_of_le (leNat_lt _) (Nat.pow_le_pow_right (by decide) (List.length_take_le n _))

variable {own : Multiset ℕ} {tf : ℕ}

theorem npages_le {a sz : ℕ} (h : a < sz) : a / PGSIZE < npages sz := by
  unfold npages PGSIZE
  omega

theorem loadSegment_spec (hm : Memory own) (hk : .kmem ∉ s.kern.held) (hi : Inv sb g)
    (hf : Full sb p ip g) {ph : Proghdr} (hc : ph.Checked) {pt : PageTable} {sz : ℕ}
    (hb : Building own tf none pt sz fl) {R : PageTable × ℕ × Bool → Sys N K M → Prop}
    {rest : PageTable → ℕ → SysM N K M (PageTable × ℕ × Bool)}
    (hbad : ∀ pt' sz' fl', Building own tf none pt' sz' fl' → R (pt', sz', false) (s.mid fl' g.s o))
    (hrest : ∀ pt' fl', Building own tf none pt' (max sz (ph.vaddr + ph.memsz)) fl' →
      UMem.of pt' (max sz (ph.vaddr + ph.memsz)) = (UMem.of pt sz).segment (g.byte ip) ph →
      (rest pt' (max sz (ph.vaddr + ph.memsz))).Yields (s.mid fl' g.s o) R) :
    (do
      let (pt, sz1) ← onKern (uvmalloc pt sz (ph.vaddr + ph.memsz) (flags2perm ph.flags))
      if sz1 = 0 then return (pt, sz, false)
      else
        let (pt, ok) ← loadseg sb pt ph.vaddr ip (ph.off % 2 ^ 32) (ph.filesz % 2 ^ 32)
        if ok then rest pt sz1 else return (pt, sz1, false) :
      SysM N K M (PageTable × ℕ × Bool)).Yields (s.mid fl g.s o) R := by
  obtain ⟨pt1, r, fl1, hr, h1⟩ := hb.uvmalloc (N := N) hm (ph.vaddr + ph.memsz) (flags2perm ph.flags)
  refine (onKern_mem hr hk).bind ?_
  rintro _ _ ⟨rfl, rfl⟩
  dsimp only
  rcases h1 with ⟨rfl, hb1, hload1, hperm1⟩ | ⟨rfl, hb1⟩
  · refine .ite (fun h0 => .pure (hbad _ _ _ ?_)) fun h0 => ?_
    · have hsz : sz = 0 := by omega
      rw [h0] at hb1
      rw [hsz]
      exact hb1
    have hcard := hb1.card
    have hown := hm.card_le
    have hsz : ph.vaddr + ph.memsz < 2 ^ 28 := by
      unfold npages PGSIZE at hcard
      omega
    have hfs := hc.sizes
    have hmod : ph.filesz % 2 ^ 32 = ph.filesz := Nat.mod_eq_of_lt (by omega)
    have hend : ph.vaddr + ph.filesz ≤ 2 ^ 38 := by omega
    rw [hmod]
    refine (loadsegLoop_spec hi hf hc.aligned hend _ (i := 0) rfl rfl ?_ fun a h1 h2 => ?_).bind ?_
    · exact Nat.mod_lt _ (by decide)
    · exact hb1.userPage hm (npages_le (by omega)) nofun
    · rintro ⟨pt2, ok⟩ _ ⟨rfl, htree, hrest2, hload2⟩
      have hb2 : Building own tf none pt2 (max sz (ph.vaddr + ph.memsz)) fl1 := by
        refine hb1.same htree fun v hv hN => hrest2 v hN fun hin => ?_
        unfold npages PGSIZE at hv
        unfold PGSIZE at hin
        omega
      cases ok with
      | false => exact .pure (hbad _ _ _ hb2)
      | true =>
        refine hrest pt2 fl1 hb2 ?_
        unfold UMem.of UMem.segment UMem.store UMem.grow
        refine congrArg₂ (UMem.mk _) (funext fun a => ?_) (funext fun v => ?_)
        · dsimp only
          rw [hload2 rfl a, Nat.add_zero]
          split
          · rfl
          · exact hload1 a
        · exact (congrFun htree.perm v).trans (hperm1 v)
  · rw [if_pos rfl]
    exact .pure (hbad _ _ _ hb1)

/-- **the loop over the program headers** -/
theorem loadSegments_spec (hm : Memory own) (hk : .kmem ∉ s.kern.held) (hi : Inv sb g)
    (hf : Full sb p ip g) (n : ℕ) (off : ℕ) {pt : PageTable} {sz : ℕ}
    (hb : Building own tf none pt sz fl) :
    (loadSegments sb ip n off pt sz).Yields (s.mid fl g.s o) fun r s' => ∃ fl', s' = s.mid fl' g.s o ∧
      Building own tf none r.1 r.2.1 fl' ∧
      (r.2.2 = true → (∀ ph ∈ loads (headers (g.byte ip) n off), ph.Checked) ∧
        UMem.of r.1 r.2.1 =
          (loads (headers (g.byte ip) n off)).foldl (UMem.segment (g.byte ip)) (UMem.of pt sz)) := by
  induction n generalizing off pt sz fl with
  | zero => exact .pure ⟨fl, rfl, hb, fun _ => ⟨fun ph h => absurd h List.not_mem_nil, rfl⟩⟩
  | succ n ih =>
    unfold loadSegments
    refine (readi_kernel hi hf off (by decide)).bind ?_
    rintro _ _ ⟨rfl, l, -, rfl, -⟩
    dsimp only
    refine .ite (fun _ => .pure ⟨fl, rfl, hb, nofun⟩) fun hl => ?_
    have hl : l = Proghdr.bytes := by exact_mod_cast not_not.1 hl
    subst hl
    rw [show Proghdr.load (g.bytes ip off Proghdr.bytes) = Proghdr.at (g.byte ip) off from rfl]
    unfold headers
    refine .ite (fun hty => ?_) fun hty => .ite (fun _ => .pure ⟨fl, rfl, hb, nofun⟩) fun h1 =>
      .ite (fun _ => .pure ⟨fl, rfl, hb, nofun⟩) fun h2 =>
      .ite (fun _ => .pure ⟨fl, rfl, hb, nofun⟩) fun h3 => ?_
    · refine (ih _ hb).mono fun r s' h => ?_
      unfold loads at h ⊢
      rw [List.filter_cons_of_neg (by simpa using hty)]
      exact h
    · have hmem : (Proghdr.at (g.byte ip) off).memsz < 2 ^ 64 := field_lt _ 40 8
      have hv : (Proghdr.at (g.byte ip) off).vaddr < 2 ^ 64 := field_lt _ 16 8
      have hmod : ((Proghdr.at (g.byte ip) off).vaddr + (Proghdr.at (g.byte ip) off).memsz) % 2 ^ 64 =
          (Proghdr.at (g.byte ip) off).vaddr + (Proghdr.at (g.byte ip) off).memsz := by
        omega
      have hc : (Proghdr.at (g.byte ip) off).Checked := ⟨by omega, by omega⟩
      rw [hmod]
      refine loadSegment_spec hm hk hi hf hc hb (fun pt' sz' fl' hb' => ⟨fl', rfl, hb', nofun⟩)
        fun pt' fl' hb' hmem' => (ih _ hb').mono ?_
      rintro r _ ⟨fl2, rfl, hb2, hok⟩
      refine ⟨fl2, rfl, hb2, fun hr => ?_⟩
      obtain ⟨hall, heq⟩ := hok hr
      unfold loads at *
      rw [List.filter_cons_of_pos (by simpa using hty)]
      refine ⟨fun ph hph => ?_, ?_⟩
      · rcases List.mem_cons.1 hph with rfl | hph
        · exact hc
        · exact hall ph hph
      · rw [List.foldl_cons, ← hmem']
        exact heq

end
end Xv6
