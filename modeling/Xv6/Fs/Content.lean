import Xv6.Fs.Held

/-!
# The content of a locked inode

* `Local`   a change that concerns the blocks and the fields of one locked inode only;
* `Grown`   blocks are added, and the content stays;
* `bmap_gives`, `bmap_read`   the block for an index, allocated or not;
* `readi_gives`   `readi` returns the content and changes nothing;
* `writei_gives`   **`writei` stores a stretch of bytes, whether or not it is short**;
* `itrunc_gives`   `itrunc` frees all blocks.
-/

set_option linter.unusedSectionVars false

namespace Xv6.FileSys
open Function (update update_of_ne update_self update_eq_self update_idem)

section
variable {P : Type} {K M : ℕ} {sb : FsSuper} {p q : P} {g g' g'' h : Ghost P K M} {k : Fin K}
  {L : Logic (Fsys P K M) (FsLabel P) FsPanic (Ghost P K M)} {α : Type}

/-- a block that `p` may get from the free map -/
def Loose (L : Logic (Fsys P K M) (FsLabel P) FsPanic (Ghost P K M)) (p : P) (g : Ghost P K M)
    (b : ℕ) : Prop := ¬ Mine p g b ∧ (Alone L → g.whose b = .free)

/-- the disk is full, as far as one process alone can say -/
def NoFree (sb : FsSuper) (L : Logic (Fsys P K M) (FsLabel P) FsPanic (Ghost P K M))
    (g : Ghost P K M) : Prop := Alone L → ∀ c < sb.size, g.whose c ≠ .free

/-- only the inode in entry `k` changes: its fields, its blocks and what is in them -/
structure Local (sb : FsSuper) (L : Logic (Fsys P K M) (FsLabel P) FsPanic (Ghost P K M)) (p : P)
    (k : Fin K) (g g' : Ghost P K M) : Prop where
  view : g'.view = g.view
  lock : g'.s.lock = g.s.lock
  file : g'.s.file = g.s.file
  cwd : g'.s.cwd = g.s.cwd
  ofile : g'.s.ofile = g.s.ofile
  inode : g'.s.inode = Function.update g.s.inode k ((g.s.inode k).withD (g'.d k))
  dinode : ∀ j < sb.ninodes, j ≠ g.inum k → sb.dinode g'.s.blk j = sb.dinode g.s.blk j
  kept : ∀ b, g.whose b ≠ .node (g.inum k) → g'.whose b ≠ .node (g.inum k) →
    g'.whose b = g.whose b ∧ (sb.nmeta ≤ b → g'.s.blk b = g.s.blk b) ∨
      g'.whose b = .free ∧ Loose L p g b
  left : ∀ b, g.whose b = .node (g.inum k) → g'.whose b = .node (g.inum k) ∨ g'.whose b = .free
  taken : ∀ b, g'.whose b = .node (g.inum k) → g.whose b = .node (g.inum k) ∨ Loose L p g b

namespace Local

theorem inode_ne (hl : Local sb L p k g g') {l : Fin K} (h : l ≠ k) :
    g'.s.inode l = g.s.inode l := by
  rw [hl.inode, update_of_ne h]

theorem inode_self (hl : Local sb L p k g g') : g'.s.inode k = (g.s.inode k).withD (g'.d k) := by
  conv_lhs => rw [hl.inode]
  exact update_self ..

theorem inum (hl : Local sb L p k g g') (l : Fin K) : g'.inum l = g.inum l := by
  show (g'.s.inode l).inum = _
  by_cases h : l = k
  · rw [h, hl.inode_self]
    rfl
  · rw [hl.inode_ne h]

theorem valid (hl : Local sb L p k g g') (l : Fin K) :
    (g'.s.inode l).valid = (g.s.inode l).valid := by
  by_cases h : l = k
  · rw [h, hl.inode_self]
    rfl
  · rw [hl.inode_ne h]

theorem ref (hl : Local sb L p k g g') (l : Fin K) : (g'.s.inode l).ref = (g.s.inode l).ref := by
  by_cases h : l = k
  · rw [h, hl.inode_self]
    rfl
  · rw [hl.inode_ne h]

theorem own (hl : Local sb L p k g g') {o : Owner P} : Own p g' o ↔ Own p g o := by
  refine or_congr .rfl (exists_congr fun l => ?_)
  rw [hl.lock, hl.valid l]
  have := hl.inum l
  dsimp only [Ghost.inum] at this
  rw [this]

theorem refl (sb : FsSuper) (L : Logic (Fsys P K M) (FsLabel P) FsPanic (Ghost P K M)) (p : P)
    (k : Fin K) (g : Ghost P K M) : Local sb L p k g g where
  view := rfl
  lock := rfl
  file := rfl
  cwd := rfl
  ofile := rfl
  inode := (update_eq_self ..).symm
  dinode _ _ _ := rfl
  kept _ _ _ := .inl ⟨rfl, fun _ => rfl⟩
  left _ h := .inl h
  taken _ h := .inl h

theorem loose (hl : Local sb L p k g g') {b : ℕ} (e : g'.whose b = g.whose b)
    (h : Loose L p g' b) : Loose L p g b := by
  refine ⟨fun hm => h.1 ?_, fun al => e.symm.trans (h.2 al)⟩
  rw [Mine, e]
  exact hl.own.2 hm

theorem trans (h1 : Local sb L p k g g') (h2 : Local sb L p k g' g'') : Local sb L p k g g'' := by
  have hi := h1.inum k
  have k2 := h2.kept
  have l2 := h2.left
  have t2 := h2.taken
  rw [hi] at k2 l2 t2
  refine ⟨h2.view.trans h1.view, h2.lock.trans h1.lock, h2.file.trans h1.file, h2.cwd.trans h1.cwd,
    h2.ofile.trans h1.ofile, ?_, fun j hj hne => ?_, fun b hb hb'' => ?_, fun b hb => ?_,
    fun b hb => ?_⟩
  · rw [h2.inode, h1.inode, update_idem, update_self]
    rfl
  · rw [h2.dinode j hj (by rw [hi]; exact hne), h1.dinode j hj hne]
  · by_cases hb' : g'.whose b = .node (g.inum k)
    · exact .inr ⟨(l2 b hb').resolve_left hb'', (h1.taken b hb').resolve_left hb⟩
    · rcases h1.kept b hb hb' with ⟨e1, e2⟩ | ⟨e1, e2⟩ <;>
        rcases k2 b hb' hb'' with ⟨e3, e4⟩ | ⟨e3, e4⟩
      · exact .inl ⟨e3.trans e1, fun h => (e4 h).trans (e2 h)⟩
      · exact .inr ⟨e3, h1.loose e1 e4⟩
      · exact .inr ⟨e3.trans e1, e2⟩
      · exact .inr ⟨e3, e2⟩
  · rcases h1.left b hb with h | h
    · exact l2 b h
    · by_cases hb'' : g''.whose b = .node (g.inum k)
      · exact .inl hb''
      · rcases k2 b (by rw [h]; exact fun h => (nomatch h)) hb'' with ⟨e, _⟩ | ⟨e, _⟩
        · exact .inr (e.trans h)
        · exact .inr e
  · by_cases hg : g.whose b = .node (g.inum k)
    · exact .inl hg
    refine .inr ?_
    by_cases hb' : g'.whose b = .node (g.inum k)
    · exact (h1.taken b hb').resolve_left hg
    · rcases h1.kept b hg hb' with ⟨e, _⟩ | ⟨_, h⟩
      · exact h1.loose e ((t2 b hb).resolve_left hb')
      · exact h

end Local
/-! ## Adding blocks -/

/-- `p` has inode `k` locked and in memory; its slots have the blocks that it owns -/
structure Has (sb : FsSuper) (p : P) (k : Fin K) (g : Ghost P K M) : Prop extends Locked p k g where
  lt : g.inum k < sb.ninodes
  data : ∀ b, g.whose b = .node (g.inum k) → sb.nmeta ≤ b ∧ b < sb.size
  owns : (g.d k).Owns g.s.blk (· < NSLOT) (fun b => g.whose b = .node (g.inum k))

theorem Clean.has (hc : Clean sb p k g) : Has sb p k g := ⟨hc.toLocked, hc.node.lt, hc.node.data, hc.node.owns⟩

/-- slot `n` of the inode in entry `k` -/
abbrev Ghost.slot (g : Ghost P K M) (k : Fin K) (n : ℕ) : ℕ := (g.d k).slot g.s.blk n

/-- the fields but for the addresses -/
structure Kind (d d' : Dinode) : Prop where
  type : d'.type = d.type
  major : d'.major = d.major
  minor : d'.minor = d.minor
  nlink : d'.nlink = d.nlink

theorem Kind.refl (d : Dinode) : Kind d d := ⟨rfl, rfl, rfl, rfl⟩

theorem Kind.trans {a b c : Dinode} (h : Kind a b) (h' : Kind b c) : Kind a c :=
  ⟨h'.type.trans h.type, h'.major.trans h.major, h'.minor.trans h.minor, h'.nlink.trans h.nlink⟩

/-- blocks are added to the inode, filled with zeros -/
structure Grown (sb : FsSuper) (L : Logic (Fsys P K M) (FsLabel P) FsPanic (Ghost P K M)) (p : P)
    (k : Fin K) (g g' : Ghost P K M) : Prop where
  loc : Local sb L p k g g'
  has : Has sb p k g'
  kind : Kind (g.d k) (g'.d k)
  size : (g'.d k).size = (g.d k).size
  slot : ∀ m < NSLOT, g.slot k m ≠ 0 → g'.slot k m = g.slot k m
  data : ∀ m < NSLOT, m ≠ NDIRECT → g.slot k m ≠ 0 → g'.s.blk (g.slot k m) = g.s.blk (g.slot k m)
  zero : ∀ m < NSLOT, m ≠ NDIRECT → g.slot k m = 0 → g'.slot k m ≠ 0 →
    g'.s.blk (g'.slot k m) = fun _ => 0

theorem Grown.refl (L : Logic (Fsys P K M) (FsLabel P) FsPanic (Ghost P K M)) (hg : Has sb p k g) :
    Grown sb L p k g g :=
  ⟨.refl sb L p k g, hg, .refl _, rfl, fun _ _ _ => rfl, fun _ _ _ _ => rfl,
    fun _ _ _ h0 h => absurd h0 h⟩

theorem Grown.trans (h1 : Grown sb L p k g g') (h2 : Grown sb L p k g' g'') :
    Grown sb L p k g g'' := by
  refine ⟨h1.loc.trans h2.loc, h2.has, h1.kind.trans h2.kind, h2.size.trans h1.size,
    fun m hm h0 => ?_, fun m hm hne h0 => ?_, fun m hm hne h0 h0' => ?_⟩
  · have e := h1.slot m hm h0
    rw [h2.slot m hm (e ▸ h0), e]
  · have e := h1.slot m hm h0
    have := h2.data m hm hne (e ▸ h0)
    rw [e] at this
    rw [this, h1.data m hm hne h0]
  · by_cases hz : g'.slot k m = 0
    · exact h2.zero m hm hne hz h0'
    · rw [h2.slot m hm hz, h2.data m hm hne hz]
      exact h1.zero m hm hne h0 hz

theorem grown_attach [Fintype P] (kit : Kit sb p L) {a n : ℕ} (hg : Has sb p k g)
    (ht : Taken sb L p a g g') (hn : n < NSLOT) (h0 : g.slot k n = 0) {d : Dinode}
    (hk : Kind (g.d k) d) (hsz : d.size = (g.d k).size)
    (hs : ∀ m < NSLOT, d.slot g''.s.blk m = if m = n then a else g.slot k m)
    (hb : ∀ b, sb.nmeta ≤ b → b ≠ a → b ≠ (g.d k).addr NDIRECT → g''.s.blk b = g.s.blk b)
    (hz : n ≠ NDIRECT → g''.s.blk a = fun _ => 0)
    (hd : ∀ j < sb.ninodes, sb.dinode g''.s.blk j = sb.dinode g.s.blk j)
    (hw : g''.whose = update g.whose a (.node (g.inum k)))
    (hv : g''.view = g.view) (hl : g''.s.lock = g.s.lock) (hf : g''.s.file = g.s.file)
    (hc : g''.s.cwd = g.s.cwd) (ho : g''.s.ofile = g.s.ofile)
    (hi : g''.s.inode = update g.s.inode k ((g.s.inode k).withD d)) :
    Grown sb L p k g g'' := by
  have hself : g''.s.inode k = (g.s.inode k).withD d := by rw [hi, update_self]
  have hdk : g''.d k = d := by rw [Ghost.d, hself]; rfl
  have hinum : g''.inum k = g.inum k := by rw [Ghost.inum, hself]; rfl
  have hnot := ht.not_mine kit
  have hloose : Loose L p g a := by
    refine ⟨hnot, fun al => ?_⟩
    obtain ⟨h, hr, _, hfree⟩ := ht.free
    rw [al g h hr] at hfree
    exact hfree
  have hna : g.whose a ≠ .node (g.inum k) := fun e => hnot (.inr ⟨k, hg.lock, hg.valid, e⟩)
  have hind : ∀ b, g.whose b ≠ .node (g.inum k) → sb.nmeta ≤ b → b ≠ (g.d k).addr NDIRECT := by
    intro b hb hm e
    by_cases hz : (g.d k).addr NDIRECT = 0
    · have := nmeta_pos sb
      omega
    · exact hb (e ▸ hg.owns.indirect hz)
  have hdata := ht.data
  have hpos := nmeta_pos sb
  have howns : d.Owns g''.s.blk (· < NSLOT) (fun b => g''.whose b = .node (g.inum k)) := by
    refine hg.owns.insert hn h0 (by omega : a ≠ 0) hna (fun c => ?_) hs
    rw [hw]
    by_cases hca : c = a
    · subst hca
      rw [update_self]
      exact ⟨fun _ => .inl rfl, fun _ => rfl⟩
    · rw [update_of_ne hca]
      exact ⟨.inr, fun h => h.resolve_left hca⟩
  have hne : ∀ m < NSLOT, m ≠ NDIRECT → g.slot k m ≠ 0 → g.slot k m ≠ a ∧
      g.slot k m ≠ (g.d k).addr NDIRECT := by
    intro m hm hmn hz
    refine ⟨fun e => hna (e ▸ hg.owns.mem m hm hz), fun e => hmn ?_⟩
    rw [← @Dinode.slot_direct (g.d k) g.s.blk _ (Nat.le_refl NDIRECT)] at e
    exact hg.owns.inj m NDIRECT hm (by decide) hz e
  refine ⟨⟨hv, hl, hf, hc, ho, by rw [hdk]; exact hi, fun j hj _ => hd j hj, fun b h1 h2 => ?_,
    fun b h1 => ?_, fun b h1 => ?_⟩, ⟨⟨by rw [hl]; exact hg.lock, by rw [hself]; exact hg.valid⟩,
    by rw [hinum]; exact hg.lt, fun b hb => ?_, by rw [hdk, hinum]; exact howns⟩, by rw [hdk]; exact hk, by rw [hdk]; exact hsz,
    fun m hm hz => ?_, fun m hm hmn hz => ?_, fun m hm hmn hm0 hm' => ?_⟩
  · by_cases hba : b = a
    · rw [hba, hw, update_self] at h2
      exact absurd rfl h2
    · rw [hw, update_of_ne hba]
      exact .inl ⟨rfl, fun hm => hb b hm hba (hind b h1 hm)⟩
  · left
    by_cases hba : b = a
    · rw [hba, hw, update_self]
    · rw [hw, update_of_ne hba]
      exact h1
  · by_cases hba : b = a
    · rw [hba]
      exact .inr hloose
    · rw [hw, update_of_ne hba] at h1
      exact .inl h1
  · rw [hinum, hw] at hb
    by_cases hba : b = a
    · rw [hba]
      exact ⟨hdata, ht.lt⟩
    · rw [update_of_ne hba] at hb
      exact hg.data b hb
  · rw [Ghost.slot, hdk, hs m hm, if_neg fun e => hz (by rw [e, h0])]
  · obtain ⟨e1, e2⟩ := hne m hm hmn hz
    exact hb _ (hg.data _ (hg.owns.mem m hm hz)).1 e1 e2
  · rw [Ghost.slot, hdk, hs m hm] at hm' ⊢
    split
    · rename_i e
      exact hz (e ▸ hmn)
    · rename_i e
      rw [if_neg e] at hm'
      exact absurd hm0 hm'

section
variable [Fintype P]

theorem Has.mine (hg : Has sb p k g) {b : ℕ} (hb : g.whose b = .node (g.inum k)) : Mine p g b :=
  .inr ⟨k, hg.lock, hg.valid, hb⟩

theorem size_lt (hok : sb.Ok) {a : ℕ} (h : a < sb.size) : a < 2 ^ 32 := by
  have := hok.size
  omega

theorem bmapAddr_gives (kit : Kit sb p L) (hok : sb.Ok) (hg : Has sb p k g) {j : ℕ}
    (hj : j ≤ NDIRECT) :
    L.Gives g (bmapAddr sb false k j) fun a g' => Grown sb L p k g g' ∧
      (a ≠ 0 → g'.slot k j = a) ∧ (a = 0 → g.slot k j = 0 ∧ NoFree sb L g') ∧
      ∀ m < NSLOT, m ≠ j → g'.slot k m = g.slot k m := by
  have hjs : j < NSLOT := lt_of_le_of_lt hj (by decide)
  refine (fields_gives kit hg.lock).bind fun d g1 e => ?_
  obtain ⟨rfl, rfl⟩ := e
  have hsl : g1.slot k j = (g1.s.inode k).d.addr j := Dinode.slot_direct hj
  split
  · rename_i h0
    refine (balloc_gives kit hok).bind fun a g2 h2 => ?_
    rcases h2 with ⟨rfl, rfl, hno⟩ | ⟨ha, ht, hz⟩
    · exact .pure ⟨.refl L hg, fun h => absurd rfl h, fun _ => ⟨hsl.trans h0, hno⟩, fun _ _ _ => rfl⟩
    · rw [if_pos ha]
      have hdata := ht.data
      have hlt := size_lt hok ht.lt
      have hna : g1.whose a ≠ .node (g1.inum k) := fun e => ht.not_mine kit (hg.mine e)
      obtain ⟨blk, lg, rfl, hblk, hdi⟩ := ht.eq
      have hown : (g1.disk blk lg (update g1.whose a (.thread p))).whose a = .thread p :=
        update_self ..
      have hk : Locked p k (g1.disk blk lg (update g1.whose a (.thread p))) :=
        ⟨hg.lock, hg.valid⟩
      refine (setFields_gives kit hk (fun d => d.setAddr j a) (.inl rfl)
        (.attach (k := k) hown hk.lock hk.valid)).bind fun _ g3 e3 => .pure ?_
      subst e3
      have hslots : ∀ m < NSLOT, (g1.d k |>.setAddr j a).slot blk m =
          if m = j then a else g1.slot k m := fun m _ => by
        refine Dinode.slot_setAddr hj hlt h0 (fun _ => hz) fun hi => ?_
        have hw := hg.owns.indirect hi
        exact hblk _ (hg.data _ hw).1 fun e => hna (e ▸ hw)
      refine ⟨grown_attach kit hg ht hjs (hsl.trans h0) (d := (g1.d k).setAddr j a)
        ⟨rfl, rfl, rfl, rfl⟩ rfl hslots (fun b hb hba _ => hblk b hb hba) (fun _ => hz) hdi
        (update_idem ..) rfl rfl rfl rfl rfl rfl, fun _ => ?_, fun h => absurd h ha,
        fun m hm hmj => ?_⟩
      · show Dinode.slot (((_ : Ghost P K M).s.inode k).d) blk j = a
        rw [inode_self]
        exact (hslots j hjs).trans (if_pos rfl)
      · show Dinode.slot (((_ : Ghost P K M).s.inode k).d) blk m = _
        rw [inode_self]
        exact (hslots m hm).trans (if_neg hmj)
  · rename_i h0
    exact .pure ⟨.refl L hg, fun _ => hsl, fun h => absurd h h0, fun _ _ _ => rfl⟩

theorem readBlock_gives (kit : Kit sb p L) {b : ℕ} (hb : Mine p g b) (f : Block → α) :
    L.Gives g (Code.read fun s => f (s.blk b)) fun a g' => a = f (g.s.blk b) ∧ g' = g := by
  refine (kit.read _).mono fun a g' h => ?_
  obtain ⟨rfl, h', hr, _, rfl⟩ := h
  exact ⟨by rw [((kit.rely _ _ hr).own b hb).2], rfl⟩

theorem slot_addr {j : ℕ} (hj : j ≤ NDIRECT) : g.slot k j = (g.d k).addr j := Dinode.slot_direct hj

theorem slot_int {bn : ℕ} (h : NDIRECT ≤ bn) (hz : (g.d k).addr NDIRECT ≠ 0) :
    ((g.s.blk ((g.d k).addr NDIRECT)).int (bn - NDIRECT)).toNat = g.slot k (fileSlot bn) := by
  have e : fileSlot bn = bn + 1 := if_neg (by omega)
  rw [e, Ghost.slot, Dinode.slot_indirect (by omega) hz, Nat.add_sub_add_right]

/-- **`bmap`** for `writei`: the block of index `bn`, which may be new -/
theorem bmap_gives (kit : Kit sb p L) (hok : sb.Ok) (hg : Has sb p k g) {bn : ℕ}
    (hbn : bn < MAXFILE) :
    L.Gives g (bmap sb false k bn) fun a g' => Grown sb L p k g g' ∧
      (a ≠ 0 → g'.slot k (fileSlot bn) = a) ∧
      (a = 0 → g.slot k (fileSlot bn) = 0 ∧ NoFree sb L g') ∧
      ∀ m < NSLOT, m ≠ NDIRECT → m ≠ fileSlot bn → g'.slot k m = g.slot k m := by
  unfold bmap
  by_cases hdir : bn < NDIRECT
  · rw [if_pos hdir, show fileSlot bn = bn from if_pos hdir]
    refine (bmapAddr_gives kit hok hg (by omega)).mono fun a g' h => ⟨h.1, h.2.1, h.2.2.1, ?_⟩
    exact fun m hm _ hne => h.2.2.2 m hm hne
  rw [if_neg hdir, if_pos (by unfold MAXFILE at hbn; omega)]
  have hn : fileSlot bn = NDIRECT + 1 + (bn - NDIRECT) := by
    rw [fileSlot, if_neg hdir]
    omega
  have hns : fileSlot bn < NSLOT := fileSlot_lt hbn
  refine (bmapAddr_gives kit hok hg (Nat.le_refl _)).bind fun bp g1 h1 => ?_
  obtain ⟨hgr, hne, hz, hothers⟩ := h1
  by_cases hbp : bp = 0
  · rw [if_pos hbp]
    refine .pure ⟨hgr, fun h => absurd rfl h, fun _ => ⟨?_, (hz hbp).2⟩, fun m hm h _ => hothers m hm h⟩
    exact Dinode.slot_indirect_zero (by omega) ((slot_addr (Nat.le_refl _)).symm.trans (hz hbp).1)
  rw [if_neg hbp]
  have hi : (g1.d k).addr NDIRECT = bp := (slot_addr (Nat.le_refl _)).symm.trans (hne hbp)
  have hi0 : (g1.d k).addr NDIRECT ≠ 0 := by rw [hi]; exact hbp
  have hw : g1.whose bp = .node (g1.inum k) := hi ▸ hgr.has.owns.indirect hi0
  have hslot := slot_int (g := g1) (k := k) (Nat.le_of_not_lt hdir) hi0
  rw [hi] at hslot
  refine (readBlock_gives kit (hgr.has.mine hw) fun x => (x.int (bn - NDIRECT)).toNat).bind
    fun a g2 e => ?_
  obtain ⟨rfl, rfl⟩ := e
  rw [hslot]
  have hback : g2.slot k (fileSlot bn) = 0 → g.slot k (fileSlot bn) = 0 := fun h => by
    by_contra hne
    rw [hgr.slot _ hns hne] at h
    exact hne h
  split
  · rename_i h0
    refine (balloc_gives kit hok).bind fun a g3 h3 => ?_
    rcases h3 with ⟨rfl, rfl, hno⟩ | ⟨ha, ht, hzero⟩
    · exact .pure ⟨hgr, fun h => absurd rfl h, fun _ => ⟨hback h0, hno⟩, fun m hm h _ => hothers m hm h⟩
    · rw [if_pos ha]
      have hlt := size_lt hok ht.lt
      have hna : g2.whose a ≠ .node (g2.inum k) := fun e => ht.not_mine kit (hgr.has.mine e)
      have hab : bp ≠ a := fun e => hna (e ▸ hw)
      have hbd := (hgr.has.data bp hw).1
      have hdata := ht.data
      obtain ⟨blk, lg, rfl, hblk, hdi⟩ := ht.eq
      have hown : (g2.disk blk lg (update g2.whose a (.thread p))).whose a = .thread p :=
        update_self ..
      have hmine : Mine p (g2.disk blk lg (update g2.whose a (.thread p))) bp := by
        refine .inr ⟨k, hgr.has.lock, hgr.has.valid, ?_⟩
        exact (update_of_ne hab _ _).trans hw
      refine (write_gives kit hok hmine (.attach (k := k) hown hgr.has.lock hgr.has.valid)
        fun x => x.setInt (bn - NDIRECT) (BitVec.ofNat 32 a)).bind fun _ g4 e4 => .pure ?_
      subst e4
      have hslots : ∀ m < NSLOT, (g2.d k).slot (update blk bp
          ((blk bp).setInt (bn - NDIRECT) (BitVec.ofNat 32 a))) m =
          if m = fileSlot bn then a else g2.slot k m := fun m _ => by
        rw [hn]
        refine Dinode.slot_setInt hlt hi0 ?_
        rw [hi, update_self, hblk bp hbd hab]
      refine ⟨hgr.trans (grown_attach kit hgr.has ht hns h0 (d := g2.d k) (.refl _) rfl hslots
        (fun b hb hba hbi => ?_) (fun _ => ?_) (fun j hj => ?_) (update_idem ..) rfl rfl rfl
        rfl rfl (update_eq_self ..).symm), fun _ => (hslots _ hns).trans (if_pos rfl),
        fun h => absurd h ha, fun m hm hmn hmb => ?_⟩
      · rw [hi] at hbi
        exact (update_of_ne hbi _ _).trans (hblk b hb hba)
      · exact (update_of_ne (Ne.symm hab) _ _).trans hzero
      · exact (hok.dinode_data hbd hj).trans (hdi j hj)
      · exact ((hslots m hm).trans (if_neg hmb)).trans (hothers m hm hmn)
  · rename_i h0
    exact .pure ⟨hgr, fun _ => rfl, fun h => absurd h h0, fun m hm h _ => hothers m hm h⟩

/-- `bmap` for an index that has a block: nothing is allocated -/
theorem bmap_read (kit : Kit sb p L) (hg : Has sb p k g) {bn : ℕ} (hbn : bn < MAXFILE)
    (h0 : g.slot k (fileSlot bn) ≠ 0) (reading : Bool) :
    L.Gives g (bmap sb reading k bn) fun a g' => a = g.slot k (fileSlot bn) ∧ g' = g := by
  have addr : ∀ j, j ≤ NDIRECT → g.slot k j ≠ 0 →
      L.Gives g (bmapAddr sb reading k j) fun a g' => a = g.slot k j ∧ g' = g := by
    intro j hj hz
    refine (fields_gives kit hg.lock).bind fun d g1 e => ?_
    obtain ⟨rfl, rfl⟩ := e
    rw [slot_addr hj] at hz ⊢
    rw [if_neg hz]
    exact .pure ⟨rfl, rfl⟩
  unfold bmap
  by_cases hdir : bn < NDIRECT
  · rw [show fileSlot bn = bn from if_pos hdir] at h0 ⊢
    rw [if_pos hdir]
    exact addr bn (by omega) h0
  rw [if_neg hdir, if_pos (by unfold MAXFILE at hbn; omega)]
  have hi : (g.d k).addr NDIRECT ≠ 0 := fun e => by
    have hn : fileSlot bn = bn + 1 := if_neg hdir
    exact h0 (Dinode.slot_indirect_zero (by omega) e)
  have hw := hg.owns.indirect hi
  refine (addr NDIRECT (Nat.le_refl _) (by rw [slot_addr (Nat.le_refl _)]; exact hi)).bind
    fun bp g1 e => ?_
  obtain ⟨rfl, rfl⟩ := e
  rw [slot_addr (Nat.le_refl _), if_neg hi]
  refine (readBlock_gives kit (hg.mine hw) fun x => (x.int (bn - NDIRECT)).toNat).bind
    fun a g2 e => ?_
  obtain ⟨rfl, rfl⟩ := e
  rw [slot_int (Nat.le_of_not_lt hdir) hi, if_neg h0]
  exact .pure ⟨rfl, rfl⟩

/-! ## `readi` -/

theorem mappedLen_mapped {β : Type} (src : ℕ → Option β) (o m : ℕ) :
    ∀ i < mappedLen src o m, (src (o + i)).isSome = true := by
  induction m generalizing o with
  | zero => exact fun i hi => by cases hi
  | succ m ih =>
    intro i hi
    unfold mappedLen at hi
    split at hi
    · cases i with
      | zero => assumption
      | succ i =>
        rw [show o + (i + 1) = o + 1 + i by omega]
        exact ih (o + 1) i (by omega)
    · cases hi

theorem mappedLen_stop {β : Type} (src : ℕ → Option β) (o m : ℕ) (h : mappedLen src o m < m) :
    src (o + mappedLen src o m) = none := by
  induction m generalizing o with
  | zero => cases h
  | succ m ih =>
    unfold mappedLen at h ⊢
    split
    · rename_i hs
      rw [if_pos hs] at h
      rw [show o + (mappedLen src (o + 1) m + 1) = o + 1 + mappedLen src (o + 1) m by omega]
      exact ih (o + 1) (by omega)
    · rename_i hs
      rw [Nat.add_zero]
      exact Option.not_isSome_iff_eq_none.1 hs

/-- the byte at offset `o` of the inode in entry `k` -/
abbrev Ghost.byte (g : Ghost P K M) (k : Fin K) (o : ℕ) : Byte := (g.d k).content g.s.blk o

/-- `l` bytes of the inode from `off` on -/
def Ghost.bytes (g : Ghost P K M) (k : Fin K) (off l : ℕ) : List Byte :=
  (List.range l).map fun i => g.byte k (off + i)

theorem bytes_length (g : Ghost P K M) (k : Fin K) (off l : ℕ) : (g.bytes k off l).length = l := by
  simp [Ghost.bytes]

theorem block_div {o i : ℕ} (h : i < BSIZE - o % BSIZE) :
    (o + i) / BSIZE = o / BSIZE ∧ (o + i) % BSIZE = o % BSIZE + i := by
  have hB : 0 < BSIZE := by decide
  have e := Nat.div_add_mod o BSIZE
  have hlt : o % BSIZE + i < BSIZE := by omega
  have e2 : o + i = BSIZE * (o / BSIZE) + (o % BSIZE + i) := by omega
  rw [e2]
  constructor
  · rw [Nat.mul_add_div hB, Nat.div_eq_of_lt hlt, Nat.add_zero]
  · rw [Nat.mul_add_mod, Nat.mod_eq_of_lt hlt]

theorem bytes_block {off l : ℕ} (h : l ≤ BSIZE - off % BSIZE) :
    (g.s.blk (g.slot k (fileSlot (off / BSIZE)))).bytes (off % BSIZE) l = g.bytes k off l := by
  refine List.map_congr_left fun i hi => ?_
  obtain ⟨e1, e2⟩ := block_div (lt_of_lt_of_le (List.mem_range.1 hi) h)
  show _ = g.s.blk _ _
  rw [e1, e2]

theorem bytes_add (off a b : ℕ) : g.bytes k off a ++ g.bytes k (off + a) b = g.bytes k off (a + b) := by
  unfold Ghost.bytes
  rw [List.range_add, List.map_append, List.map_map]
  congr 1
  refine List.map_congr_left fun i _ => ?_
  show _ = g.byte k (off + (a + i))
  rw [Nat.add_assoc]

/-- `p` has inode `k` locked, with a block for every index below its size -/
structure Full (sb : FsSuper) (p : P) (k : Fin K) (g : Ghost P K M) : Prop extends Has sb p k g where
  covers : (g.d k).Covers g.s.blk

theorem Clean.full (hc : Clean sb p k g) : Full sb p k g := ⟨hc.has, hc.node.covers⟩

theorem Full.slot (hf : Full sb p k g) {o : ℕ} (ho : o < (g.d k).size.toNat) :
    o / BSIZE < MAXFILE ∧ g.slot k (fileSlot (o / BSIZE)) ≠ 0 := by
  have hs := hf.covers.size
  refine ⟨(Nat.div_lt_iff_lt_mul (by decide)).2 (lt_of_lt_of_le ho hs), hf.covers.slot _ ?_⟩
  exact lt_of_le_of_lt (Nat.div_mul_le_self o BSIZE) ho

theorem readiLoop_gives (kit : Kit sb p L) (hf : Full sb p k g) (dst : ℕ → Option Unit) {off n : ℕ}
    (hn : off + n ≤ (g.d k).size.toNat) (fuel : ℕ) {tot : ℕ} (htot : tot ≤ n)
    (hfuel : n - tot ≤ fuel) :
    L.Gives g (readiLoop sb k dst n fuel tot (off + tot) (g.bytes k off tot)) fun r g' => g' = g ∧
      ∃ l ≤ n, r.2 = g.bytes k off l ∧
        (r.1 = some n ∧ l = n ∨ r.1 = none ∧ ∃ i < n, dst i = none) := by
  induction fuel generalizing tot with
  | zero =>
    have e : tot = n := by omega
    subst e
    exact .pure ⟨rfl, tot, Nat.le_refl _, rfl, .inl ⟨rfl, rfl⟩⟩
  | succ fuel ih =>
    unfold readiLoop
    by_cases hlt : tot < n
    · rw [if_pos hlt]
      obtain ⟨hbn, h0⟩ := hf.slot (o := off + tot) (by omega)
      refine (bmap_read kit hf.toHas hbn h0 true).bind fun a g1 e => ?_
      obtain ⟨rfl, rfl⟩ := e
      rw [if_neg h0]
      have hmine := hf.mine (hf.owns.mem _ (fileSlot_lt hbn) h0)
      refine (readBlock_gives kit hmine id).bind fun x g2 e => ?_
      obtain ⟨rfl, rfl⟩ := e
      dsimp only [id]
      generalize hm : min (n - tot) (BSIZE - (off + tot) % BSIZE) = m
      have hl := mappedLen_le dst tot m
      rw [bytes_block (by omega), bytes_add]
      by_cases hlm : mappedLen dst tot m < m
      · rw [if_pos hlm]
        exact .pure ⟨rfl, _, by omega, rfl, .inr ⟨rfl, tot + mappedLen dst tot m, by omega,
          mappedLen_stop dst tot m hlm⟩⟩
      · rw [if_neg hlm]
        have e : mappedLen dst tot m = m := by omega
        have hpos : 0 < m := by
          have : (off + tot) % BSIZE < BSIZE := Nat.mod_lt _ (by decide)
          omega
        rw [e, Nat.add_assoc]
        exact ih (by omega) (by omega)
    · rw [if_neg hlt]
      have e : tot = n := by omega
      subst e
      exact .pure ⟨rfl, tot, Nat.le_refl _, rfl, .inl ⟨rfl, rfl⟩⟩

/-- how many bytes there are to read -/
def readLen (size off n : ℕ) : ℕ :=
  if off > size ∨ (off + n) % 2 ^ 32 < off then 0 else min n (size - off)

/-- **`readi`** returns bytes of the inode: all that there are, or those before the first that cannot
be stored -/
theorem readi_gives (kit : Kit sb p L) (hf : Full sb p k g) (dst : ℕ → Option Unit) (off : ℕ) {n : ℕ}
    (hn : n < 2 ^ 32) :
    L.Gives g (readi sb k dst off n) fun r g' => g' = g ∧
      ∃ l ≤ readLen (g.d k).size.toNat off n, r.2 = g.bytes k off l ∧
        (r.1 = l ∧ l = readLen (g.d k).size.toNat off n ∨
          r.1 = -1 ∧ ∃ i < readLen (g.d k).size.toNat off n, dst i = none) := by
  refine (fields_gives kit hf.lock).bind fun d g1 e => ?_
  obtain ⟨rfl, rfl⟩ := e
  dsimp only
  by_cases herr : off > (g1.d k).size.toNat ∨ (off + n) % 2 ^ 32 < off
  · rw [if_pos herr]
    have e : readLen (g1.d k).size.toNat off n = 0 := if_pos herr
    rw [e]
    exact .pure ⟨rfl, 0, Nat.le_refl _, rfl, .inl ⟨rfl, rfl⟩⟩
  · rw [if_neg herr]
    have e : readLen (g1.d k).size.toNat off n = min n ((g1.d k).size.toNat - off) := if_neg herr
    have hsz := hf.covers.size
    have hmax : MAXFILE * BSIZE < 2 ^ 32 := by decide
    have hmod : (off + n) % 2 ^ 32 = off + n := by
      by_contra hne
      have : 2 ^ 32 ≤ off + n := by
        by_contra hlt
        exact hne (Nat.mod_eq_of_lt (by omega))
      have : (off + n) % 2 ^ 32 = off + n - 2 ^ 32 := by
        rw [Nat.mod_eq_sub_mod this, Nat.mod_eq_of_lt (by omega)]
      omega
    have hlen : (if (off + n) % 2 ^ 32 > (g1.d k).size.toNat
        then (g1.d k).size.toNat - off else n) =
        readLen (g1.d k).size.toNat off n := by
      rw [hmod, e]
      split <;> omega
    rw [hlen]
    have hle : off + readLen (g1.d k).size.toNat off n ≤ (g1.d k).size.toNat := by
      rw [e]
      omega
    refine (readiLoop_gives kit hf dst hle _ (Nat.zero_le _) (Nat.le_refl _)).bind fun r g2 h2 => ?_
    obtain ⟨rfl, l, hl, hout, hres⟩ := h2
    obtain ⟨r1, r2⟩ := r
    dsimp only at hout hres
    subst hout
    rcases hres with ⟨rfl, hl⟩ | ⟨rfl, hi⟩
    · exact .pure ⟨rfl, l, by omega, rfl, .inl ⟨by rw [hl], hl⟩⟩
    · exact .pure ⟨rfl, l, hl, rfl, .inr ⟨rfl, hi⟩⟩

/-! ## `writei` -/

/-- `w` bytes of `src` are stored from `off` on; blocks that are new have zeros but for them -/
structure Stored (sb : FsSuper) (L : Logic (Fsys P K M) (FsLabel P) FsPanic (Ghost P K M)) (p : P)
    (k : Fin K) (src : ℕ → Option Byte) (off w : ℕ) (g g' : Ghost P K M) : Prop where
  loc : Local sb L p k g g'
  has : Has sb p k g'
  kind : Kind (g.d k) (g'.d k)
  size : (g'.d k).size = (g.d k).size
  slot : ∀ m < NSLOT, g.slot k m ≠ 0 → g'.slot k m = g.slot k m
  cover : ∀ o, off ≤ o → o < off + w → o / BSIZE < MAXFILE ∧ g'.slot k (fileSlot (o / BSIZE)) ≠ 0
  byte : ∀ o, o / BSIZE < MAXFILE → g'.slot k (fileSlot (o / BSIZE)) ≠ 0 → g'.byte k o =
    if off ≤ o ∧ o < off + w then (src (o - off)).getD 0
    else if g.slot k (fileSlot (o / BSIZE)) ≠ 0 then g.byte k o else 0

variable {src : ℕ → Option Byte} {off w : ℕ}

theorem Stored.refl (L : Logic (Fsys P K M) (FsLabel P) FsPanic (Ghost P K M)) (hg : Has sb p k g) :
    Stored sb L p k src off 0 g g := by
  refine ⟨.refl sb L p k g, hg, .refl _, rfl, fun _ _ _ => rfl, fun o h1 h2 => by omega,
    fun o _ h0 => ?_⟩
  rw [if_neg (by omega), if_pos h0]

theorem Stored.grow (hs : Stored sb L p k src off w g g') (hg : Grown sb L p k g' g'') :
    Stored sb L p k src off w g g'' := by
  refine ⟨hs.loc.trans hg.loc, hg.has, hs.kind.trans hg.kind, hg.size.trans hs.size,
    fun m hm h0 => ?_, fun o h1 h2 => ?_, fun o hb h0 => ?_⟩
  · have e := hs.slot m hm h0
    rw [hg.slot m hm (e ▸ h0), e]
  · obtain ⟨hb, h0⟩ := hs.cover o h1 h2
    refine ⟨hb, ?_⟩
    rw [hg.slot _ (fileSlot_lt hb) h0]
    exact h0
  · by_cases hz : g'.slot k (fileSlot (o / BSIZE)) = 0
    · have hno : ¬ (off ≤ o ∧ o < off + w) := fun h => (hs.cover o h.1 h.2).2 hz
      have hz0 : g.slot k (fileSlot (o / BSIZE)) = 0 := by
        by_contra hne
        rw [hs.slot _ (fileSlot_lt hb) hne] at hz
        exact hne hz
      rw [if_neg hno, if_neg (not_not.2 hz0)]
      show g''.s.blk (g''.slot k _) _ = 0
      rw [hg.zero _ (fileSlot_lt hb) (fileSlot_ne _) hz h0]
    · rw [← hs.byte o hb hz]
      show g''.s.blk (g''.slot k _) _ = g'.s.blk (g'.slot k _) _
      rw [hg.slot _ (fileSlot_lt hb) hz, hg.data _ (fileSlot_lt hb) (fileSlot_ne _) hz]

/-- a block of the inode that is not the indirect one is written -/
theorem Has.write (hok : sb.Ok) (hg : Has sb p k g) {m : ℕ} (hm : m < NSLOT) (hne : m ≠ NDIRECT)
    (h0 : g.slot k m ≠ 0) (x : Block) (lg : List ℕ) :
    Local sb L p k g (g.disk (update g.s.blk (g.slot k m) x) lg g.whose) ∧
      Has sb p k (g.disk (update g.s.blk (g.slot k m) x) lg g.whose) ∧
      ∀ n, (g.disk (update g.s.blk (g.slot k m) x) lg g.whose).slot k n = g.slot k n := by
  have hw := hg.owns.mem m hm h0
  have hd := (hg.data _ hw).1
  have hslot : ∀ n, (g.disk (update g.s.blk (g.slot k m) x) lg g.whose).slot k n =
      g.slot k n := by
    refine Dinode.slot_congr (fun _ => rfl) fun hi => update_of_ne (fun e => hne ?_) _ _
    refine (hg.owns.inj NDIRECT m (by decide) hm ?_ ?_).symm
    · rw [Dinode.slot_direct (Nat.le_refl _)]
      exact hi
    · rw [Dinode.slot_direct (Nat.le_refl _)]
      exact e
  refine ⟨⟨rfl, rfl, rfl, rfl, rfl, (update_eq_self ..).symm, fun j hj _ =>
    hok.dinode_data hd hj, fun b h1 _ => .inl ⟨rfl, fun _ => update_of_ne (fun e => ?_) _ _⟩,
    fun b h => .inl h, fun b h => .inl h⟩, ⟨⟨hg.lock, hg.valid⟩, hg.lt, hg.data, ?_⟩, hslot⟩
  · exact h1 (e ▸ hw)
  · exact hg.owns.congr (fun _ => .rfl) (fun n hn _ => ⟨hn, hslot n⟩) fun n hn _ => ⟨hn, (hslot n).symm⟩

theorem Stored.write (hok : sb.Ok) (hs : Stored sb L p k src off w g g') {l : ℕ}
    (hl : l ≤ BSIZE - (off + w) % BSIZE) (hb : (off + w) / BSIZE < MAXFILE)
    (h0 : g'.slot k (fileSlot ((off + w) / BSIZE)) ≠ 0) (lg : List ℕ) :
    Stored sb L p k src off (w + l) g
      (g'.disk (update g'.s.blk (g'.slot k (fileSlot ((off + w) / BSIZE)))
        ((g'.s.blk (g'.slot k (fileSlot ((off + w) / BSIZE)))).splice ((off + w) % BSIZE) src w l))
        lg g'.whose) := by
  obtain ⟨h1, h2, hslot⟩ := hs.has.write (L := L) hok (fileSlot_lt hb) (fileSlot_ne _) h0
    ((g'.s.blk (g'.slot k (fileSlot ((off + w) / BSIZE)))).splice ((off + w) % BSIZE) src w l) lg
  refine ⟨hs.loc.trans h1, h2, hs.kind, hs.size, fun m hm hz => (hslot m).trans (hs.slot m hm hz),
    fun o ho1 ho2 => ?_, fun o hbo hz => ?_⟩
  · rw [hslot]
    by_cases ho : o < off + w
    · exact hs.cover o ho1 ho
    · have := (block_div (o := off + w) (i := o - (off + w)) (by omega)).1
      rw [show off + w + (o - (off + w)) = o by omega] at this
      rw [this]
      exact ⟨hb, h0⟩
  · rw [hslot] at hz
    show update g'.s.blk _ _ (Ghost.slot _ k _) (o % BSIZE) = _
    rw [hslot]
    by_cases hsame : o / BSIZE = (off + w) / BSIZE
    · -- the block that is written
      rw [hsame, update_self]
      have e1 := Nat.div_add_mod o BSIZE
      have e2 := Nat.div_add_mod (off + w) BSIZE
      have hlt : (off + w) % BSIZE < BSIZE := Nat.mod_lt _ (by decide)
      rw [hsame] at e1
      have e3 : o + (off + w) % BSIZE = off + w + o % BSIZE := by
        generalize BSIZE * ((off + w) / BSIZE) = c at e1 e2
        omega
      clear e1 e2
      unfold Block.splice
      by_cases hin : (off + w) % BSIZE ≤ o % BSIZE ∧ o % BSIZE < (off + w) % BSIZE + l
      · rw [if_pos hin, if_pos (by omega)]
        congr 2
        omega
      · rw [if_neg hin]
        have hold := hs.byte o hbo hz
        have hdef : g'.byte k o = g'.s.blk (g'.slot k (fileSlot ((off + w) / BSIZE))) (o % BSIZE) := by
          show g'.s.blk (g'.slot k (fileSlot (o / BSIZE))) _ = _
          rw [hsame]
        rw [← hdef, hold, hsame]
        by_cases hc : off ≤ o ∧ o < off + w
        · rw [if_pos hc, if_pos (by omega)]
        · have hc' : ¬ (off ≤ o ∧ o < off + (w + l)) := by omega
          rw [if_neg hc, if_neg hc']
    · have hne : g'.slot k (fileSlot (o / BSIZE)) ≠ g'.slot k (fileSlot ((off + w) / BSIZE)) :=
        fun e => hsame (fileSlot_inj (hs.has.owns.inj _ _ (fileSlot_lt hbo) (fileSlot_lt hb) hz e))
      rw [update_of_ne hne]
      refine (hs.byte o hbo hz).trans ?_
      by_cases hc : off ≤ o ∧ o < off + w
      · rw [if_pos hc, if_pos (by omega)]
      · have : ¬ (off ≤ o ∧ o < off + (w + l)) := by
          intro h
          have := (block_div (o := off + w) (i := o - (off + w)) (by omega)).1
          rw [show off + w + (o - (off + w)) = o by omega] at this
          exact hsame this
        rw [if_neg hc, if_neg this]

theorem writeiCopy_gives (kit : Kit sb p L) (hok : sb.Ok) {a o i m : ℕ} (hb : Mine p g a) :
    L.Gives g (writeiCopy sb p src a o i m) fun r g' => (r = true ↔ mappedLen src i m = m) ∧
      ∃ lg, g' = g.disk (update g.s.blk a
        ((g.s.blk a).splice (o % BSIZE) src i (mappedLen src i m))) lg g.whose := by
  have hle := mappedLen_le src i m
  have key : ∀ h, L.rely g h → Inv sb h → ∀ F : Ghost P K M → List ℕ,
      let u := fun x : Ghost P K M => x.disk (update x.s.blk a
        ((x.s.blk a).splice (o % BSIZE) src i (mappedLen src i m))) (F x) x.whose
      Inv sb (u h) ∧ (∀ q, q ≠ p → Rely sb q h (u h)) ∧ Rely sb p (u g) (u h) := by
    intro h hr hi F u
    have hrp := kit.rely _ _ hr
    have e := (hrp.own a hb).2
    obtain ⟨h1, h2⟩ := write_step hok hi (hrp.mine.2 hb) .stay
      ((h.s.blk a).splice (o % BSIZE) src i (mappedLen src i m)) (F h)
    refine ⟨h1, h2, ?_⟩
    dsimp only [u]
    rw [e]
    exact write_own hok hrp hi hb .stay _ _ _
  refine kit.act (fun h => by cases h) (fun _ h r s' hr hi hx => ?_) (fun h m hr hi hx => ?_)
  · dsimp only at hx
    split at hx
    · rename_i hlt
      cases hx
      obtain ⟨h1, h2, h3⟩ := key h hr hi fun x => x.s.logged
      exact ⟨fun x => x.disk (update x.s.blk a
        ((x.s.blk a).splice (o % BSIZE) src i (mappedLen src i m))) x.s.logged x.whose, rfl, h1, h2, h3,
        ⟨fun h => (nomatch h), fun e => by omega⟩, _, rfl⟩
    · obtain ⟨rfl, rfl⟩ := Fsys.logWrite_ok hx
      obtain ⟨h1, h2, h3⟩ := key h hr hi fun x => a :: x.s.logged
      exact ⟨fun x => x.disk (update x.s.blk a
        ((x.s.blk a).splice (o % BSIZE) src i (mappedLen src i m))) (a :: x.s.logged) x.whose, rfl, h1,
        h2, h3, ⟨fun _ => by omega, fun _ => rfl⟩, _, rfl⟩
  · dsimp only at hx
    split at hx
    · cases hx
    · exact kit.logWrite hx

variable {g0 : Ghost P K M}

/-- a stretch is cut at the end of a block only -/
def Cut (off n t : ℕ) : Prop := t = 0 ∨ t = n ∨ (off + t) % BSIZE = 0

theorem Cut.whole {n t : ℕ} (h : Cut off n t) (ht : t ≤ n) (hn : off % BSIZE + n ≤ BSIZE) :
    t = 0 ∨ t = n := by
  rcases h with h | h | h
  · exact .inl h
  · exact .inr h
  · by_contra hne
    have e := (block_div (o := off) (i := t) (by omega)).2
    omega

theorem Cut.next (off n tot : ℕ) (h : tot < n) :
    Cut off n (tot + min (n - tot) (BSIZE - (off + tot) % BSIZE)) := by
  have hlt : (off + tot) % BSIZE < BSIZE := Nat.mod_lt _ (by decide)
  by_cases hc : n - tot ≤ BSIZE - (off + tot) % BSIZE
  · exact .inr (.inl (by omega))
  · refine .inr (.inr ?_)
    have e := Nat.div_add_mod (off + tot) BSIZE
    have e2 : off + (tot + min (n - tot) (BSIZE - (off + tot) % BSIZE)) =
        BSIZE * ((off + tot) / BSIZE) + BSIZE := by
      rw [Nat.min_eq_right (by omega)]
      omega
    rw [e2, Nat.add_mod_right, Nat.mul_mod_right]

theorem writeiLoop_gives (kit : Kit sb p L) (hok : sb.Ok) {n tot : ℕ}
    (hs : Stored sb L p k src off tot g0 g) (hmap : ∀ i < tot, (src i).isSome = true)
    (hcut : Cut off n tot)
    (htot : tot ≤ n) (hmax : off + n ≤ MAXFILE * BSIZE) (fuel : ℕ) (hfuel : n - tot ≤ fuel) :
    L.Gives g (writeiLoop sb p k src n fuel tot (off + tot)) fun r g' => r.2 = off + r.1 ∧
      Cut off n r.1 ∧ ∃ w, r.1 ≤ w ∧ w ≤ n ∧ (∀ i < w, (src i).isSome = true) ∧ Stored sb L p k src off w g0 g' ∧
        (r.1 < n → (∃ i < n, src i = none) ∨
          NoFree sb L g' ∧ g0.slot k (fileSlot ((off + r.1) / BSIZE)) = 0) ∧
        (r.1 < w → ∃ i < n, src i = none) := by
  induction fuel generalizing tot g with
  | zero =>
    have e : tot = n := by omega
    subst e
    exact .pure ⟨rfl, hcut, tot, Nat.le_refl _, Nat.le_refl _, hmap, hs,
      fun h => absurd h (Nat.lt_irrefl _), fun h => absurd h (Nat.lt_irrefl _)⟩
  | succ fuel ih =>
    unfold writeiLoop
    by_cases hlt : tot < n
    · rw [if_pos hlt]
      have hbn : (off + tot) / BSIZE < MAXFILE :=
        (Nat.div_lt_iff_lt_mul (by decide)).2 (by omega)
      refine (bmap_gives kit hok hs.has hbn).bind fun a g1 h1 => ?_
      obtain ⟨hgr, hne, hz, -⟩ := h1
      have hs1 := hs.grow hgr
      by_cases ha : a = 0
      · rw [if_pos ha]
        have h0 : g0.slot k (fileSlot ((off + tot) / BSIZE)) = 0 := by
          by_contra hne0
          have := hs.slot _ (fileSlot_lt hbn) hne0
          exact hne0 (this.symm.trans (hz ha).1)
        exact .pure ⟨rfl, hcut, tot, Nat.le_refl _, htot, hmap, hs1, fun _ => .inr ⟨(hz ha).2, h0⟩,
          fun h => absurd h (Nat.lt_irrefl _)⟩
      rw [if_neg ha]
      obtain rfl := hne ha
      have hmine := hgr.has.mine (hgr.has.owns.mem _ (fileSlot_lt hbn) ha)
      generalize hm : min (n - tot) (BSIZE - (off + tot) % BSIZE) = m
      have hl := mappedLen_le src tot m
      refine (writeiCopy_gives kit hok hmine).bind fun r g2 h2 => ?_
      obtain ⟨hr, lg, rfl⟩ := h2
      have hs2 := hs1.write hok (l := mappedLen src tot m) (by omega) hbn ha lg
      have hmap2 : ∀ i < tot + mappedLen src tot m, (src i).isSome = true := fun i hi => by
        by_cases hit : i < tot
        · exact hmap i hit
        · have := mappedLen_mapped src tot m (i - tot) (by omega)
          rwa [show tot + (i - tot) = i by omega] at this
      cases r with
      | true =>
        have e : mappedLen src tot m = m := hr.1 rfl
        have hpos : 0 < m := by
          have : (off + tot) % BSIZE < BSIZE := Nat.mod_lt _ (by decide)
          omega
        rw [e] at hs2 hmap2
        rw [if_pos rfl, Nat.add_assoc, e]
        exact ih hs2 hmap2 (by rw [← hm]; exact Cut.next off n tot hlt) (by omega) (by omega)
      | false =>
        rw [if_neg (by decide)]
        have hlm : mappedLen src tot m < m := by
          refine lt_of_le_of_ne hl fun e => ?_
          have := hr.2 e
          cases this
        have hbad : ∃ i < n, src i = none :=
          ⟨tot + mappedLen src tot m, by omega, mappedLen_stop src tot m hlm⟩
        exact .pure ⟨rfl, hcut, _, by omega, by omega, hmap2, hs2, fun _ => .inl hbad, fun _ => hbad⟩
    · rw [if_neg hlt]
      have e : tot = n := by omega
      subst e
      exact .pure ⟨rfl, hcut, tot, Nat.le_refl _, Nat.le_refl _, hmap, hs,
        fun h => absurd h (Nat.lt_irrefl _), fun h => absurd h (Nat.lt_irrefl _)⟩

theorem local_setD (sb : FsSuper) (L : Logic (Fsys P K M) (FsLabel P) FsPanic (Ghost P K M)) (p : P)
    (d : Dinode) : Local sb L p k g (g.inode k ((g.s.inode k).withD d) g.whose) := by
  refine ⟨rfl, rfl, rfl, rfl, rfl, ?_, fun _ _ _ => rfl, fun _ _ _ => .inl ⟨rfl, fun _ => rfl⟩,
    fun _ h => .inl h, fun _ h => .inl h⟩
  rw [Ghost.d, inode_self]
  rfl

/-- the inode in entry `k` has the fields `d`, in memory and on disk -/
def Ghost.sync (sb : FsSuper) (g : Ghost P K M) (k : Fin K) (d : Dinode) (lg : List ℕ) : Ghost P K M :=
  (g.inode k ((g.s.inode k).withD d) g.whose).disk (putDinode sb g.s.blk (g.inum k) d) lg g.whose

theorem sync_self (g : Ghost P K M) (d : Dinode) (lg : List ℕ) :
    (g.sync sb k d lg).s.inode k = (g.s.inode k).withD d := update_self ..

theorem sync_d (g : Ghost P K M) (d : Dinode) (lg : List ℕ) : (g.sync sb k d lg).d k = d := by
  rw [Ghost.d, sync_self]
  rfl

theorem sync_inum (g : Ghost P K M) (d : Dinode) (lg : List ℕ) :
    (g.sync sb k d lg).inum k = g.inum k := by
  rw [Ghost.inum, sync_self]
  rfl

theorem sync_disk (g : Ghost P K M) (d : Dinode) (lg : List ℕ) :
    sb.dinode (g.sync sb k d lg).s.blk (g.inum k) = d := by
  show sb.dinode (putDinode sb g.s.blk (g.inum k) d) _ = d
  rw [dinode_put, if_pos rfl]

theorem sync_data (hok : sb.Ok) (hg : Has sb p k g) (d : Dinode) (lg : List ℕ) {b : ℕ}
    (hb : sb.nmeta ≤ b) : (g.sync sb k d lg).s.blk b = g.s.blk b :=
  data_put hok hg.lt _ _ hb

theorem sync_local (hok : sb.Ok) (hg : Has sb p k g) (d : Dinode) (lg : List ℕ) :
    Local sb L p k g (g.sync sb k d lg) := by
  refine ⟨rfl, rfl, rfl, rfl, rfl, ?_, fun j hj hne => (dinode_put _ _ _ j).trans (if_neg hne),
    fun b _ _ => .inl ⟨rfl, fun hb => sync_data hok hg d lg hb⟩, fun _ h => .inl h, fun _ h => .inl h⟩
  rw [sync_d]
  rfl

theorem sync_slot (hok : sb.Ok) (hg : Has sb p k g) {d : Dinode} (lg : List ℕ)
    (ha : ∀ i, d.addr i = (g.d k).addr i) (n : ℕ) : (g.sync sb k d lg).slot k n = g.slot k n := by
  rw [Ghost.slot, sync_d]
  exact Dinode.slot_congr ha
    (fun hi => sync_data hok hg d lg (hg.data _ (hg.owns.indirect hi)).1) n

theorem sync_has (hok : sb.Ok) (hg : Has sb p k g) {d : Dinode} (lg : List ℕ)
    (ha : ∀ i, d.addr i = (g.d k).addr i) : Has sb p k (g.sync sb k d lg) := by
  have hi := @sync_inum _ _ _ sb k _ g d lg
  have hsl := sync_slot hok hg lg ha
  refine ⟨⟨hg.lock, ?_⟩, by rw [hi]; exact hg.lt, fun b hb => ?_, ?_⟩
  · rw [sync_self]
    exact hg.valid
  · rw [hi] at hb
    exact hg.data b hb
  · rw [hi]
    exact hg.owns.congr (fun _ => .rfl) (fun n hn _ => ⟨hn, hsl n⟩) fun n hn _ => ⟨hn, (hsl n).symm⟩

theorem sync_byte (hok : sb.Ok) (hg : Has sb p k g) {d : Dinode} (lg : List ℕ)
    (ha : ∀ i, d.addr i = (g.d k).addr i) {o : ℕ} (hb : o / BSIZE < MAXFILE)
    (h0 : g.slot k (fileSlot (o / BSIZE)) ≠ 0) : (g.sync sb k d lg).byte k o = g.byte k o := by
  show (g.sync sb k d lg).s.blk ((g.sync sb k d lg).slot k _) _ = g.s.blk (g.slot k _) _
  rw [sync_slot hok hg lg ha, sync_data hok hg d lg (hg.data _ (hg.owns.mem _ (fileSlot_lt hb) h0)).1]

/-- the inode after `writei`: `t` bytes are said to be written, `w` are stored -/
structure Wrote (sb : FsSuper) (L : Logic (Fsys P K M) (FsLabel P) FsPanic (Ghost P K M)) (p : P)
    (k : Fin K) (src : ℕ → Option Byte) (off t w : ℕ) (g g' : Ghost P K M) : Prop where
  loc : Local sb L p k g g'
  full : Full sb p k g'
  kind : Kind (g.d k) (g'.d k)
  disk : g'.d k = sb.dinode g'.s.blk (g'.inum k)
  size : (g'.d k).size.toNat = max (g.d k).size.toNat (off + t)
  byte : ∀ o < (g'.d k).size.toNat, g'.byte k o =
    if off ≤ o ∧ o < off + w then (src (o - off)).getD 0 else g.byte k o
  slot : ∀ m < NSLOT, g.slot k m ≠ 0 → g'.slot k m = g.slot k m

theorem Stored.wrote (hok : sb.Ok) (hf : Full sb p k g) {t : ℕ}
    (hs : Stored sb L p k src off w g g') (htw : t ≤ w) (hoff : off ≤ (g.d k).size.toNat)
    (hmax : off + t ≤ MAXFILE * BSIZE) {d : Dinode} (lg : List ℕ)
    (hd : d = if off + t > (g'.d k).size.toNat then { g'.d k with size := BitVec.ofNat 32 (off + t) }
      else g'.d k) :
    Wrote sb L p k src off t w g (g'.sync sb k d lg) := by
  have haddr : ∀ i, d.addr i = (g'.d k).addr i := fun i => by
    rw [hd]
    split <;> rfl
  have hkind : Kind (g'.d k) d := by
    rw [hd]
    split <;> exact ⟨rfl, rfl, rfl, rfl⟩
  have hmax' : MAXFILE * BSIZE < 2 ^ 32 := by decide
  have hsz : d.size.toNat = max (g.d k).size.toNat (off + t) := by
    rw [hd, ← hs.size]
    split
    · show (off + t) % 2 ^ 32 = _
      rw [Nat.mod_eq_of_lt (by omega)]
      omega
    · omega
  have hcov : ∀ o, o < d.size.toNat → o / BSIZE < MAXFILE ∧ g'.slot k (fileSlot (o / BSIZE)) ≠ 0 ∧
      (¬ (off ≤ o ∧ o < off + w) → g.slot k (fileSlot (o / BSIZE)) ≠ 0) := fun o ho => by
    by_cases hlt : o < (g.d k).size.toNat
    · obtain ⟨hb, h0⟩ := hf.slot hlt
      refine ⟨hb, ?_, fun _ => h0⟩
      rw [hs.slot _ (fileSlot_lt hb) h0]
      exact h0
    · have hin : off ≤ o ∧ o < off + w := by omega
      obtain ⟨hb, h0⟩ := hs.cover o hin.1 hin.2
      exact ⟨hb, h0, fun h => absurd hin h⟩
  have hdk := @sync_d _ _ _ sb k _ g' d lg
  refine ⟨hs.loc.trans (sync_local hok hs.has d lg), ⟨sync_has hok hs.has lg haddr,
    ⟨?_, fun bn hbn => ?_⟩⟩, by rw [hdk]; exact hs.kind.trans hkind, ?_, by rw [hdk]; exact hsz,
    fun o ho => ?_, fun m hm h0 => (sync_slot hok hs.has lg haddr m).trans (hs.slot m hm h0)⟩
  · rw [hdk, hsz]
    have := hf.covers.size
    omega
  · rw [hdk] at hbn
    have := (hcov (bn * BSIZE) hbn).2.1
    rw [Nat.mul_div_cancel _ (by decide), ← sync_slot hok hs.has lg haddr] at this
    exact this
  · rw [hdk, sync_inum, sync_disk]
  · rw [hdk] at ho
    obtain ⟨hb, h0, hold⟩ := hcov o ho
    rw [sync_byte hok hs.has lg haddr hb h0, hs.byte o hb h0]
    by_cases hin : off ≤ o ∧ o < off + w
    · rw [if_pos hin, if_pos hin]
    · rw [if_neg hin, if_neg hin, if_pos (hold hin)]

/-- the fields of a locked inode are changed and stored, and the code goes on -/
theorem sync_gives (kit : Kit sb p L) (hok : sb.Ok) (hk : Locked p k g) (F : Dinode → Dinode)
    (hty : (F (g.d k)).type = (g.d k).type ∨ ∀ f, ¬ Opens g.s f k)
    (h0 : (F (g.d k)).type = 0 → (F (g.d k)).Bare) {c : Unit → FsM P K M α}
    {R : α → Ghost P K M → Prop} (hc : ∀ lg, L.Gives (g.sync sb k (F (g.d k)) lg) (c ()) R) :
    L.Gives g (setFields k F >>= fun _ => iupdate sb k >>= c) R := by
  refine (setFields_gives kit hk F hty .stay).bind fun _ g1 e => ?_
  have e1 : g1.s.inode k = (g.s.inode k).withD (F (g.d k)) := by rw [e, inode_self]
  have hl : g1.s.lock k = some p := by rw [e]; exact hk.lock
  have hv : (g1.s.inode k).valid = true := by rw [e1]; exact hk.valid
  refine (iupdate_gives kit hok hl hv (by rw [e1]; exact h0)).bind fun _ g2 h2 => ?_
  obtain ⟨lg, rfl⟩ := h2
  have := hc lg
  rw [e1, e]
  exact this

/-- **`writei`** on an inode that is locked and as on disk -/
theorem writei_gives (kit : Kit sb p L) (hok : sb.Ok) (hc : Clean sb p k g) {n : ℕ}
    (hn : n < 2 ^ 32) :
    L.Gives g (writei sb p k src off n) fun r g' =>
      r = -1 ∧ g' = g ∧ ((g.d k).size.toNat < off ∨ MAXFILE * BSIZE < off + n) ∨
      ∃ t w : ℕ, r = t ∧ Cut off n t ∧ t ≤ w ∧ w ≤ n ∧ off ≤ (g.d k).size.toNat ∧ off + n ≤ MAXFILE * BSIZE ∧
        (∀ i < w, (src i).isSome = true) ∧
        (t < n → (∃ i < n, src i = none) ∨ NoFree sb L g' ∧ (g.d k).size.toNat ≤ off + t) ∧
        (t < w → ∃ i < n, src i = none) ∧ Wrote sb L p k src off t w g g' := by
  have hmax : MAXFILE * BSIZE < 2 ^ 32 := by decide
  have hsz := hc.node.covers.size
  refine (fields_gives kit hc.lock).bind fun d g1 e => ?_
  obtain ⟨rfl, rfl⟩ := e
  by_cases h1 : off > (g1.d k).size.toNat ∨ (off + n) % 2 ^ 32 < off
  · rw [if_pos h1]
    refine .pure (.inl ⟨rfl, rfl, ?_⟩)
    rcases h1 with h1 | h1
    · exact .inl h1
    · right
      by_contra hle
      rw [Nat.mod_eq_of_lt (by omega)] at h1
      omega
  rw [if_neg h1]
  have hmod : (off + n) % 2 ^ 32 = off + n := by
    by_contra hne
    have h2 : 2 ^ 32 ≤ off + n := by
      by_contra hlt
      exact hne (Nat.mod_eq_of_lt (by omega))
    have : (off + n) % 2 ^ 32 = off + n - 2 ^ 32 := by
      rw [Nat.mod_eq_sub_mod h2, Nat.mod_eq_of_lt (by omega)]
    omega
  by_cases h2 : (off + n) % 2 ^ 32 > MAXFILE * BSIZE
  · rw [if_pos h2]
    exact .pure (.inl ⟨rfl, rfl, .inr (by omega)⟩)
  rw [if_neg h2]
  refine (writeiLoop_gives kit hok (.refl L hc.has) (fun i hi => by omega) (.inl rfl) (Nat.zero_le n)
    (by omega) n
    (by omega)).bind fun r g2 h3 => ?_
  obtain ⟨t, o⟩ := r
  obtain ⟨ho, hcut, w, htw, hwn, hmap, hs, hshort, hbad⟩ := h3
  dsimp only at ho hcut htw hshort hbad ⊢
  subst ho
  have hty : (g2.d k).type ≠ 0 := by rw [hs.kind.type]; exact hc.type
  refine sync_gives kit hok hs.has.toLocked _ (.inl ?_) (fun h0 => absurd h0 ?_) fun lg =>
    .pure (.inr ⟨t, w, rfl, hcut, htw, hwn, by omega, by omega, hmap,
      fun ht => (hshort ht).imp id fun h => ⟨h.1, ?_⟩, hbad, ?_⟩)
  · split <;> rfl
  · split <;> exact hty
  · by_contra hlt
    exact (hc.full.slot (o := off + t) (by omega)).2 h.2
  · exact hs.wrote hok hc.full htw (by omega) (by omega) lg rfl

/-! ## `itrunc` -/

/-- on the way to freeing all blocks: those of the slots in `live` are left -/
structure Part (sb : FsSuper) (L : Logic (Fsys P K M) (FsLabel P) FsPanic (Ghost P K M)) (p : P)
    (k : Fin K) (live : ℕ → Prop) (g g' : Ghost P K M) : Prop extends Locked p k g' where
  loc : Local sb L p k g g'
  kind : Kind (g.d k) (g'.d k)
  lt : g'.inum k < sb.ninodes
  ind : (g'.d k).addr NDIRECT ≠ 0 → sb.nmeta ≤ (g'.d k).addr NDIRECT
  owns : (g'.d k).Owns g'.s.blk live (fun b => g'.whose b = .node (g'.inum k))

variable {live : ℕ → Prop} {n : ℕ}

theorem Part.bfree (kit : Kit sb p L) (hok : sb.Ok) (hp : Part sb L p k live g g') {n b : ℕ}
    (hn : live n) (hb : (g'.d k).slot g'.s.blk n = b) (h0 : b ≠ 0) :
    L.Gives g' (bfree sb b) fun _ g'' => Part sb L p k (fun m => live m ∧ m ≠ n) g g'' ∧
      g''.s.inode = g'.s.inode ∧ ∀ b, sb.nmeta ≤ b → g''.s.blk b = g'.s.blk b := by
  have hw : g'.whose b = .node (g'.inum k) := by
    have := hp.owns.mem n hn
    rw [hb] at this
    exact this h0
  refine (bfree_gives kit hok (.inr ⟨k, hp.lock, hp.valid, hw⟩)).mono fun _ g'' h => ?_
  obtain ⟨blk, hsame, rfl⟩ := h
  have hwe : ∀ c, update g'.whose b .free c = .node (g'.inum k) ↔
      g'.whose c = .node (g'.inum k) ∧ c ≠ b := fun c => by
    by_cases hc : c = b
    · subst hc
      rw [update_self]
      exact ⟨fun h => (nomatch h), fun h => absurd rfl h.2⟩
    · rw [update_of_ne hc]
      exact ⟨fun h => ⟨h, hc⟩, fun h => h.1⟩
  have hl : Local sb L p k g' (g'.disk blk (sb.BBLOCK b :: g'.s.logged)
      (update g'.whose b .free)) := by
    refine ⟨rfl, rfl, rfl, rfl, rfl, (update_eq_self ..).symm, fun j hj _ =>
      hsame.dinode j hj, fun c h1 h2 => .inl ⟨?_, fun hm => hsame.data c hm⟩, fun c h1 => ?_,
      fun c h1 => .inl ((hwe c).1 h1).1⟩
    · exact update_of_ne (fun e : c = b => h1 (e ▸ hw)) _ _
    · by_cases hc : c = b
      · subst hc
        exact .inr (update_self ..)
      · exact .inl ((hwe c).2 ⟨h1, hc⟩)
  have hslot : ∀ m, (g'.d k).slot blk m = g'.slot k m :=
    Dinode.slot_congr (fun _ => rfl) fun hi => hsame.data _ (hp.ind hi)
  refine ⟨⟨⟨hp.lock, hp.valid⟩, hp.loc.trans hl, hp.kind, hp.lt, hp.ind, ?_⟩, rfl, hsame.data⟩
  exact (hp.owns.remove hn fun c => by rw [hb]; exact hwe c).congr (fun _ => .rfl)
    (fun m hm _ => ⟨hm, hslot m⟩) fun m hm _ => ⟨hm, (hslot m).symm⟩

theorem Part.clear (hp : Part sb L p k (fun m => live m ∧ m ≠ n) g g') (hn : n ≤ NDIRECT)
    (hl : n = NDIRECT → ∀ m, live m → m ≤ NDIRECT) :
    Part sb L p k live g (g'.inode k ((g'.s.inode k).withD ((g'.d k).setAddr n 0)) g'.whose) := by
  have haddr : ∀ i, ((g'.d k).setAddr n 0).addr i = if i = n then 0 else (g'.d k).addr i :=
    fun i => Dinode.addr_setAddr hn (by decide)
  have hslot : ∀ m, live m → ((g'.d k).setAddr n 0).slot g'.s.blk m =
      if m = n then 0 else g'.slot k m := fun m hm => by
    by_cases hmd : m ≤ NDIRECT
    · rw [Dinode.slot_direct hmd, haddr, slot_addr hmd]
    · have hne : n ≠ NDIRECT := fun e => hmd (hl e m hm)
      rw [if_neg (by omega)]
      have e : ((g'.d k).setAddr n 0).addr NDIRECT = (g'.d k).addr NDIRECT := by
        rw [haddr, if_neg (Ne.symm hne)]
      show _ = (g'.d k).slot g'.s.blk m
      unfold Dinode.slot
      rw [if_neg hmd, if_neg hmd, e]
  have hself : (g'.inode k ((g'.s.inode k).withD ((g'.d k).setAddr n 0)) g'.whose).s.inode k =
    (g'.s.inode k).withD ((g'.d k).setAddr n 0) := inode_self ..
  have hd : (g'.inode k ((g'.s.inode k).withD ((g'.d k).setAddr n 0)) g'.whose).d k =
      (g'.d k).setAddr n 0 := by rw [Ghost.d, hself]; rfl
  have hi : (g'.inode k ((g'.s.inode k).withD ((g'.d k).setAddr n 0)) g'.whose).inum k =
      g'.inum k := by rw [Ghost.inum, hself]; rfl
  refine ⟨⟨hp.lock, by rw [hself]; exact hp.valid⟩, hp.loc.trans (local_setD sb L p _),
    by rw [hd]; exact hp.kind.trans ⟨rfl, rfl, rfl, rfl⟩, by rw [hi]; exact hp.lt, fun h => ?_, ?_⟩
  · rw [hd, haddr] at h ⊢
    split at h
    · exact absurd rfl h
    · rw [if_neg ‹_›]
      exact hp.ind h
  · rw [hd, hi]
    refine hp.owns.congr (fun _ => .rfl) (fun m hm h0 => ⟨hm.1, ?_⟩) fun m hm h0 => ?_
    · exact (hslot m hm.1).trans (if_neg hm.2)
    · have e := hslot m hm
      have h0 : ((g'.d k).setAddr n 0).slot g'.s.blk m ≠ 0 := h0
      by_cases hmn : m = n
      · rw [if_pos hmn] at e
        exact absurd e h0
      · rw [if_neg hmn] at e
        exact ⟨⟨hm, hmn⟩, e.symm⟩

theorem itruncDirect_gives (kit : Kit sb p L) (hok : sb.Ok) (n : ℕ) {i : ℕ} (hi : i + n = NDIRECT)
    (hp : Part sb L p k (· < NSLOT) g g') (hz : ∀ j < i, (g'.d k).addr j = 0) :
    L.Gives g' (itruncDirect sb k n i) fun _ g'' => Part sb L p k (· < NSLOT) g g'' ∧
      ∀ j < NDIRECT, (g''.d k).addr j = 0 := by
  induction n generalizing i g' with
  | zero =>
    rw [Nat.add_zero] at hi
    subst hi
    exact .pure ⟨hp, hz⟩
  | succ n ih =>
    have hin : i ≤ NDIRECT := by omega
    refine (fields_gives kit hp.lock).bind fun d g1 e => ?_
    obtain ⟨rfl, rfl⟩ := e
    by_cases h0 : (g1.d k).addr i = 0
    · rw [if_neg (not_not.2 h0)]
      refine ih (by omega) hp fun j hj => ?_
      by_cases hji : j = i
      · rw [hji]
        exact h0
      · exact hz j (by omega)
    · rw [if_pos h0]
      refine (hp.bfree kit hok (n := i) (lt_of_le_of_lt hin (by decide)) (Dinode.slot_direct hin)
        h0).bind fun _ g2 h2 => ?_
      obtain ⟨hp2, hino, _⟩ := h2
      refine (setFields_gives kit hp2.toLocked (fun d => d.setAddr i 0) (.inl rfl) .stay).bind
        fun _ g3 e3 => ?_
      have hp3 := hp2.clear hin (fun e => by omega)
      rw [show g2.inode k _ g2.whose = g3 from e3.symm] at hp3
      refine ih (by omega) hp3 fun j hj => ?_
      have hd3 : g3.d k = (g1.d k).setAddr i 0 := by
        rw [e3, Ghost.d, inode_self, hino]
        rfl
      rw [hd3, Dinode.addr_setAddr hin (by decide)]
      split
      · rfl
      · exact hz j (by omega)

theorem itruncIndirect_gives (kit : Kit sb p L) (hok : sb.Ok) {b : ℕ} (hb : b ≠ 0) (n : ℕ) {j : ℕ}
    (hj : j + n = NINDIRECT) (ha : (g'.d k).addr NDIRECT = b)
    (hp : Part sb L p k (fun m => m ≤ NDIRECT ∨ NDIRECT + 1 + j ≤ m ∧ m < NSLOT) g g') :
    L.Gives g' (itruncIndirect sb b n j) fun _ g'' => Part sb L p k (· ≤ NDIRECT) g g'' ∧
      g''.s.inode = g'.s.inode := by
  induction n generalizing j g' with
  | zero =>
    rw [Nat.add_zero] at hj
    subst hj
    refine .pure ⟨⟨hp.toLocked, hp.loc, hp.kind, hp.lt, hp.ind, ?_⟩, rfl⟩
    have hlive : ∀ m, (m ≤ NDIRECT ∨ NDIRECT + 1 + NINDIRECT ≤ m ∧ m < NSLOT) ↔ m ≤ NDIRECT :=
      fun m => by
        unfold NSLOT
        omega
    exact hp.owns.congr (fun _ => .rfl) (fun m hm _ => ⟨(hlive m).1 hm, rfl⟩)
      fun m hm _ => ⟨(hlive m).2 hm, rfl⟩
  | succ n ih =>
    have hw : g'.whose b = .node (g'.inum k) := by
      have := hp.owns.mem NDIRECT (.inl (Nat.le_refl _))
      rw [Dinode.slot_direct (Nat.le_refl _), ha] at this
      exact this hb
    have hns : NDIRECT + 1 + j < NSLOT := by
      unfold NSLOT
      omega
    have hslot : (g'.d k).slot g'.s.blk (NDIRECT + 1 + j) = ((g'.s.blk b).int j).toNat := by
      rw [Dinode.slot_indirect (by omega) (by rw [ha]; exact hb), ha, Nat.add_sub_cancel_left]
    refine (readBlock_gives kit (.inr ⟨k, hp.lock, hp.valid, hw⟩) fun x => (x.int j).toNat).bind
      fun a g1 e => ?_
    obtain ⟨rfl, rfl⟩ := e
    -- the entry is no longer looked at
    have next : ∀ g2 : Ghost P K M, g2.s.inode = g1.s.inode →
        Part sb L p k (fun m => (m ≤ NDIRECT ∨ NDIRECT + 1 + j ≤ m ∧ m < NSLOT) ∧
          m ≠ NDIRECT + 1 + j) g g2 →
        L.Gives g2 (itruncIndirect sb b n (j + 1)) fun _ g'' => Part sb L p k (· ≤ NDIRECT) g g'' ∧
          g''.s.inode = g1.s.inode := by
      intro g2 hino hp2
      have hd2 : g2.d k = g1.d k := by rw [Ghost.d, hino]
      have hlive : ∀ m, ((m ≤ NDIRECT ∨ NDIRECT + 1 + j ≤ m ∧ m < NSLOT) ∧ m ≠ NDIRECT + 1 + j) ↔
          m ≤ NDIRECT ∨ NDIRECT + 1 + (j + 1) ≤ m ∧ m < NSLOT := fun m => by omega
      refine (ih (by omega) (by rw [hd2]; exact ha) ⟨hp2.toLocked, hp2.loc, hp2.kind, hp2.lt, hp2.ind,
        hp2.owns.congr (fun _ => .rfl) (fun m hm _ => ⟨(hlive m).1 hm, rfl⟩)
          fun m hm _ => ⟨(hlive m).2 hm, rfl⟩⟩).mono fun _ g3 h3 => ⟨h3.1, h3.2.trans hino⟩
    by_cases h0 : ((g1.s.blk b).int j).toNat = 0
    · rw [if_neg (not_not.2 h0)]
      refine next g1 rfl ⟨hp.toLocked, hp.loc, hp.kind, hp.lt, hp.ind, ?_⟩
      refine hp.owns.congr (fun _ => .rfl) (fun m hm hz => ⟨⟨hm, fun e => hz ?_⟩, rfl⟩)
        fun m hm _ => ⟨hm.1, rfl⟩
      rw [e, hslot, h0]
    · rw [if_pos h0]
      refine (hp.bfree kit hok (n := NDIRECT + 1 + j) (.inr ⟨Nat.le_refl _, hns⟩) hslot h0).bind
        fun _ g2 h2 => next g2 h2.2.1 h2.1

/-- the inode after `itrunc` -/
structure Emptied (sb : FsSuper) (L : Logic (Fsys P K M) (FsLabel P) FsPanic (Ghost P K M)) (p : P)
    (k : Fin K) (g g' : Ghost P K M) : Prop extends Locked p k g' where
  loc : Local sb L p k g g'
  kind : Kind (g.d k) (g'.d k)
  bare : (g'.d k).Bare
  disk : g'.d k = sb.dinode g'.s.blk (g'.inum k)
  free : ∀ b, g'.whose b ≠ .node (g'.inum k)

/-- **`itrunc`** frees every block once, and only blocks of the inode -/
theorem itrunc_gives (kit : Kit sb p L) (hok : sb.Ok) (hc : Clean sb p k g) :
    L.Gives g (itrunc sb k) fun _ g' => Emptied sb L p k g g' := by
  -- what comes after the loops, when no address is left
  have rest : ∀ g', Part sb L p k (· ≤ NDIRECT) g g' → (∀ j ≤ NDIRECT, (g'.d k).addr j = 0) →
      L.Gives g' (setFields k (fun d => { d with size := 0 }) >>= fun _ => iupdate sb k) fun _ g'' =>
        Emptied sb L p k g g'' := by
    intro g1 hp hz
    have hfree : ∀ b, g1.whose b ≠ .node (g1.inum k) := fun b hb => by
      obtain ⟨hb0, n, hn, e⟩ := hp.owns.all b hb
      rw [Dinode.slot_direct hn, hz n hn] at e
      exact hb0 e.symm
    have hhas : Has sb p k g1 := by
      refine ⟨hp.toLocked, hp.lt, fun b hb => absurd hb (hfree b), ?_⟩
      have hbare : ∀ n, (g1.d k).slot g1.s.blk n = 0 := fun n => by
        by_cases hn : n ≤ NDIRECT
        · rw [Dinode.slot_direct hn, hz n hn]
        · exact Dinode.slot_indirect_zero (by omega) (hz _ (Nat.le_refl _))
      exact ⟨fun n _ h => absurd (hbare n) h, fun n _ _ _ h => absurd (hbare n) h,
        fun b hb => absurd hb (hfree b)⟩
    have hty : (g1.d k).type ≠ 0 := by rw [hp.kind.type]; exact hc.type
    show L.Gives g1 (setFields k (fun d => { d with size := 0 }) >>= fun _ => iupdate sb k >>= pure) _
    refine sync_gives kit hok hp.toLocked _ (.inl rfl) (fun h => absurd h hty) fun lg => .pure ?_
    have hd := @sync_d _ _ _ sb k _ g1 { g1.d k with size := 0 } lg
    have hi := @sync_inum _ _ _ sb k _ g1 { g1.d k with size := 0 } lg
    have hh := sync_has hok hhas (d := { g1.d k with size := 0 }) lg fun _ => rfl
    refine ⟨hh.toLocked, hp.loc.trans (sync_local hok hhas _ lg),
      by rw [hd]; exact hp.kind.trans ⟨rfl, rfl, rfl, rfl⟩, ?_, by rw [hd, hi, sync_disk],
      by rw [hi]; exact hfree⟩
    rw [hd]
    refine ⟨rfl, fun j => ?_⟩
    show (g1.d k).addr j = 0
    by_cases hj : j ≤ NDIRECT
    · exact hz j hj
    · exact dif_neg (by omega)
  have hp : Part sb L p k (· < NSLOT) g g :=
    ⟨hc.toLocked, .refl sb L p k g, .refl _, hc.node.lt,
      fun h => (hc.node.data _ (hc.node.owns.indirect h)).1, hc.node.owns⟩
  refine (itruncDirect_gives kit hok NDIRECT (Nat.zero_add _) hp fun j hj => by omega).bind
    fun _ g1 h1 => ?_
  obtain ⟨hp1, hz1⟩ := h1
  refine (fields_gives kit hp1.lock).bind fun d g2 e => ?_
  obtain ⟨rfl, rfl⟩ := e
  by_cases h0 : (g2.d k).addr NDIRECT = 0
  · rw [if_neg (not_not.2 h0)]
    have hz : ∀ j ≤ NDIRECT, (g2.d k).addr j = 0 := fun j hj => by
      by_cases hjn : j = NDIRECT
      · rw [hjn]
        exact h0
      · exact hz1 j (by omega)
    refine rest g2 ⟨hp1.toLocked, hp1.loc, hp1.kind, hp1.lt, hp1.ind, ?_⟩ hz
    refine hp1.owns.congr (fun _ => .rfl) (fun m hm hs => ⟨?_, rfl⟩)
      fun m hm _ => ⟨lt_of_le_of_lt hm (by decide), rfl⟩
    by_contra hn
    exact hs (Dinode.slot_indirect_zero (by omega) h0)
  · rw [if_pos h0]
    have hlive : ∀ m, m < NSLOT ↔ m ≤ NDIRECT ∨ NDIRECT + 1 + 0 ≤ m ∧ m < NSLOT := fun m => by
      unfold NSLOT
      omega
    refine (itruncIndirect_gives kit hok h0 NINDIRECT (Nat.zero_add _) rfl ⟨hp1.toLocked, hp1.loc,
      hp1.kind, hp1.lt, hp1.ind, hp1.owns.congr (fun _ => .rfl) (fun m hm _ => ⟨(hlive m).1 hm, rfl⟩)
        fun m hm _ => ⟨(hlive m).2 hm, rfl⟩⟩).bind fun _ g3 h3 => ?_
    obtain ⟨hp3, hino3⟩ := h3
    have hd3 : g3.d k = g2.d k := by rw [Ghost.d, hino3]
    refine (hp3.bfree kit hok (n := NDIRECT) (Nat.le_refl _)
      (by rw [Dinode.slot_direct (Nat.le_refl _), hd3]) h0).bind fun _ g4 h4 => ?_
    obtain ⟨hp4, hino4, _⟩ := h4
    refine (setFields_gives kit hp4.toLocked (fun d => d.setAddr NDIRECT 0) (.inl rfl) .stay).bind
      fun _ g5 e5 => ?_
    have hp5 := hp4.clear (Nat.le_refl _) fun _ m hm => hm
    rw [show g4.inode k _ g4.whose = g5 from e5.symm] at hp5
    refine rest g5 hp5 fun j hj => ?_
    have hd5 : g5.d k = (g2.d k).setAddr NDIRECT 0 := by
      rw [e5, Ghost.d, inode_self, hino4, ← hd3]
      rfl
    rw [hd5, Dinode.addr_setAddr (Nat.le_refl _) (by decide)]
    split
    · rfl
    · exact hz1 j (by omega)

end

end
end Xv6.FileSys
