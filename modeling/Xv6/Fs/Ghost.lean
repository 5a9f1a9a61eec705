import Xv6.Fs.Layout
import Xv6.Fs.File

/-!
# Who owns what in the file system

The ghost state has the state itself, an owner for every block, and for every process the references
it accounts for.  A block is free, part of the metadata, attached to an inode, or in the hands of a
process that has allocated it and not attached it yet.

* `Inv`   the invariant: `Table` (reference counts), `Store` (free map and dinodes) and `Agree`
  (the inode table and the dinodes agree, but for inodes that are locked);
* `Rely`   what a process may rely on: the others change nothing that it has locked or owns, and keep
  the identity of what it holds a reference to;
* `Kit`   a logic with this invariant, for one process among many or for one alone.
-/

namespace Xv6.FileSys

/-- whose a block is -/
inductive Owner (P : Type) where
  | free
  | metadata
  | node (i : ℕ)
  | thread (p : P)
deriving DecidableEq

/-- the references of a process, to inodes and to files -/
@[ext] structure View (K M : ℕ) where
  ref : Fin K → ℕ
  fref : Fin M → ℕ

structure Ghost (P : Type) (K M : ℕ) where
  s : Fsys P K M
  whose : ℕ → Owner P
  view : P → View K M

section
variable {P : Type} {K M : ℕ}

/-- file `f` is open and refers to the inode in entry `k` -/
def Opens (s : Fsys P K M) (f : Fin M) (k : Fin K) : Prop :=
  (s.file f).type ≠ .none ∧ (s.file f).ip = some k

instance (s : Fsys P K M) (f : Fin M) (k : Fin K) : Decidable (Opens s f k) :=
  inferInstanceAs (Decidable (_ ∧ _))

/-- how many open files refer to entry `k` -/
def opens (s : Fsys P K M) (k : Fin K) : ℕ := ∑ f, if Opens s f k then 1 else 0

/-- process `p` has a reference to entry `k`, its own or by a file -/
def Pinned (p : P) (g : Ghost P K M) (k : Fin K) : Prop :=
  0 < (g.view p).ref k ∨ ∃ f, 0 < (g.view p).fref f ∧ Opens g.s f k

/-- the owner is `p` itself, or an inode that `p` has locked and has in memory -/
def Own (p : P) (g : Ghost P K M) (o : Owner P) : Prop :=
  o = .thread p ∨ ∃ k, g.s.lock k = some p ∧ (g.s.inode k).valid = true ∧
    o = .node (g.s.inode k).inum

/-- block `b` is in the hands of `p` -/
abbrev Mine (p : P) (g : Ghost P K M) (b : ℕ) : Prop := Own p g (g.whose b)

/-! ## The invariant -/

section
variable [Fintype P]

/-- the inode table and the file table count their references -/
structure Table (sb : FsSuper) (g : Ghost P K M) : Prop where
  inum : ∀ k, 0 < (g.s.inode k).ref → (g.s.inode k).dev = ROOTDEV ∧ (g.s.inode k).inum < sb.ninodes
  uniq : ∀ k l, 0 < (g.s.inode k).ref → 0 < (g.s.inode l).ref →
    (g.s.inode k).inum = (g.s.inode l).inum → k = l
  refs : ∀ k, (g.s.inode k).ref = ∑ p, (g.view p).ref k + opens g.s k
  frefs : ∀ f, (g.s.file f).ref = ∑ p, (g.view p).fref f
  opened : ∀ f, (g.s.file f).type ≠ .none → 0 < (g.s.file f).ref ∧ (g.s.file f).ip ≠ none
  lock : ∀ k p, g.s.lock k = some p → Pinned p g k

end

/-- the free map knows the owners; a free dinode has no blocks -/
structure Store (sb : FsSuper) (blk : ℕ → Block) (whose : ℕ → Owner P) : Prop where
  bits : ∀ b < sb.size, sb.used blk b = true ↔ whose b ≠ .free
  metadata : ∀ b, whose b = .metadata ↔ b < sb.nmeta ∨ sb.size ≤ b
  node : ∀ b i, whose b = .node i → i < sb.ninodes
  bare : ∀ i < sb.ninodes, (sb.dinode blk i).type = 0 → (sb.dinode blk i).Bare

/-- the inode `i` with the fields `d` owns its blocks, has all blocks below its size, and if it is a
directory its entries name inodes -/
structure NodeOk (sb : FsSuper) (g : Ghost P K M) (i : ℕ) (d : Dinode) : Prop where
  lt : i < sb.ninodes
  data : ∀ b, g.whose b = .node i → sb.nmeta ≤ b ∧ b < sb.size
  owns : d.Owns g.s.blk (· < NSLOT) (fun b => g.whose b = .node i)
  covers : d.Covers g.s.blk
  dir : d.DirOk g.s.blk sb.ninodes

/-- some process has inode `i` locked and has its fields in memory -/
def Busy (g : Ghost P K M) (i : ℕ) : Prop :=
  ∃ k, 0 < (g.s.inode k).ref ∧ (g.s.inode k).inum = i ∧ g.s.lock k ≠ none ∧
    (g.s.inode k).valid = true

/-- what is in the inode table agrees with the disk, but for inodes that are locked -/
structure Agree (sb : FsSuper) (g : Ghost P K M) : Prop where
  mem : ∀ k, 0 < (g.s.inode k).ref → g.s.lock k = none → (g.s.inode k).valid = true →
    (g.s.inode k).d = sb.dinode g.s.blk (g.s.inode k).inum ∧ (g.s.inode k).d.type ≠ 0
  file : ∀ f k, Opens g.s f k → (g.s.inode k).valid = true ∧
    ((g.s.file f).writable = true → (g.s.inode k).d.type ≠ T_DIR)
  node : ∀ i < sb.ninodes, ¬ Busy g i → NodeOk sb g i (sb.dinode g.s.blk i)

structure Inv [Fintype P] (sb : FsSuper) (g : Ghost P K M) : Prop where
  table : Table sb g
  store : Store sb g.s.blk g.whose
  agree : Agree sb g

/-! ## What a process relies on -/

/-- a dinode whose inode is locked changes only if it was free, when it is allocated -/
def DiskKept (d d' : Dinode) : Prop := d' = d ∨ d.type = 0 ∧ d'.Bare

structure Rely (sb : FsSuper) (p : P) (g h : Ghost P K M) : Prop where
  view : h.view p = g.view p
  cwd : h.s.cwd p = g.s.cwd p
  ofile : h.s.ofile p = g.s.ofile p
  lock : ∀ k, h.s.lock k = some p ↔ g.s.lock k = some p
  pin : ∀ k, Pinned p g k → (h.s.inode k).dev = (g.s.inode k).dev ∧
    (h.s.inode k).inum = (g.s.inode k).inum
  held : ∀ k, g.s.lock k = some p → (h.s.inode k).dev = (g.s.inode k).dev ∧
    (h.s.inode k).inum = (g.s.inode k).inum ∧ (h.s.inode k).valid = (g.s.inode k).valid ∧
    (h.s.inode k).d = (g.s.inode k).d
  unopened : ∀ k, g.s.lock k = some p → (∀ f, ¬ Opens g.s f k) → ∀ f, ¬ Opens h.s f k
  disk : ∀ k, g.s.lock k = some p →
    DiskKept (sb.dinode g.s.blk (g.s.inode k).inum) (sb.dinode h.s.blk (g.s.inode k).inum)
  own : ∀ b, Mine p g b → h.whose b = g.whose b ∧ h.s.blk b = g.s.blk b
  new : ∀ b, Mine p h b → g.whose b = h.whose b
  file : ∀ f, 0 < (g.view p).fref f → (h.s.file f).type = (g.s.file f).type ∧
    (h.s.file f).ip = (g.s.file f).ip ∧ (h.s.file f).readable = (g.s.file f).readable ∧
    (h.s.file f).writable = (g.s.file f).writable ∧
    ((g.view p).fref f = (g.s.file f).ref → (h.s.file f).ref = (g.s.file f).ref)

variable {sb : FsSuper} {p q : P} {g h i : Ghost P K M}

theorem DiskKept.rfl (d : Dinode) : DiskKept d d := .inl (Eq.refl d)

theorem DiskKept.trans {a b c : Dinode} (h : DiskKept a b) (h' : DiskKept b c) : DiskKept a c := by
  rcases h with rfl | ⟨ha, hb⟩
  · exact h'
  · rcases h' with rfl | ⟨_, hc⟩
    · exact .inr ⟨ha, hb⟩
    · exact .inr ⟨ha, hc⟩

theorem Rely.refl (sb : FsSuper) (p : P) (g : Ghost P K M) : Rely sb p g g where
  view := rfl
  cwd := rfl
  ofile := rfl
  lock _ := .rfl
  pin _ _ := ⟨rfl, rfl⟩
  held _ _ := ⟨rfl, rfl, rfl, rfl⟩
  unopened _ _ h := h
  disk _ _ := .rfl _
  own _ _ := ⟨rfl, rfl⟩
  new _ _ := rfl
  file _ _ := ⟨rfl, rfl, rfl, rfl, fun _ => rfl⟩

theorem Rely.opens (h1 : Rely sb p g h) {f : Fin M} (hf : 0 < (g.view p).fref f) {k : Fin K} :
    Opens h.s f k ↔ Opens g.s f k := by
  obtain ⟨e1, e2, _⟩ := h1.file f hf
  unfold Opens
  rw [e1, e2]

theorem Rely.pinned (h1 : Rely sb p g h) {k : Fin K} : Pinned p h k ↔ Pinned p g k := by
  unfold Pinned
  rw [h1.view]
  exact or_congr .rfl (exists_congr fun f => and_congr_right fun hf => h1.opens hf)

theorem Rely.owner (h1 : Rely sb p g h) {o : Owner P} : Own p h o ↔ Own p g o := by
  refine or_congr .rfl (exists_congr fun k => ?_)
  rw [h1.lock k]
  refine and_congr_right fun hk => ?_
  obtain ⟨_, e1, e2, _⟩ := h1.held k hk
  rw [e1, e2]

theorem Rely.mine (h1 : Rely sb p g h) {b : ℕ} : Mine p h b ↔ Mine p g b := by
  constructor
  · intro hb
    rw [Mine, h1.new b hb]
    exact h1.owner.1 hb
  · intro hb
    rw [Mine, (h1.own b hb).1]
    exact h1.owner.2 hb

theorem Rely.trans (h1 : Rely sb p g h) (h2 : Rely sb p h i) : Rely sb p g i where
  view := h2.view.trans h1.view
  cwd := h2.cwd.trans h1.cwd
  ofile := h2.ofile.trans h1.ofile
  lock k := (h2.lock k).trans (h1.lock k)
  pin k hk := by
    have e1 := h1.pin k hk
    have e2 := h2.pin k (h1.pinned.2 hk)
    exact ⟨e2.1.trans e1.1, e2.2.trans e1.2⟩
  held k hk := by
    obtain ⟨a1, a2, a3, a4⟩ := h1.held k hk
    obtain ⟨b1, b2, b3, b4⟩ := h2.held k ((h1.lock k).2 hk)
    exact ⟨b1.trans a1, b2.trans a2, b3.trans a3, b4.trans a4⟩
  unopened k hk hf := h2.unopened k ((h1.lock k).2 hk) (h1.unopened k hk hf)
  disk k hk := by
    have e2 := h2.disk k ((h1.lock k).2 hk)
    rw [(h1.held k hk).2.1] at e2
    exact (h1.disk k hk).trans e2
  own b hb := by
    obtain ⟨a1, a2⟩ := h1.own b hb
    obtain ⟨b1, b2⟩ := h2.own b (h1.mine.2 hb)
    exact ⟨b1.trans a1, b2.trans a2⟩
  new b hb := (h1.new b (h2.mine.1 hb)).trans (h2.new b hb)
  file f hf := by
    obtain ⟨a1, a2, a3, a4, a5⟩ := h1.file f hf
    obtain ⟨b1, b2, b3, b4, b5⟩ := h2.file f (h1.view ▸ hf)
    refine ⟨b1.trans a1, b2.trans a2, b3.trans a3, b4.trans a4, fun e => ?_⟩
    have ha := a5 e
    exact (b5 (by rw [h1.view, ha, e])).trans ha

/-! ## What the invariant gives -/

section
variable [Fintype P]

theorem Table.ref_pos (ht : Table sb g) {k : Fin K} (hk : Pinned p g k) : 0 < (g.s.inode k).ref := by
  rw [ht.refs k]
  rcases hk with hk | ⟨f, hf, ho⟩
  · have := Finset.single_le_sum (f := fun q => (g.view q).ref k) (fun _ _ => Nat.zero_le _)
      (Finset.mem_univ p)
    omega
  · have := Finset.single_le_sum (f := fun f => if Opens g.s f k then 1 else 0)
      (fun _ _ => Nat.zero_le _) (Finset.mem_univ f)
    simp only [ho, if_true] at this
    unfold FileSys.opens
    omega

theorem Table.locked_ref (ht : Table sb g) {k : Fin K} (hk : g.s.lock k = some p) :
    0 < (g.s.inode k).ref := ht.ref_pos (ht.lock k p hk)

theorem Table.locked_inum (ht : Table sb g) {k : Fin K} (hk : g.s.lock k = some p) :
    (g.s.inode k).inum < sb.ninodes := (ht.inum k (ht.locked_ref hk)).2

theorem Table.own_unique (ht : Table sb g) {o : Owner P} (hp : Own p g o) (hq : Own q g o) :
    p = q := by
  rcases hp with rfl | ⟨k, hk, _, rfl⟩ <;> rcases hq with hq | ⟨l, hl, _, hq⟩
  · cases hq
    rfl
  · cases hq
  · cases hq
  · injection hq with hq
    have e := ht.uniq k l (ht.locked_ref hk) (ht.locked_ref hl) hq
    rw [e, hl] at hk
    exact (Option.some.inj hk).symm

end

theorem Store.mine_data (hs : Store sb g.s.blk g.whose) {b : ℕ} (hb : Mine p g b) : sb.nmeta ≤ b ∧ b < sb.size := by
  have : g.whose b ≠ .metadata := by
    rcases hb with hb | ⟨k, _, _, hb⟩ <;> rw [hb] <;> exact fun h => by cases h
  rw [Ne, hs.metadata b] at this
  omega

/-! ## Logics -/

/-- the panics that are not excluded here: a full inode table, an unset inode pointer, a link count
that has wrapped, a transaction that is too big -/
def Tolerated (m : FsPanic) : Prop :=
  m = .igetNoInodes ∨ m = .nullInode ∨ m = .unlinkNlink ∨ m = .logTooBig

/-- a logic for process `p` with the invariant above -/
structure Kit [Fintype P] (sb : FsSuper) (p : P)
    (L : Logic (Fsys P K M) (FsLabel P) FsPanic (Ghost P K M)) : Prop where
  inv : ∀ s g, L.inv s g ↔ g.s = s ∧ Inv sb g
  rely : ∀ g h, L.rely g h → Rely sb p g h
  /-- the others' changes and one's own commute -/
  lift : ∀ (u : Ghost P K M → Ghost P K M) g h, L.rely g h → Rely sb p (u g) (u h) →
    L.rely (u g) (u h)
  guar : ∀ g l h, (∀ q, q ≠ p → Rely sb q g h) → l ≠ some (.alloc true) → L.guar g l h
  waits : L.waits
  allow : ∀ m, Tolerated m → L.allow m

section
variable [Fintype P] {L : Logic (Fsys P K M) (FsLabel P) FsPanic (Ghost P K M)} {α : Type}

theorem Kit.tooBig (kit : Kit sb p L) : L.allow .logTooBig := kit.allow _ (.inr (.inr (.inr rfl)))

/-- `log_write` panics only for want of room -/
theorem Kit.logWrite (kit : Kit sb p L) {s : Fsys P K M} {b : ℕ} {x : Block} {a : α} {m : FsPanic}
    (h : s.logWrite sb b x a = .panic m) : L.allow m := by
  rw [(Fsys.logWrite_panic h).1]
  exact kit.tooBig

theorem Kit.act (kit : Kit sb p L) {x : Fsys P K M → Reply FsPanic (α × Fsys P K M)}
    {l : Option (FsLabel P)} {R : α → Ghost P K M → Prop} (hl : l ≠ some (.alloc true))
    (ok : L.labels l → ∀ h b s', L.rely g h → Inv sb h → x h.s = .ok (b, s') →
      ∃ u : Ghost P K M → Ghost P K M, (u h).s = s' ∧ Inv sb (u h) ∧
        (∀ q, q ≠ p → Rely sb q h (u h)) ∧ Rely sb p (u g) (u h) ∧ R b (u g))
    (panic : ∀ h m, L.rely g h → Inv sb h → x h.s = .panic m → L.allow m) :
    L.Gives g (Code.act l x .done) R := by
  refine Logic.Gives.act (fun hlab h s b s' hr hi hx => ?_) (fun _ _ _ _ _ => kit.waits)
    (fun h s m hr hi hx => ?_)
  · obtain ⟨rfl, hinv⟩ := (kit.inv _ _).1 hi
    obtain ⟨u, hs, hi', hq, hp, hR⟩ := ok hlab h b s' hr hinv hx
    exact ⟨u g, u h, kit.guar _ _ _ hq hl, (kit.inv _ _).2 ⟨hs, hi'⟩, kit.lift u g h hr hp, hR⟩
  · obtain ⟨rfl, hinv⟩ := (kit.inv _ _).1 hi
    exact panic h m hr hinv hx

/-- an act after which the process takes note of the state as it is -/
theorem Kit.fresh (kit : Kit sb p L) {x : Fsys P K M → Reply FsPanic (α × Fsys P K M)}
    {l : Option (FsLabel P)} {R : α → Ghost P K M → Prop} (hl : l ≠ some (.alloc true))
    (ok : L.labels l → ∀ h b s', L.rely g h → Inv sb h → x h.s = .ok (b, s') →
      ∃ h' : Ghost P K M, h'.s = s' ∧ Inv sb h' ∧ (∀ q, q ≠ p → Rely sb q h h') ∧ R b h')
    (panic : ∀ h m, L.rely g h → Inv sb h → x h.s = .panic m → L.allow m) :
    L.Gives g (Code.act l x .done) R := by
  refine kit.act hl (fun hlab h b s' hr hi hx => ?_) panic
  obtain ⟨h', hs, hi', hq, hR⟩ := ok hlab h b s' hr hi hx
  exact ⟨fun _ => h', hs, hi', hq, .refl sb p h', hR⟩

theorem Kit.read (kit : Kit sb p L) (f : Fsys P K M → α) :
    L.Gives g (Code.read f) fun a h => h = g ∧ ∃ h', L.rely g h' ∧ Inv sb h' ∧ a = f h'.s := by
  refine Logic.Gives.act (fun hlab h s b s' hr hi hx => ?_) (fun _ _ _ _ h => by cases h)
    (fun h s m hr hi hx => by cases hx)
  cases hx
  obtain ⟨rfl, hi'⟩ := (kit.inv _ _).1 hi
  exact ⟨g, h, kit.guar _ _ _ (fun q _ => .refl sb q h) (fun h => by cases h), hi, hr, rfl, h, hr,
    hi', rfl⟩

end

end
end Xv6.FileSys
