import Xv6.Fs.Calls

/-!
# The inode table agrees with the disk

* `FsSuper.WellFormed`   a well-formed image;
* `AtRest`   a state between calls whose tables count their references;
* `AtRest.inv`   such a state satisfies the invariant;
* `FsRun`   the processes make any calls, and their acts interleave in any way;
* `inodes_agree`   **entries are unique and agree with the disk, and reading never allocates**.
-/

set_option linter.unusedSectionVars false

namespace Xv6

/-- the inode with number `i` is allocated -/
def FsSuper.Allocated (sb : FsSuper) (blk : ℕ → Block) (i : ℕ) : Prop :=
  i < sb.ninodes ∧ (sb.dinode blk i).type ≠ 0

/-- slot `n` of inode `i` -/
def FsSuper.slot (sb : FsSuper) (blk : ℕ → Block) (i n : ℕ) : ℕ := (sb.dinode blk i).slot blk n

/-- a well-formed image: the blocks of the allocated inodes are data blocks, each is that of one slot
of one inode, and these are the ones marked in the free map; every block below the size of an inode is
there; the entries of directories are numbers of inodes -/
structure FsSuper.WellFormed (sb : FsSuper) (blk : ℕ → Block) : Prop where
  ok : sb.Ok
  metadata : ∀ b < sb.nmeta, sb.used blk b = true
  data : ∀ i, sb.Allocated blk i → ∀ n < NSLOT, sb.slot blk i n ≠ 0 →
    sb.nmeta ≤ sb.slot blk i n ∧ sb.slot blk i n < sb.size ∧ sb.used blk (sb.slot blk i n) = true
  once : ∀ i j, sb.Allocated blk i → sb.Allocated blk j → ∀ m < NSLOT, ∀ n < NSLOT,
    sb.slot blk i m ≠ 0 → sb.slot blk i m = sb.slot blk j n → i = j ∧ m = n
  all : ∀ b, sb.nmeta ≤ b → b < sb.size → sb.used blk b = true →
    ∃ i n, sb.Allocated blk i ∧ n < NSLOT ∧ sb.slot blk i n = b
  covers : ∀ i, sb.Allocated blk i → (sb.dinode blk i).Covers blk
  dir : ∀ i, sb.Allocated blk i → (sb.dinode blk i).DirOk blk sb.ninodes
  bare : ∀ i < sb.ninodes, (sb.dinode blk i).type = 0 → (sb.dinode blk i).Bare

/-- the type of the inode an `open` gives a file for -/
def FsLabel.openedType {P : Type} : FsLabel P → Option (BitVec 16)
  | .opened _ ty _ => some ty
  | _ => none

namespace FileSys

section
variable {P : Type} {K M : ℕ} {sb : FsSuper} {s : Fsys P K M}

/-- nothing is locked, the tables count their references, and the inodes in memory are those on disk -/
structure AtRest [Fintype P] (sb : FsSuper) (s : Fsys P K M) : Prop where
  image : sb.WellFormed s.blk
  lock : ∀ k, s.lock k = none
  inum : ∀ k, 0 < (s.inode k).ref → (s.inode k).dev = ROOTDEV ∧ (s.inode k).inum < sb.ninodes
  uniq : ∀ k l, 0 < (s.inode k).ref → 0 < (s.inode l).ref → (s.inode k).inum = (s.inode l).inum → k = l
  refs : ∀ k, (s.inode k).ref = (∑ p, if s.cwd p = some k then 1 else 0) + opens s k
  frefs : ∀ f, (s.file f).ref = ∑ p, ∑ fd, if s.ofile p fd = some f then 1 else 0
  opened : ∀ f, (s.file f).type ≠ .none → 0 < (s.file f).ref ∧ (s.file f).ip ≠ none
  mem : ∀ k, 0 < (s.inode k).ref → (s.inode k).valid = true →
    (s.inode k).d = s.dinode sb (s.inode k).inum ∧ (s.inode k).d.type ≠ 0
  file : ∀ f k, Opens s f k → (s.inode k).valid = true ∧
    ((s.file f).writable = true → (s.inode k).d.type ≠ T_DIR)

open Classical in
/-- whose the blocks of an image are -/
noncomputable def owners (sb : FsSuper) (blk : ℕ → Block) (b : ℕ) : Owner P :=
  if b < sb.nmeta ∨ sb.size ≤ b then .metadata
  else if h : ∃ i n, sb.Allocated blk i ∧ n < NSLOT ∧ sb.slot blk i n = b then .node h.choose
  else .free

section
variable {blk : ℕ → Block}

theorem owners_metadata (b : ℕ) :
    (owners sb blk b : Owner P) = .metadata ↔ b < sb.nmeta ∨ sb.size ≤ b := by
  unfold owners
  by_cases h : b < sb.nmeta ∨ sb.size ≤ b
  · rw [if_pos h]
    exact iff_of_true rfl h
  · rw [if_neg h]
    refine iff_of_false ?_ h
    split <;> exact fun h => (nomatch h)

theorem owners_node (hw : sb.WellFormed blk) (b i : ℕ) : (owners sb blk b : Owner P) = .node i ↔
    sb.Allocated blk i ∧ b ≠ 0 ∧ ∃ n < NSLOT, sb.slot blk i n = b := by
  have hpos := nmeta_pos sb
  unfold owners
  by_cases h : b < sb.nmeta ∨ sb.size ≤ b
  · rw [if_pos h]
    refine iff_of_false (fun h => (nomatch h)) ?_
    rintro ⟨hi, h0, n, hn, e⟩
    have := hw.data i hi n hn (by rw [e]; exact h0)
    rw [e] at this
    omega
  · rw [if_neg h]
    by_cases hex : ∃ i n, sb.Allocated blk i ∧ n < NSLOT ∧ sb.slot blk i n = b
    · rw [dif_pos hex]
      obtain ⟨n, hi, hn, e⟩ := hex.choose_spec
      have h0 : b ≠ 0 := by omega
      constructor
      · intro h
        injection h with h
        rw [← h]
        exact ⟨hi, h0, n, hn, e⟩
      · rintro ⟨hj, _, k, hk, e'⟩
        rw [(hw.once _ _ hi hj n hn k hk (by rw [e]; exact h0) (e.trans e'.symm)).1]
    · rw [dif_neg hex]
      exact iff_of_false (fun h => (nomatch h)) fun ⟨hi, _, n, hn, e⟩ => hex ⟨i, n, hi, hn, e⟩

theorem owners_thread (b : ℕ) (p : P) : (owners sb blk b : Owner P) ≠ .thread p := by
  unfold owners
  split
  · exact fun h => (nomatch h)
  · split <;> exact fun h => (nomatch h)

theorem owners_store (hw : sb.WellFormed blk) : Store sb blk (owners sb blk : ℕ → Owner P) := by
  refine ⟨fun b hb => ?_, owners_metadata, fun b i h => ((owners_node hw b i).1 h).1.1, hw.bare⟩
  have hpos := nmeta_pos sb
  constructor
  · intro hu hf
    unfold owners at hf
    split at hf
    · cases hf
    · rename_i hm
      split at hf
      · cases hf
      · rename_i hno
        exact hno (hw.all b (by omega) hb hu)
  · intro hf
    by_cases hm : b < sb.nmeta
    · exact hw.metadata b hm
    · cases ho : (owners sb blk b : Owner P) with
      | free => exact absurd ho hf
      | metadata =>
        have := (owners_metadata b).1 ho
        omega
      | node i =>
        obtain ⟨hi, h0, n, hn, e⟩ := (owners_node hw b i).1 ho
        have := (hw.data i hi n hn (by rw [e]; exact h0)).2.2
        rwa [e] at this
      | thread p => exact absurd ho (owners_thread b p)

end

section
variable [Fintype P] [DecidableEq P]

/-- the ghost state between calls -/
noncomputable def Fsys.ghost (sb : FsSuper) (s : Fsys P K M) : Ghost P K M where
  s := s
  whose := owners sb s.blk
  view := fun p => ⟨fun k => if s.cwd p = some k then 1 else 0,
    fun f => ∑ fd, if s.ofile p fd = some f then 1 else 0⟩

theorem WellFormed.nodeOk (hw : sb.WellFormed s.blk) {i : ℕ} (hi : i < sb.ninodes) :
    NodeOk sb (Fsys.ghost sb s) i (sb.dinode s.blk i) := by
  by_cases h0 : (sb.dinode s.blk i).type = 0
  · exact Bare.nodeOk (hw.bare i hi h0) hi fun b hb => ((owners_node hw b i).1 hb).1.2 h0
  · have ha : sb.Allocated s.blk i := ⟨hi, h0⟩
    refine ⟨hi, fun b hb => ?_, ⟨fun n hn hz => (owners_node hw _ i).2 ⟨ha, hz, n, hn, rfl⟩,
      fun m n hm hn hz e => (hw.once i i ha ha m hm n hn hz e).2, fun b hb => ?_⟩,
      hw.covers i ha, hw.dir i ha⟩
    · obtain ⟨_, hb0, n, hn, e⟩ := (owners_node hw b i).1 hb
      have := hw.data i ha n hn (by rw [e]; exact hb0)
      rw [e] at this
      exact ⟨this.1, this.2.1⟩
    · obtain ⟨_, hb0, n, hn, e⟩ := (owners_node hw b i).1 hb
      exact ⟨hb0, n, hn, e⟩

/-- **a quiet state satisfies the invariant** -/
theorem AtRest.inv (hq : AtRest sb s) : Inv sb (Fsys.ghost sb s) := by
  have hno : ∀ i, ¬ Busy (Fsys.ghost sb s) i := fun i ⟨k, _, _, h, _⟩ => h (hq.lock k)
  refine ⟨⟨hq.inum, hq.uniq, hq.refs, hq.frefs, hq.opened, fun k p h => ?_⟩, owners_store hq.image,
    fun k hr _ hv => hq.mem k hr hv, hq.file, fun i hi _ => WellFormed.nodeOk hq.image hi⟩
  have h : s.lock k = some p := h
  rw [hq.lock k] at h
  cases h

theorem AtRest.idle (hq : AtRest sb s) (p : P) : Idle sb p (Fsys.ghost sb s) := by
  refine ⟨(Fsys.ghost sb s).hands p, ⟨fun k => rfl, fun f => rfl⟩, fun k => ?_, fun k _ h => h.elim,
    fun k h => h.elim, fun b => owners_thread b p, rfl⟩
  exact iff_of_false (fun h => by
    have h : s.lock k = some p := h
    rw [hq.lock k] at h
    cases h) fun h => h

/-- **when all processes are idle, the state is at rest again** -/
theorem AtRest.of_idle {g : Ghost P K M} (hok : sb.Ok) (hi : Inv sb g) (hidle : ∀ p, Idle sb p g) :
    AtRest sb g.s := by
  have hlock : ∀ k, g.s.lock k = none := by
    intro k
    cases h : g.s.lock k with
    | none => rfl
    | some p =>
      obtain ⟨m, _, hm⟩ := hidle p
      exact ((hm.lock k).1 h).elim
  have hloose : ∀ b p, g.whose b ≠ .thread p := fun b p => by
    obtain ⟨m, _, hm⟩ := hidle p
    exact hm.loose b
  have hfree : ∀ i, ¬ Busy g i := fun i ⟨k, _, _, h, _⟩ => h (hlock k)
  have hnode := fun i hi' => hi.agree.node i hi' (hfree i)
  have hst := hi.store
  have hlt := hok.nmeta
  have hview : ∀ p k, (g.view p).ref k = if g.s.cwd p = some k then 1 else 0 := fun p k => by
    obtain ⟨m, hid, hm⟩ := hidle p
    rw [hm.ref, hm.cwd]
    exact hid.ref k
  have hfview : ∀ p f, (g.view p).fref f = ∑ fd, if g.s.ofile p fd = some f then 1 else 0 :=
    fun p f => by
      obtain ⟨m, hid, hm⟩ := hidle p
      rw [hm.fref, hm.ofile]
      exact hid.fref f
  refine ⟨⟨hok, fun b hb => ?_, fun i ha n hn h0 => ?_, fun i j hai haj m hm n hn h0 e => ?_,
    fun b hb hbs hu => ?_, fun i ha => (hnode i ha.1).covers, fun i ha => (hnode i ha.1).dir,
    hst.bare⟩, hlock, hi.table.inum, hi.table.uniq, fun k => ?_, fun f => ?_, hi.table.opened,
    fun k hr hv => hi.agree.mem k hr (hlock k) hv, hi.agree.file⟩
  · refine (hst.bits b (by omega)).2 fun h => ?_
    rw [(hst.metadata b).2 (.inl hb)] at h
    cases h
  · have hown : g.whose (sb.slot g.s.blk i n) = .node i := (hnode i ha.1).owns.mem n hn h0
    obtain ⟨h1, h2⟩ : sb.nmeta ≤ sb.slot g.s.blk i n ∧ sb.slot g.s.blk i n < sb.size :=
      (hnode i ha.1).data _ hown
    refine ⟨h1, h2, (hst.bits _ h2).2 fun h => ?_⟩
    rw [h] at hown
    cases hown
  · have h1 : g.whose (sb.slot g.s.blk i m) = .node i := (hnode i hai.1).owns.mem m hm h0
    have h0' : sb.slot g.s.blk j n ≠ 0 := e ▸ h0
    have h2 : g.whose (sb.slot g.s.blk j n) = .node j := (hnode j haj.1).owns.mem n hn h0'
    rw [e, h2] at h1
    injection h1 with h1
    subst h1
    exact ⟨rfl, (hnode j hai.1).owns.inj m n hm hn h0 e⟩
  · cases hw : g.whose b with
    | free => exact absurd hw ((hst.bits b hbs).1 hu)
    | metadata =>
      have := (hst.metadata b).1 hw
      omega
    | node i =>
      have hil := hst.node b i hw
      obtain ⟨hb0, n, hn, e⟩ := (hnode i hil).owns.all b hw
      refine ⟨i, n, ⟨hil, fun h0 => ?_⟩, hn, e⟩
      exact hb0 (e.symm.trans ((hst.bare i hil h0).slot n))
    | thread p => exact absurd hw (hloose b p)
  · rw [hi.table.refs k]
    exact congrArg (· + opens g.s k) (Finset.sum_congr rfl fun p _ => hview p k)
  · rw [hi.table.frefs f]
    exact Finset.sum_congr rfl fun p _ => hfview p f

/-! ## Runs -/

/-- the calls of process `p`, and what its `exit` does to files -/
inductive FsCalls (sb : FsSuper) (p : P) : FsM P K M Unit → Prop where
  | call (c : FsCall) : FsCalls sb p (do let _ ← c.code sb p)
  | exit : FsCalls sb p (exitFiles sb p)

abbrev FsPool (P : Type) (K M : ℕ) : Type 1 := Pool P (Fsys P K M) (FsLabel P) FsPanic

/-- the processes make any calls, from a quiet state on -/
def FsRun (sb : FsSuper) (σ : ℕ → FsPool P K M) (ev : ℕ → Option (P × Option (FsLabel P))) : Prop :=
  Traces (fun s => AtRest sb s.state ∧ ∀ p, s.code p = .done ()) (Pool.Step (FsCalls sb)) σ ev

/-- the processes make any calls, one call after the other, from a state at rest on -/
def FsSeq (sb : FsSuper) (σ : ℕ → FsPool P K M) (ev : ℕ → Option (P × Option (FsLabel P))) : Prop :=
  Traces (fun s => AtRest sb s.state ∧ ∀ p, s.code p = .done ()) (Pool.Solo (FsCalls sb)) σ ev

theorem FsSeq.run {σ : ℕ → FsPool P K M} {ev : ℕ → Option (P × Option (FsLabel P))}
    (h : FsSeq sb σ ev) : FsRun sb σ ev := h.mono (fun _ h => h) fun _ _ _ h => h.1

/-- a directory is opened for reading only -/
def DirsReadOnly (l : Option (FsLabel P)) : Prop :=
  ∀ p omode, l = some (.opened p T_DIR omode) → Writable omode = false

/-- the logic of one process among many -/
def crowd (sb : FsSuper) (p : P) : Logic (Fsys P K M) (FsLabel P) FsPanic (Ghost P K M) where
  inv s g := g.s = s ∧ Inv sb g
  rely := Rely sb p
  guar g l h := (∀ q, q ≠ p → Rely sb q g h) ∧ l ≠ some (.alloc true)
  labels := DirsReadOnly
  waits := True
  allow e := Tolerated e ∨ e = .ilockNoType ∨ e = .dirlookupNotDir ∨ e = .unlinkWritei
  rely_refl := Rely.refl sb p
  rely_trans := Rely.trans

theorem crowd_crowd (sb : FsSuper) (p : P) : Crowd sb p (crowd sb p : Logic (Fsys P K M) _ _ _) where
  inv _ _ := .rfl
  rely _ _ h := h
  lift _ _ _ _ h := h
  guar _ _ _ h1 h2 := ⟨h1, h2⟩
  waits := trivial
  allow _ h := .inl h
  noType := .inr (.inl rfl)
  notDir := .inr (.inr (.inl rfl))
  writei := .inr (.inr (.inr rfl))
  opened omode hl hw := by
    have := hl p omode rfl
    rw [hw] at this
    cases this

theorem Idle.rely {p : P} {g h : Ghost P K M} (hi : Idle sb p g) (hr : Rely sb p g h) : Idle sb p h := by
  obtain ⟨m, hm, hg⟩ := hi
  exact ⟨m, hm, hg.rely hr⟩

theorem FsCalls.safe (hok : sb.Ok) {p : P} {c : FsM P K M Unit} (hc : FsCalls sb p c)
    {g : Ghost P K M} (hg : Idle sb p g) :
    (crowd sb p).Safe g c fun _ h => Idle sb p h := by
  have key : (crowd sb p).Gives g c fun _ h => Idle sb p h := by
    cases hc with
    | call c => exact (FsCall.code_idle (crowd_crowd sb p) hok c hg).bind fun _ g' h => .pure h
    | exit => exact exitFiles_idle (crowd_crowd sb p) hok hg
  exact Logic.Safe.mono key fun _ h ⟨g', hr, hi⟩ => hi.rely hr

/-- the invariant along a run -/
abbrev FsGood (sb : FsSuper) (s : FsPool P K M) (g : Ghost P K M) : Prop :=
  Pool.Good (crowd sb) (fun s g => g.s = s ∧ Inv sb g) (Idle sb) s g

theorem FsGood.start {s : FsPool P K M} (hq : AtRest sb s.state) (hc : ∀ p, s.code p = .done ()) :
    FsGood sb s (Fsys.ghost sb s.state) := by
  refine ⟨⟨rfl, hq.inv⟩, fun p => ?_⟩
  rw [hc p]
  exact fun h hr => (hq.idle p).rely hr

variable {σ : ℕ → FsPool P K M} {ev : ℕ → Option (P × Option (FsLabel P))}

theorem FsGood.step (hok : sb.Ok) {s s' : FsPool P K M} {g : Ghost P K M} {p : P}
    {l : Option (FsLabel P)} (hg : FsGood sb s g) (hl : DirsReadOnly l)
    (hs : Pool.Step (FsCalls sb) s (p, l) s') : l ≠ some (.alloc true) ∧ ∃ g', FsGood sb s' g' := by
  obtain ⟨g', hm, hg'⟩ := Pool.Good.step (L := crowd sb) (fun _ => rfl)
    (fun p q g l h hq hgu => hgu.1 q hq) (fun p c g hc hi => hc.safe hok hi) hg hl hs
  refine ⟨?_, g', hg'⟩
  rcases hm with ⟨_, rfl⟩ | hm
  · exact fun h => (nomatch h)
  · exact hm.2

theorem FsRun.good (h : FsRun sb σ ev) {t : ℕ} (hdir : ∀ u < t, ∀ p l, ev u = some (p, l) → DirsReadOnly l) :
    ∃ g, FsGood sb (σ t) g := by
  have hok := h.init.1.image.ok
  have key := Traces.invariant (P := fun s es => (∀ e ∈ es, DirsReadOnly (Prod.snd e)) →
    ∃ g, FsGood sb s g) h (fun s hs _ => ⟨_, .start hs.1 hs.2⟩) ?_ t
  · refine key fun e he => ?_
    obtain ⟨u, hlt, hu⟩ := Traces.mem_history.1 he
    exact hdir u hlt e.1 e.2 hu
  · rintro s ⟨p, l⟩ s' es ih hs hes
    obtain ⟨g, hg⟩ := ih fun e he => hes e (List.mem_append_left _ he)
    exact (hg.step hok (hes (p, l) (List.mem_append_right _ (List.mem_singleton_self _))) hs).2

/-- **in-memory inodes agree with the disk**, as long as directories are opened for reading only: at every
moment at most one entry in use has an inode; an entry in use that is valid and not locked has the
fields of the dinode; every block of an inode that is not locked is there up to its size; and `readi`
never allocates -/
theorem inodes_agree (h : FsRun sb σ ev) (t : ℕ) (hdir : ∀ u ≤ t, ∀ p l, ev u = some (p, l) → DirsReadOnly l) :
    (∀ k l, 0 < ((σ t).state.inode k).ref → 0 < ((σ t).state.inode l).ref →
      ((σ t).state.inode k).dev = ((σ t).state.inode l).dev →
      ((σ t).state.inode k).inum = ((σ t).state.inode l).inum → k = l) ∧
    (∀ k, 0 < ((σ t).state.inode k).ref → ((σ t).state.inode k).valid = true →
      (σ t).state.lock k = none →
      ((σ t).state.inode k).d = (σ t).state.dinode sb ((σ t).state.inode k).inum) ∧
    (∀ i < sb.ninodes, (∀ k, 0 < ((σ t).state.inode k).ref → ((σ t).state.inode k).inum = i →
        (σ t).state.lock k = none) →
      ∀ bn < (((σ t).state.dinode sb i).size.toNat + BSIZE - 1) / BSIZE,
        sb.slot (σ t).state.blk i (fileSlot bn) ≠ 0) ∧
    ∀ p, ev t ≠ some (p, some (.alloc true)) := by
  obtain ⟨g, hg⟩ := h.good fun u hu => hdir u hu.le
  obtain ⟨hgs, hi⟩ := hg.inv
  rw [← hgs]
  refine ⟨fun k l hk hl _ e => hi.table.uniq k l hk hl e, fun k hk hv hl =>
    (hi.agree.mem k hk hl hv).1, fun i hlt hno bn hbn => ?_, fun p e => ?_⟩
  · have hbusy : ¬ Busy g i := fun ⟨k, h1, h2, h3, _⟩ => h3 (hno k h1 h2)
    have hB : 0 < BSIZE := by decide
    refine (hi.agree.node i hlt hbusy).covers.slot bn ?_
    have h1 := (Nat.lt_div_iff_mul_lt hB).1 hbn
    have e : g.s.dinode sb i = sb.dinode g.s.blk i := rfl
    rw [e] at h1
    generalize bn * BSIZE = x at h1 ⊢
    omega
  · have hs := h.step_of_label e
    exact (hg.step h.init.1.image.ok (hdir t le_rfl p _ e) hs).1 rfl

end

/-! ## A small file system -/

def smallSuper : FsSuper := ⟨⟨80, 30, 2⟩, 8, 32, 33⟩

/-- the entries `.`, `..`, `a` and `b` -/
def smallDirents : List Byte :=
  [1, 0, 0x2e, 0, 0, 0, 0, 0, 0, 0, 0, 0, 0, 0, 0, 0,
   1, 0, 0x2e, 0x2e, 0, 0, 0, 0, 0, 0, 0, 0, 0, 0, 0, 0,
   2, 0, 0x61, 0, 0, 0, 0, 0, 0, 0, 0, 0, 0, 0, 0, 0,
   3, 0, 0x62, 0, 0, 0, 0, 0, 0, 0, 0, 0, 0, 0, 0, 0]

def smallRoot : Dinode :=
  ({ Dinode.zero with type := T_DIR, nlink := 1, size := 64 } : Dinode).setAddr 0 34

def emptyFile : Dinode := { Dinode.zero with type := T_FILE, nlink := 1 }

/-- the root directory, in block 34, and two empty files -/
def smallImage (b : ℕ) : Block :=
  if b = 32 then emptyFile.store (emptyFile.store (smallRoot.store (fun _ => 0) 1) 2) 3
  else if b = 33 then fun o => if o < 4 then 0xff else if o = 4 then 0x07 else 0
  else if b = 34 then fun o => smallDirents.getD o 0
  else fun _ => 0

/-- two processes in the root directory -/
def smallFs : Fsys (Fin 2) 3 2 where
  blk := smallImage
  logged := []
  outstanding := 0
  inode := fun k => ⟨ROOTDEV, ROOTINO, if k = 0 then 2 else 0, false, Dinode.zero⟩
  lock := fun _ => none
  file := fun _ => ⟨.none, 0, false, false, none, 0, 0⟩
  cwd := fun _ => some 0
  ofile := fun _ _ => none

/-- the blocks of an image on the small disk: inode `i` has block `33 + i`, if any -/
theorem wellFormed_of_slots {blk : ℕ → Block}
    (hmeta : ∀ b < smallSuper.nmeta, smallSuper.used blk b = true)
    (hslot : ∀ i < 8, ∀ n < NSLOT, smallSuper.slot blk i n ≠ 0 → n = 0 ∧ smallSuper.slot blk i n = 33 + i ∧
      0 < i ∧ smallSuper.used blk (33 + i) = true)
    (hused : ∀ b < 80, 34 ≤ b → smallSuper.used blk b = true →
      b < 41 ∧ (smallSuper.dinode blk (b - 33)).type ≠ 0 ∧ smallSuper.slot blk (b - 33) 0 = b)
    (hsize : ∀ i < 8, (smallSuper.dinode blk i).size.toNat ≤ 64 ∧
      ((smallSuper.dinode blk i).size.toNat ≠ 0 → smallSuper.slot blk i 0 ≠ 0))
    (hdir : ∀ i < 8, (smallSuper.dinode blk i).size.toNat % 16 = 0 ∧
      ∀ n < 4, 16 * n < (smallSuper.dinode blk i).size.toNat →
        ((smallSuper.dinode blk i).entryInum blk n).toNat < 8)
    (hbare : ∀ i < 8, (smallSuper.dinode blk i).type = 0 → (smallSuper.dinode blk i).size = 0 ∧
      ∀ j, (smallSuper.dinode blk i).addrs j = 0) : smallSuper.WellFormed blk := by
  refine ⟨⟨by decide, by decide, by decide, by decide, by decide⟩, hmeta, ?_, ?_, ?_, ?_, ?_, ?_⟩
  · intro i ha n hn h0
    have hi : i < 8 := ha.1
    obtain ⟨_, e, hpos, hu⟩ := hslot i hi n hn h0
    have hm : smallSuper.nmeta = 34 := rfl
    have hs : smallSuper.size = 80 := rfl
    rw [e]
    exact ⟨by omega, by omega, hu⟩
  · intro i j hi hj m hm n hn h0 e
    obtain ⟨a1, a2, _⟩ := hslot i hi.1 m hm h0
    obtain ⟨b1, b2, _⟩ := hslot j hj.1 n hn (e ▸ h0)
    exact ⟨by omega, a1.trans b1.symm⟩
  · intro b hb hbs hu
    obtain ⟨h1, h2, h3⟩ := hused b hbs hb hu
    have hi : b - 33 < 8 := by omega
    exact ⟨b - 33, 0, ⟨hi, h2⟩, by decide, h3⟩
  · intro i ha
    obtain ⟨h1, h2⟩ := hsize i ha.1
    refine ⟨h1.trans (by decide), fun bn hbn => ?_⟩
    have hb : bn = 0 := by
      rw [show BSIZE = 1024 from rfl] at hbn
      omega
    subst hb
    exact h2 (by omega)
  · intro i ha _
    obtain ⟨h1, h2⟩ := hdir i ha.1
    have := (hsize i ha.1).1
    exact ⟨h1, fun n hn => h2 n (by omega) hn⟩
  · intro i hi h0
    obtain ⟨h1, h2⟩ := hbare i hi h0
    refine ⟨h1, fun j => ?_⟩
    unfold Dinode.addr
    split
    · rw [h2]
      rfl
    · rfl

theorem smallImage_wellFormed : smallSuper.WellFormed smallImage :=
  wellFormed_of_slots (by decide +kernel) (by decide +kernel) (by decide +kernel) (by decide +kernel)
    (by decide +kernel) (by decide +kernel)

theorem smallFs_atRest : AtRest smallSuper smallFs where
  image := smallImage_wellFormed
  lock _ := rfl
  inum := by decide +kernel
  uniq := by decide +kernel
  refs := by decide +kernel
  frefs := by decide +kernel
  opened := by decide +kernel
  mem := fun k _ h => by cases h
  file := fun f k h => (h.1 rfl).elim

/-- the calls of process `p`, one after the other -/
def callsOf (sb : FsSuper) {P : Type} [DecidableEq P] {K M : ℕ} (p : P) (l : List FsCall) :
    List (P × FsM P K M Unit) := l.map fun c => (p, do let _ ← c.code sb p)

theorem callsOf_calls {P : Type} [DecidableEq P] {K M : ℕ} (p : P) (l : List FsCall) :
    ∀ c ∈ callsOf (K := K) (M := M) sb p l, FsCalls sb c.1 c.2 := by
  intro c hc
  obtain ⟨x, _, rfl⟩ := List.mem_map.1 hc
  exact .call x

theorem FsSeq.of_calls {P : Type} [DecidableEq P] [Fintype P] {K M : ℕ} {s s' : Fsys P K M} {p : P}
    {l : List FsCall} (hs : AtRest sb s) (h : Pool.runAll (callsOf sb p l) s = some s') :
    ∃ σ ev t, FsSeq sb σ ev ∧ σ t = ⟨s', fun _ => .done ()⟩ := by
  have hst := Pool.steps_of_runAll (@callsOf_calls sb _ _ _ _ p l) h
  obtain ⟨σ, hσ, e⟩ := Traces.of_steps (I := fun s => AtRest sb s.state ∧ ∀ p, s.code p = .done ())
    ⟨hs, fun _ => rfl⟩ hst
  exact ⟨σ, _, _, hσ, e⟩

/-- both files are opened and closed, then `b` is removed -/
def staleCalls : List FsCall :=
  [.openAt [0x61] O_RDONLY, .openAt [0x62] O_RDONLY, .close 0, .close 1,
    .unlink [0x62]]

/-- an entry that is not in use keeps the fields of an inode that has changed since: `b` was in entry 2,
and is removed by way of entry 1 -/
theorem staleCalls_entry : ∃ (σ : ℕ → FsPool (Fin 2) 3 2) (ev : ℕ → Option (Fin 2 × Option (FsLabel (Fin 2))))
    (t : ℕ) (k : Fin 3), FsRun smallSuper σ ev ∧ ((σ t).state.inode k).valid = true ∧
      (σ t).state.lock k = none ∧
      ((σ t).state.inode k).d ≠ (σ t).state.dinode smallSuper ((σ t).state.inode k).inum := by
  have key : ((Pool.runAll (callsOf smallSuper 0 staleCalls) smallFs).map fun s =>
      ((s.inode 2).valid, (s.lock 2).isNone, (s.inode 2).d.type != (s.dinode smallSuper (s.inode 2).inum).type))
        = some (true, true, true) := by decide +kernel
  obtain ⟨s', hs, e⟩ := Option.map_eq_some_iff.1 key
  obtain ⟨σ, ev, t, hσ, ht⟩ := FsSeq.of_calls smallFs_atRest hs
  refine ⟨σ, ev, t, 2, hσ.run, ?_⟩
  rw [ht]
  injection e with e1 e2
  injection e2 with e2 e3
  exact ⟨e1, Option.isNone_iff_eq_none.1 e2, fun h => bne_iff_ne.1 e3 (congrArg Dinode.type h)⟩

def smallPool : FsPool (Fin 2) 3 2 := ⟨smallFs, fun _ => .done ()⟩

/-- two bytes are written to `a`, and it is opened again with `O_TRUNC` -/
def truncOpens : List (Pool.Move (Fin 2) (Fsys (Fin 2) 3 2) (FsLabel (Fin 2)) FsPanic) :=
  ([.openAt [0x61] O_RDWR, .write 0 (fun _ => some 9) 2, .openAt [0x61] (O_RDWR ||| O_TRUNC)] :
    List FsCall).flatMap fun c =>
      .call 0 (do let _ ← c.code smallSuper 0) :: List.replicate 40 (.act 0)

theorem truncOpens_run : FsRun smallSuper (Traces.drive (Pool.schedule truncOpens) smallPool)
    (Traces.labels (Pool.schedule truncOpens) smallPool) := by
  refine Pool.of_schedule ⟨smallFs_atRest, fun _ => rfl⟩ fun m hm => ?_
  obtain ⟨c, -, hm⟩ := List.mem_flatMap.1 hm
  rcases List.mem_cons.1 hm with rfl | hm
  · exact .call _
  · rw [(List.mem_replicate.1 hm).2]
    trivial

/-- an entry that is not in use is valid and differs from its dinode; and in the middle of `itrunc` a
locked inode has its size, but no block -/
theorem inodes_agree_stale :
    (∃ (σ : ℕ → FsPool (Fin 2) 3 2) (ev : ℕ → Option (Fin 2 × Option (FsLabel (Fin 2)))) (t : ℕ) (k : Fin 3),
      FsRun smallSuper σ ev ∧ ((σ t).state.inode k).valid = true ∧ (σ t).state.lock k = none ∧
      ((σ t).state.inode k).d ≠ (σ t).state.dinode smallSuper ((σ t).state.inode k).inum) ∧
    ∃ (σ : ℕ → FsPool (Fin 2) 3 2) (ev : ℕ → Option (Fin 2 × Option (FsLabel (Fin 2)))) (t : ℕ) (k : Fin 3),
      FsRun smallSuper σ ev ∧ ((σ t).state.inode k).valid = true ∧ (σ t).state.lock k = some 0 ∧
      ((σ t).state.inode k).d.size = 2 ∧
      ((σ t).state.inode k).d.slot (σ t).state.blk (fileSlot 0) = 0 := by
  refine ⟨staleCalls_entry, _, _, 115, 1, truncOpens_run, ?_⟩
  decide +kernel

/-- both processes open `a` for writing at the same time -/
def sharedOpens : List (Pool.Move (Fin 2) (Fsys (Fin 2) 3 2) (FsLabel (Fin 2)) FsPanic) :=
  [.call 0 (do let _ ← (FsCall.openAt [0x61] O_RDWR).code smallSuper 0),
   .call 1 (do let _ ← (FsCall.openAt [0x61] O_RDWR).code smallSuper 1)] ++
    (List.replicate 60 [.act 0, .act 1]).flatten

theorem sharedOpens_run : FsRun smallSuper (Traces.drive (Pool.schedule sharedOpens) smallPool)
    (Traces.labels (Pool.schedule sharedOpens) smallPool) := by
  refine Pool.of_schedule ⟨smallFs_atRest, fun _ => rfl⟩ fun m hm => ?_
  rcases List.mem_append.1 hm with hm | hm
  · rcases List.mem_cons.1 hm with rfl | hm
    · exact .call _
    · rw [List.mem_singleton.1 hm]
      exact .call _
  · obtain ⟨l, hl, hm⟩ := List.mem_flatten.1 hm
    rw [(List.mem_replicate.1 hl).2] at hm
    rcases List.mem_cons.1 hm with rfl | hm
    · trivial
    · rw [List.mem_singleton.1 hm]
      trivial

theorem sharedOpens_readOnly (t : ℕ) (p : Fin 2) (l : Option (FsLabel (Fin 2)))
    (h : Traces.labels (Pool.schedule sharedOpens) smallPool t = some (p, l)) : DirsReadOnly l := by
  have key : ∀ u < 122, (Traces.labels (Pool.schedule sharedOpens) smallPool u).all
      (fun e => e.2.all fun l => l.openedType != some T_DIR) = true := by decide +kernel
  by_cases ht : t < 122
  · intro q omode e
    have hk := key t ht
    rw [h, e] at hk
    cases hk
  · rw [Pool.labels_of_length_le (by show 122 ≤ t; omega)] at h
    cases h

theorem inodes_agree_shared : ∃ (σ : ℕ → FsPool (Fin 2) 3 2)
    (ev : ℕ → Option (Fin 2 × Option (FsLabel (Fin 2)))), FsRun smallSuper σ ev ∧
      ((σ 122).state.inode 1).ref = 2 ∧ ((σ 122).state.inode 1).valid = true ∧
      ((σ 122).state.inode 1).d = (σ 122).state.dinode smallSuper ((σ 122).state.inode 1).inum := by
  have hrun := sharedOpens_run
  have h := (inodes_agree sharedOpens_run 122 fun u _ => sharedOpens_readOnly u).2.1 1
  have key : ((Traces.drive (Pool.schedule sharedOpens) smallPool 122).state.inode 1).ref = 2 ∧
      ((Traces.drive (Pool.schedule sharedOpens) smallPool 122).state.inode 1).valid = true ∧
      (Traces.drive (Pool.schedule sharedOpens) smallPool 122).state.lock 1 = none := by decide +kernel
  generalize Traces.drive (Pool.schedule sharedOpens) smallPool = σ at hrun h key
  obtain ⟨h1, h2, h3⟩ := key
  exact ⟨σ, _, hrun, h1, h2, h (by rw [h1]; exact Nat.two_pos) h2 h3⟩

end
end FileSys
end Xv6
