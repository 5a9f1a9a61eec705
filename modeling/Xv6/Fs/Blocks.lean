import Xv6.Fs.Ghost

/-!
# Acts on blocks

What a process does to blocks that it owns, to the free map and to the dinodes of inodes that it has
locked.

* `Inv.disk`, `Table.rely_disk`   such a change keeps the invariant, and what the others rely on;
* `balloc_gives`   a block that was free, zeroed, now in the hands of the process;
* `bfree_gives`   a block of the process is free again; the free map has its bit;
* `write_gives`   a block of the process is written;
* `iupdate_gives`, `iallocTurn_gives`   a dinode is written.
-/

set_option linter.unusedSectionVars false

namespace Xv6.FileSys

section
variable {P : Type} {K M : ℕ} {sb : FsSuper} {p q : P} {g h : Ghost P K M}

/-- other blocks, other owners -/
def Ghost.disk (g : Ghost P K M) (blk : ℕ → Block) (logged : List ℕ) (whose : ℕ → Owner P) :
    Ghost P K M :=
  { g with s := { g.s with blk := blk, logged := logged }, whose := whose }

/-- the owners between which `p` may move blocks: itself, a locked inode, the free map; and the
metadata, which is nobody's -/
def Ours (p : P) (g : Ghost P K M) (o : Owner P) : Prop := Own p g o ∨ o = .free ∨ o = .metadata

variable {blk blk' : ℕ → Block} {lg lg' : List ℕ} {w w' : ℕ → Owner P}

/-- what `p` sees of a change made alike to what it knows and to what is -/
theorem Rely.disk_own (hr : Rely sb p g h)
    (hd : ∀ k, g.s.lock k = some p →
      DiskKept (sb.dinode blk (g.s.inode k).inum) (sb.dinode blk' (g.s.inode k).inum))
    (ho : ∀ b, Mine p (g.disk blk lg w) b → w' b = w b ∧ blk' b = blk b)
    (hn : ∀ b, Mine p (h.disk blk' lg' w') b → w b = w' b) :
    Rely sb p (g.disk blk lg w) (h.disk blk' lg' w') where
  view := hr.view
  cwd := hr.cwd
  ofile := hr.ofile
  lock := hr.lock
  pin := hr.pin
  held := hr.held
  unopened := hr.unopened
  disk := hd
  own := ho
  new := hn
  file := hr.file

theorem NodeOk.congr {i : ℕ} {d : Dinode} (hk : NodeOk sb g i d)
    (hw : ∀ b, h.whose b = .node i ↔ g.whose b = .node i)
    (hb : ∀ b, g.whose b = .node i → h.s.blk b = g.s.blk b) : NodeOk sb h i d := by
  have hslot : ∀ n, d.slot h.s.blk n = d.slot g.s.blk n :=
    fun n => Dinode.slot_congr (fun _ => rfl) (fun hz => hb _ (hk.owns.indirect hz)) n
  refine ⟨hk.lt, fun b hwb => hk.data b ((hw b).1 hwb), hk.owns.congr hw (fun n hn _ => ⟨hn, hslot n⟩) (fun n hn _ => ⟨hn, (hslot n).symm⟩),
    ⟨hk.covers.size, fun bn hbn => ?_⟩, fun hty => ?_⟩
  · rw [hslot]
    exact hk.covers.slot bn hbn
  · obtain ⟨h16, he⟩ := hk.dir hty
    refine ⟨h16, fun n hn => ?_⟩
    have hsz := hk.covers.size
    have hc : ∀ o, o < d.size.toNat → d.content h.s.blk o = d.content g.s.blk o := fun o ho => by
      have hlt : o / BSIZE * BSIZE < d.size.toNat := lt_of_le_of_lt (Nat.div_mul_le_self o BSIZE) ho
      have hmax : o / BSIZE < MAXFILE := (Nat.div_lt_iff_lt_mul (by decide)).2 (lt_of_lt_of_le ho hsz)
      unfold Dinode.content
      rw [hslot, hb _ (hk.owns.mem _ (fileSlot_lt hmax) (hk.covers.slot _ hlt))]
    have := he n hn
    unfold Dinode.entryInum at this ⊢
    rwa [hc _ (by omega), hc _ (by omega)]

theorem Bare.nodeOk {i : ℕ} {d : Dinode} (hd : d.Bare) (hi : i < sb.ninodes)
    (hw : ∀ b, g.whose b ≠ .node i) : NodeOk sb g i d :=
  ⟨hi, fun b hb => absurd hb (hw b), hd.owns hw, hd.covers, hd.dirOk _⟩

section
variable [Fintype P]

theorem Table.ours_unique (ht : Table sb g) {o : Owner P} (hp : Ours p g o) (hq : Own q g o) :
    p = q := by
  rcases hp with hp | rfl | rfl
  · exact ht.own_unique hp hq
  · rcases hq with hq | ⟨_, _, _, hq⟩ <;> cases hq
  · rcases hq with hq | ⟨_, _, _, hq⟩ <;> cases hq

/-- what `p` does to its own blocks is no concern of the others -/
theorem Table.rely_disk (ht : Table sb g) (hq : q ≠ p)
    (hc : ∀ b, w b = g.whose b ∧ blk b = g.s.blk b ∨ Ours p g (g.whose b) ∧ Ours p g (w b))
    (hd : ∀ i < sb.ninodes, sb.dinode blk i = sb.dinode g.s.blk i ∨
      (∃ k, g.s.lock k = some p ∧ (g.s.inode k).valid = true ∧ (g.s.inode k).inum = i) ∨
      (sb.dinode g.s.blk i).type = 0 ∧ (sb.dinode blk i).Bare) :
    Rely sb q g (g.disk blk lg w) := by
  have key : ∀ b, Own q g (w b) → w b = g.whose b ∧ blk b = g.s.blk b := fun b hb => by
    rcases hc b with h | ⟨_, h⟩
    · exact h
    · exact absurd (ht.ours_unique h hb).symm hq
  have r := Rely.refl sb q g
  refine { r with disk := fun k hk => ?_, own := fun b hb => ?_, new := fun b hb => (key b hb).1.symm }
  · rcases hd _ (ht.locked_inum hk) with e | ⟨l, hl, _, he⟩ | h
    · exact .inl e
    · have e := ht.uniq l k (ht.locked_ref hl) (ht.locked_ref hk) he
      rw [e, hk] at hl
      exact absurd (Option.some.inj hl) hq
    · exact .inr h
  · rcases hc b with h | ⟨h, _⟩
    · exact h
    · exact absurd (ht.ours_unique h hb).symm hq

/-- a change of blocks keeps the invariant if the free map keeps up with the owners -/
theorem Inv.disk (hi : Inv sb g) (hs : Store sb blk w)
    (hc : ∀ b, w b = g.whose b ∧ blk b = g.s.blk b ∨ Ours p g (g.whose b) ∧ Ours p g (w b))
    (hd : ∀ i < sb.ninodes, sb.dinode blk i = sb.dinode g.s.blk i ∨
      (∃ k, g.s.lock k = some p ∧ (g.s.inode k).valid = true ∧ (g.s.inode k).inum = i) ∨
      (sb.dinode g.s.blk i).type = 0 ∧ (sb.dinode blk i).Bare) :
    Inv sb (g.disk blk lg w) := by
  have ht := hi.table
  have hbusy : ∀ i, ¬ Busy g i → ¬ ∃ k, g.s.lock k = some p ∧ (g.s.inode k).valid = true ∧
      (g.s.inode k).inum = i := fun i hb ⟨k, hk, hv, e⟩ =>
    hb ⟨k, ht.locked_ref hk, e, by rw [hk]; exact fun h => (nomatch h), hv⟩
  have ours : ∀ i o, ¬ Busy g i → Ours p g o → o ≠ .node i := by
    rintro i o hb ((rfl | ⟨k, hk, hv, rfl⟩) | rfl | rfl) e <;> cases e
    exact hbusy _ hb ⟨k, hk, hv, rfl⟩
  refine ⟨⟨ht.inum, ht.uniq, ht.refs, ht.frefs, ht.opened, ht.lock⟩, hs, fun k hr hl hv => ?_,
    hi.agree.file, fun i hlt hb => ?_⟩
  · obtain ⟨e1, e2⟩ := hi.agree.mem k hr hl hv
    refine ⟨?_, e2⟩
    rcases hd _ (ht.inum k hr).2 with e | ⟨l, hll, _, he⟩ | ⟨h0, _⟩
    · exact e1.trans e.symm
    · have e := ht.uniq l k (ht.locked_ref hll) hr he
      have hl : g.s.lock k = none := hl
      rw [e, hl] at hll
      cases hll
    · exact absurd (e1 ▸ h0) e2
  · have hn := hi.agree.node i hlt hb
    show NodeOk sb _ i (sb.dinode blk i)
    rcases hd i hlt with e | h | ⟨h0, hbare⟩
    · rw [e]
      refine hn.congr (fun b => ?_) fun b hwb => ?_
      · rcases hc b with ⟨e, _⟩ | ⟨h1, h2⟩
        · show w b = _ ↔ _
          rw [e]
        · exact iff_of_false (ours i _ hb h2) (ours i _ hb h1)
      · rcases hc b with ⟨_, e⟩ | ⟨h1, _⟩
        · exact e
        · exact absurd hwb (ours i _ hb h1)
    · exact absurd h (hbusy i hb)
    · refine Bare.nodeOk hbare hlt fun b hwb => ?_
      rcases hc b with ⟨e, _⟩ | ⟨_, h2⟩
      · exact (hi.store.bare i hlt h0).not_mine hn.owns b (e.symm.trans hwb)
      · exact ours i _ hb h2 hwb

/-! ## Writing to a block of one's own -/

/-- a change of owners that goes with a write: none, or a block in the hands of `p` is attached to an
inode -/
inductive Handover (p : P) (g : Ghost P K M) : ((ℕ → Owner P) → ℕ → Owner P) → Prop where
  | stay : Handover p g id
  | attach {a : ℕ} {k : Fin K} (ha : g.whose a = .thread p) (hl : g.s.lock k = some p)
      (hv : (g.s.inode k).valid = true) :
      Handover p g fun w => Function.update w a (.node (g.s.inode k).inum)

variable {t : (ℕ → Owner P) → ℕ → Owner P}

theorem Handover.rely (ht : Handover p g t) (hr : Rely sb p g h) : Handover p h t := by
  cases ht with
  | stay => exact .stay
  | @attach a k ha hl hv =>
    obtain ⟨_, e1, e2, _⟩ := hr.held k hl
    rw [← e1]
    refine .attach ?_ ((hr.lock k).2 hl) (e2.trans hv)
    rw [(hr.own a (.inl ha)).1, ha]

theorem Handover.cases (ht : Handover p g t) (b : ℕ) :
    t g.whose b = g.whose b ∨ Own p g (g.whose b) ∧ Own p g (t g.whose b) := by
  cases ht with
  | stay => exact .inl rfl
  | @attach a k ha hl hv =>
    by_cases hb : b = a
    · subst hb
      refine .inr ⟨.inl ha, .inr ⟨k, hl, hv, ?_⟩⟩
      exact Function.update_self ..
    · exact .inl (Function.update_of_ne hb _ _)

/-- an owner that is `p`'s after the change was `p`'s before, so that what it knows is the case -/
theorem Handover.same (ht : Handover p g t) (hr : Rely sb p g h) {c : ℕ}
    (hc : Own p g (t g.whose c) ∨ Own p h (t h.whose c)) :
    t h.whose c = t g.whose c ∧ h.s.blk c = g.s.blk c := by
  have hm : Mine p g c := by
    rcases hc with hc | hc
    · rcases ht.cases c with e | ⟨h1, _⟩
      · rwa [e] at hc
      · exact h1
    · rcases (ht.rely hr).cases c with e | ⟨h1, _⟩
      · rw [e] at hc
        exact hr.mine.1 hc
      · exact hr.mine.1 h1
  obtain ⟨e1, e2⟩ := hr.own c hm
  refine ⟨?_, e2⟩
  cases ht with
  | stay => exact e1
  | @attach a k _ _ _ =>
    dsimp only
    by_cases hca : c = a
    · rw [hca, Function.update_self, Function.update_self]
    · rw [Function.update_of_ne hca, Function.update_of_ne hca, e1]

theorem Own.ne {o : Owner P} (h : Own p g o) : o ≠ .free ∧ o ≠ .metadata := by
  rcases h with rfl | ⟨_, _, _, rfl⟩ <;> exact ⟨fun h => (nomatch h), fun h => (nomatch h)⟩

theorem Table.own_node (hi : Table sb g) {i : ℕ} (h : Own p g (.node i)) : i < sb.ninodes := by
  rcases h with h | ⟨k, hk, _, h⟩
  · cases h
  · cases h
    exact hi.locked_inum hk

/-- the free map has the same bits and the owners are as free and as much metadata as before -/
theorem Inv.store_of_handover (hi : Inv sb g) (ht : Handover p g t)
    (hb : ∀ b < sb.size, sb.used blk b = sb.used g.s.blk b)
    (hd : ∀ i < sb.ninodes, (sb.dinode blk i).type = 0 → (sb.dinode blk i).Bare) :
    Store sb blk (t g.whose) := by
  refine ⟨fun b hlt => ?_, fun b => ?_, fun b i hw => ?_, hd⟩
  · show sb.used blk b = true ↔ t g.whose b ≠ .free
    rw [hb b hlt, hi.store.bits b hlt]
    rcases ht.cases b with e | ⟨h1, h2⟩
    · rw [e]
    · exact iff_of_true h1.ne.1 h2.ne.1
  · show t g.whose b = .metadata ↔ _
    rw [← hi.store.metadata b]
    rcases ht.cases b with e | ⟨h1, h2⟩
    · rw [e]
    · exact iff_of_false h2.ne.2 h1.ne.2
  · have hw : t g.whose b = .node i := hw
    rcases ht.cases b with e | ⟨_, h2⟩
    · exact hi.store.node b i (e ▸ hw)
    · rw [hw] at h2
      exact hi.table.own_node h2

theorem write_step (hok : sb.Ok) (hi : Inv sb g) {b : ℕ} (hb : Mine p g b) (ht : Handover p g t)
    (x : Block) (lg : List ℕ) :
    Inv sb (g.disk (Function.update g.s.blk b x) lg (t g.whose)) ∧
      ∀ q, q ≠ p → Rely sb q g (g.disk (Function.update g.s.blk b x) lg (t g.whose)) := by
  have hdata := (hi.store.mine_data hb).1
  have hdi : ∀ i < sb.ninodes, sb.dinode (Function.update g.s.blk b x) i = sb.dinode g.s.blk i :=
    fun i hlt => hok.dinode_data hdata hlt
  have hc : ∀ c, t g.whose c = g.whose c ∧ Function.update g.s.blk b x c = g.s.blk c ∨
      Ours p g (g.whose c) ∧ Ours p g (t g.whose c) := fun c => by
    rcases ht.cases c with e | ⟨h1, h2⟩
    · by_cases hcb : c = b
      · subst hcb
        exact .inr ⟨.inl hb, .inl (by rw [e]; exact hb)⟩
      · exact .inl ⟨e, Function.update_of_ne hcb _ _⟩
    · exact .inr ⟨.inl h1, .inl h2⟩
  refine ⟨hi.disk (hi.store_of_handover ht (fun c hlt => FsSuper.used_data hdata hlt)
    fun i hlt => ?_) hc fun i hlt => .inl (hdi i hlt), fun q hq => hi.table.rely_disk hq hc fun i hlt =>
      .inl (hdi i hlt)⟩
  rw [hdi i hlt]
  exact hi.store.bare i hlt

theorem write_own (hok : sb.Ok) (hr : Rely sb p g h) (hi : Inv sb h) {b : ℕ} (hb : Mine p g b)
    (ht : Handover p g t) (x : Block) (lg lg' : List ℕ) :
    Rely sb p (g.disk (Function.update g.s.blk b x) lg (t g.whose))
      (h.disk (Function.update h.s.blk b x) lg' (t h.whose)) := by
  have hdata := (hi.store.mine_data (hr.mine.2 hb)).1
  refine hr.disk_own (fun k hk => ?_) (fun c hc => ?_) (fun c hc => ?_)
  · have hlt : (g.s.inode k).inum < sb.ninodes := by
      rw [← (hr.held k hk).2.1]
      exact hi.table.locked_inum ((hr.lock k).2 hk)
    rw [hok.dinode_data hdata hlt, hok.dinode_data hdata hlt]
    exact hr.disk k hk
  · obtain ⟨e1, e2⟩ := ht.same hr (.inl hc)
    refine ⟨e1, ?_⟩
    by_cases hcb : c = b
    · rw [hcb, Function.update_self, Function.update_self]
    · rw [Function.update_of_ne hcb, Function.update_of_ne hcb, e2]
  · exact (ht.same hr (.inr hc)).1.symm

variable {L : Logic (Fsys P K M) (FsLabel P) FsPanic (Ghost P K M)}

theorem write_gives (kit : Kit sb p L) (hok : sb.Ok) {b : ℕ} (hb : Mine p g b)
    (ht : Handover p g t) (F : Block → Block) :
    L.Gives g (Code.atom fun s => s.logWrite sb b (F (s.blk b)) ()) fun _ g' =>
      g' = g.disk (Function.update g.s.blk b (F (g.s.blk b))) (b :: g.s.logged) (t g.whose) := by
  refine kit.act (fun h => by cases h) (fun _ h a s' hr hi hx => ?_) (fun _ _ _ _ hx => kit.logWrite hx)
  obtain ⟨-, rfl⟩ := Fsys.logWrite_ok hx
  have hrp := kit.rely _ _ hr
  obtain ⟨h1, h2⟩ := write_step hok hi (hrp.mine.2 hb) (ht.rely hrp) (F (h.s.blk b)) (b :: h.s.logged)
  refine ⟨fun x => x.disk (Function.update x.s.blk b (F (x.s.blk b))) (b :: x.s.logged) (t x.whose),
    rfl, h1, h2, ?_, rfl⟩
  have e := (hrp.own b hb).2
  show Rely sb p (g.disk (Function.update g.s.blk b (F (g.s.blk b))) _ _)
    (h.disk (Function.update h.s.blk b (F (h.s.blk b))) _ _)
  rw [e]
  exact write_own hok hrp hi hb ht _ _ _

/-! ## The free map -/

/-- the data blocks and the dinodes are the same -/
structure SameData (sb : FsSuper) (blk blk' : ℕ → Block) : Prop where
  data : ∀ b, sb.nmeta ≤ b → blk' b = blk b
  dinode : ∀ i < sb.ninodes, sb.dinode blk' i = sb.dinode blk i

theorem sameData_bitmap (hok : sb.Ok) {b : ℕ} (hb : b < sb.size) (blk : ℕ → Block) (x : Block) :
    SameData sb blk (Function.update blk (sb.BBLOCK b) x) := by
  refine ⟨fun c hc => ?_, fun i hi => hok.dinode_bitmap hi b⟩
  have := sb.bblock_lt hb
  exact Function.update_of_ne (by omega) _ _

theorem bit_step (hok : sb.Ok) (hi : Inv sb g) {b : ℕ} (hlt : b < sb.size) {o : Owner P}
    (ho : Ours p g (g.whose b)) (hm : g.whose b ≠ .metadata) (ho' : Own p g o ∨ o = .free)
    {v : Bool} (hv : v = true ↔ o ≠ .free) {x : Block}
    (hx : ∀ c, sb.used (Function.update g.s.blk (sb.BBLOCK b) x) c =
      if c = b then v else sb.used g.s.blk c) (lg : List ℕ) :
    Inv sb (g.disk (Function.update g.s.blk (sb.BBLOCK b) x) lg (Function.update g.whose b o)) ∧
      ∀ q, q ≠ p → Rely sb q g
        (g.disk (Function.update g.s.blk (sb.BBLOCK b) x) lg (Function.update g.whose b o)) := by
  have hsame := sameData_bitmap hok hlt g.s.blk x
  have hmap : sb.BBLOCK b < sb.nmeta := sb.bblock_lt hlt
  have hmeta : g.whose (sb.BBLOCK b) = .metadata := (hi.store.metadata _).2 (.inl hmap)
  have hom : o ≠ .metadata := by
    rcases ho' with h | rfl
    · exact h.ne.2
    · exact fun h => (nomatch h)
  have hbdata : ¬ (b < sb.nmeta ∨ sb.size ≤ b) := fun h => hm ((hi.store.metadata b).2 h)
  have hc : ∀ c, Function.update g.whose b o c = g.whose c ∧
      Function.update g.s.blk (sb.BBLOCK b) x c = g.s.blk c ∨
      Ours p g (g.whose c) ∧ Ours p g (Function.update g.whose b o c) := fun c => by
    by_cases hcb : c = b
    · subst hcb
      rw [Function.update_self]
      exact .inr ⟨ho, ho'.elim .inl fun h => .inr (.inl h)⟩
    · rw [Function.update_of_ne hcb]
      by_cases hcm : c = sb.BBLOCK b
      · subst hcm
        exact .inr ⟨.inr (.inr hmeta), .inr (.inr hmeta)⟩
      · exact .inl ⟨rfl, Function.update_of_ne hcm _ _⟩
  refine ⟨hi.disk ⟨fun c hcs => ?_, fun c => ?_, fun c i hw => ?_, fun i hlt => ?_⟩ hc fun i hlt =>
    .inl (hsame.dinode i hlt), fun q hq => hi.table.rely_disk hq hc fun i hlt =>
      .inl (hsame.dinode i hlt)⟩
  · show sb.used (Function.update g.s.blk (sb.BBLOCK b) x) c = true ↔
      Function.update g.whose b o c ≠ .free
    rw [hx]
    by_cases hcb : c = b
    · rw [if_pos hcb, hcb, Function.update_self]
      exact hv
    · rw [if_neg hcb, Function.update_of_ne hcb]
      exact hi.store.bits c hcs
  · show Function.update g.whose b o c = .metadata ↔ _
    by_cases hcb : c = b
    · subst hcb
      rw [Function.update_self]
      exact iff_of_false hom hbdata
    · rw [Function.update_of_ne hcb]
      exact hi.store.metadata c
  · have hw : Function.update g.whose b o c = .node i := hw
    by_cases hcb : c = b
    · rw [hcb, Function.update_self] at hw
      subst hw
      rcases ho' with h | h
      · exact hi.table.own_node h
      · cases h
    · rw [Function.update_of_ne hcb] at hw
      exact hi.store.node c i hw
  · show (sb.dinode (Function.update g.s.blk (sb.BBLOCK b) x) i).type = 0 →
      (sb.dinode (Function.update g.s.blk (sb.BBLOCK b) x) i).Bare
    rw [hsame.dinode i hlt]
    exact hi.store.bare i hlt

theorem owner_own (hr : Rely sb p g h) (hi : Inv sb h) {b : ℕ} {o : Owner P}
    (hg : ∀ i < sb.ninodes, sb.dinode blk i = sb.dinode g.s.blk i)
    (hh : ∀ i < sb.ninodes, sb.dinode blk' i = sb.dinode h.s.blk i)
    (hsame : ∀ c, Own p g (Function.update g.whose b o c) → blk' c = blk c) (lg lg' : List ℕ) :
    Rely sb p (g.disk blk lg (Function.update g.whose b o))
      (h.disk blk' lg' (Function.update h.whose b o)) := by
  refine hr.disk_own (fun k hk => ?_) (fun c hc => ⟨?_, hsame c hc⟩) (fun c hc => ?_)
  · have hlt : (g.s.inode k).inum < sb.ninodes := by
      rw [← (hr.held k hk).2.1]
      exact hi.table.locked_inum ((hr.lock k).2 hk)
    rw [hg _ hlt, hh _ hlt]
    exact hr.disk k hk
  · have hc : Own p g (Function.update g.whose b o c) := hc
    by_cases hcb : c = b
    · rw [hcb, Function.update_self, Function.update_self]
    · rw [Function.update_of_ne hcb] at hc ⊢
      rw [Function.update_of_ne hcb]
      exact (hr.own c hc).1
  · have hc : Own p h (Function.update h.whose b o c) := hc
    by_cases hcb : c = b
    · rw [hcb, Function.update_self, Function.update_self]
    · rw [Function.update_of_ne hcb] at hc ⊢
      rw [Function.update_of_ne hcb]
      exact hr.new c hc

/-- `bfree` of a block in the hands of the process: its bit is set, and is cleared -/
theorem bfree_gives (kit : Kit sb p L) (hok : sb.Ok) {b : ℕ} (hb : Mine p g b) :
    L.Gives g (bfree sb b) fun _ g' => ∃ blk, SameData sb g.s.blk blk ∧
      g' = g.disk blk (sb.BBLOCK b :: g.s.logged) (Function.update g.whose b .free) := by
  have hused : ∀ h, L.rely g h → Inv sb h → (h.s.blk (sb.BBLOCK b)).bit (b % BPB) = true := by
    intro h hr hi
    have hbh := (kit.rely _ _ hr).mine.2 hb
    exact (hi.store.bits b (hi.store.mine_data hbh).2).2 hbh.ne.1
  refine kit.act (fun h => by cases h) (fun _ h a s' hr hi hx => ?_) (fun h m hr hi hx => ?_)
  · dsimp only at hx
    rw [if_pos (hused h hr hi)] at hx
    obtain ⟨-, rfl⟩ := Fsys.logWrite_ok hx
    have hrp := kit.rely _ _ hr
    have hbh := hrp.mine.2 hb
    have hlt := (hi.store.mine_data hbh).2
    obtain ⟨h1, h2⟩ := bit_step hok hi hlt (.inl hbh) hbh.ne.2 (.inr rfl)
      (v := false) (by simp) (FsSuper.used_clearBit b) (sb.BBLOCK b :: h.s.logged)
    refine ⟨fun x => x.disk (Function.update x.s.blk (sb.BBLOCK b)
      ((x.s.blk (sb.BBLOCK b)).clearBit (b % BPB))) (sb.BBLOCK b :: x.s.logged)
      (Function.update x.whose b .free), rfl, h1, h2, ?_, _, sameData_bitmap hok hlt _ _, rfl⟩
    have hg := sameData_bitmap hok hlt g.s.blk ((g.s.blk (sb.BBLOCK b)).clearBit (b % BPB))
    have hh := sameData_bitmap hok hlt h.s.blk ((h.s.blk (sb.BBLOCK b)).clearBit (b % BPB))
    refine owner_own hrp hi hg.dinode hh.dinode (fun c hc => ?_) _ _
    by_cases hcb : c = b
    · rw [hcb, Function.update_self] at hc
      exact absurd rfl hc.ne.1
    · rw [Function.update_of_ne hcb] at hc
      have hd := (hi.store.mine_data (hrp.mine.2 hc)).1
      rw [hg.data c hd, hh.data c hd]
      exact (hrp.own c hc).2
  · dsimp only at hx
    rw [if_pos (hused h hr hi)] at hx
    exact kit.logWrite hx

theorem freeBit_some {x : Block} {b size n i r : ℕ} (h : freeBit x b size n i = some r) :
    i ≤ r ∧ r < i + n ∧ b + r < size ∧ x.bit r = false := by
  induction n generalizing i with
  | zero => cases h
  | succ n ih =>
    unfold freeBit at h
    split at h
    · split at h
      · obtain ⟨h1, h2, h3⟩ := ih h
        exact ⟨by omega, by omega, h3⟩
      · cases h
        exact ⟨Nat.le_refl _, by omega, ‹_›, Bool.eq_false_iff.2 ‹_›⟩
    · cases h

theorem freeBit_none {x : Block} {b size n i : ℕ} (h : freeBit x b size n i = none) {r : ℕ}
    (hi : i ≤ r) (hn : r < i + n) (hs : b + r < size) : x.bit r = true := by
  induction n generalizing i with
  | zero => omega
  | succ n ih =>
    unfold freeBit at h
    split at h
    · split at h
      · by_cases hir : i = r
        · rw [← hir]
          assumption
        · exact ih h (by omega) (by omega)
      · cases h
    · omega

/-- nobody else acts -/
def Alone (L : Logic (Fsys P K M) (FsLabel P) FsPanic (Ghost P K M)) : Prop :=
  ∀ g h, L.rely g h → h = g

/-- `p` has got block `a`, which was free -/
structure Taken (sb : FsSuper) (L : Logic (Fsys P K M) (FsLabel P) FsPanic (Ghost P K M)) (p : P)
    (a : ℕ) (g g' : Ghost P K M) : Prop where
  lt : a < sb.size
  free : ∃ h, L.rely g h ∧ Inv sb h ∧ h.whose a = .free
  eq : ∃ blk lg, g' = g.disk blk lg (Function.update g.whose a (.thread p)) ∧
    (∀ b, sb.nmeta ≤ b → b ≠ a → blk b = g.s.blk b) ∧
    ∀ i < sb.ninodes, sb.dinode blk i = sb.dinode g.s.blk i

theorem ballocTurn_gives (kit : Kit sb p L) (hok : sb.Ok) {b : ℕ} (hb : b % BPB = 0) :
    L.Gives g (ballocTurn sb false b) fun r g' =>
      r = none ∧ g' = g ∧ (Alone L → ∀ c < sb.size, c / BPB = b / BPB → g.whose c ≠ .free) ∨
        ∃ a, r = some a ∧ Taken sb L p a g g' := by
  refine kit.act (fun h => by cases h) (fun _ h r s' hr hi hx => ?_) (fun h m hr hi hx => ?_)
  · dsimp only at hx
    have hrp := kit.rely _ _ hr
    cases hf : freeBit (h.s.blk (sb.BBLOCK b)) b sb.size BPB 0 with
    | none =>
      rw [hf] at hx
      cases hx
      refine ⟨id, rfl, hi, fun q _ => .refl sb q h, hrp, .inl ⟨rfl, rfl, fun al c hc he => ?_⟩⟩
      have hb' := Nat.div_add_mod b BPB
      have hc' := Nat.div_add_mod c BPB
      rw [he] at hc'
      have hlt : c % BPB < BPB := Nat.mod_lt _ (by decide)
      have := freeBit_none hf (r := c % BPB) (Nat.zero_le _) (by omega) (by omega)
      rw [← al g h hr, ← hi.store.bits c hc]
      unfold FsSuper.used FsSuper.BBLOCK
      rw [he]
      exact this
    | some bi =>
      rw [hf] at hx
      obtain ⟨rfl, rfl⟩ := Fsys.logWrite_ok hx
      obtain ⟨_, hbi, hlt, hclear⟩ := freeBit_some hf
      rw [Nat.zero_add] at hbi
      have e1 : sb.BBLOCK (b + bi) = sb.BBLOCK b := by
        unfold FsSuper.BBLOCK
        have : (b + bi) / BPB = b / BPB := by
          rw [← Nat.div_add_mod b BPB, hb, Nat.add_zero, Nat.mul_add_div (by decide),
            Nat.div_eq_of_lt hbi, Nat.mul_div_cancel_left _ (by decide)]
          rfl
        rw [this]
      have e2 : (b + bi) % BPB = bi := by
        rw [Nat.add_mod, hb, Nat.zero_add, Nat.mod_mod, Nat.mod_eq_of_lt hbi]
      generalize ha : b + bi = a at *
      rw [← e1, ← e2]
      rw [← e1, ← e2] at hclear
      have hfree : h.whose a = .free := by
        by_contra hne
        have := (hi.store.bits a hlt).2 hne
        unfold FsSuper.used at this
        rw [hclear] at this
        cases this
      have hdata : sb.nmeta ≤ a := by
        by_contra hn
        rw [(hi.store.metadata a).2 (.inl (by omega))] at hfree
        cases hfree
      obtain ⟨h1, h2⟩ := bit_step (p := p) hok hi hlt (o := .thread p) (.inr (.inl hfree))
        (by rw [hfree]; exact fun h => (nomatch h)) (.inl (.inl rfl)) (v := true) (by simp)
        (FsSuper.used_setBit a) (sb.BBLOCK a :: h.s.logged)
      have hmap := sb.bblock_lt hlt
      -- what is in the block is not known before it is zeroed; take what is there
      have hself : Function.update (Function.update h.s.blk (sb.BBLOCK a)
          ((h.s.blk (sb.BBLOCK a)).setBit (a % BPB))) a (h.s.blk a) =
          Function.update h.s.blk (sb.BBLOCK a) ((h.s.blk (sb.BBLOCK a)).setBit (a % BPB)) := by
        refine Function.update_eq_self_iff.2 ?_
        rw [Function.update_of_ne (by omega)]
      refine ⟨fun x => x.disk (Function.update (Function.update x.s.blk (sb.BBLOCK a)
        ((x.s.blk (sb.BBLOCK a)).setBit (a % BPB))) a (h.s.blk a)) (sb.BBLOCK a :: x.s.logged)
        (Function.update x.whose a (.thread p)), ?_, ?_, ?_, ?_, .inr ⟨a, rfl, hlt, ⟨h, hr, hi, hfree⟩,
          _, _, rfl, fun c hc hca => ?_, fun i hil => ?_⟩⟩
      · dsimp only
        rw [hself]
        rfl
      · dsimp only
        rw [hself]
        exact h1
      · dsimp only
        rw [hself]
        exact h2
      · refine owner_own hrp hi (fun i hil => ?_) (fun i hil => ?_) (fun c hc => ?_) _ _
        · rw [hok.dinode_data hdata hil, hok.dinode_bitmap hil]
        · rw [hok.dinode_data hdata hil, hok.dinode_bitmap hil]
        · by_cases hca : c = a
          · rw [hca, Function.update_self, Function.update_self]
          · rw [Function.update_of_ne hca] at hc
            have hd := (hi.store.mine_data (hrp.mine.2 hc)).1
            rw [Function.update_of_ne hca, Function.update_of_ne hca,
              Function.update_of_ne (by omega), Function.update_of_ne (by omega)]
            exact (hrp.own c hc).2
      · rw [Function.update_of_ne hca, Function.update_of_ne (by omega)]
      · rw [hok.dinode_data hdata hil, hok.dinode_bitmap hil]
  · dsimp only at hx
    split at hx
    · exact kit.logWrite hx
    · cases hx

theorem Store.free_data (hs : Store sb g.s.blk g.whose) {a : ℕ} (h : g.whose a = .free) :
    sb.nmeta ≤ a ∧ a < sb.size := by
  have : ¬ (a < sb.nmeta ∨ sb.size ≤ a) := by
    rw [← hs.metadata a, h]
    exact fun h => (nomatch h)
  omega

theorem Taken.data {a : ℕ} {g' : Ghost P K M} (h : Taken sb L p a g g') : sb.nmeta ≤ a := by
  obtain ⟨h', _, hi, hf⟩ := h.free
  exact (hi.store.free_data hf).1

theorem nmeta_pos (sb : FsSuper) : 0 < sb.nmeta := Nat.add_pos_right _ (Nat.succ_pos _)

theorem Taken.not_mine {a : ℕ} {g' : Ghost P K M} (h : Taken sb L p a g g') (kit : Kit sb p L) :
    ¬ Mine p g a := fun hm => by
  obtain ⟨h', hr, _, hf⟩ := h.free
  have e := ((kit.rely _ _ hr).own a hm).1
  rw [hf] at e
  exact hm.ne.1 e.symm

/-- `balloc`: no block, or one that was free and now has only zeros -/
theorem balloc_gives (kit : Kit sb p L) (hok : sb.Ok) :
    L.Gives g (balloc sb false) fun a g' =>
      a = 0 ∧ g' = g ∧ (Alone L → ∀ c < sb.size, g.whose c ≠ .free) ∨
        a ≠ 0 ∧ Taken sb L p a g g' ∧ g'.s.blk a = fun _ => 0 := by
  have loop : ∀ n m, sb.size / BPB + 1 ≤ m + n →
      (Alone L → ∀ c < sb.size, c / BPB < m → g.whose c ≠ .free) →
      L.Gives g (ballocLoop sb false n (m * BPB)) fun a g' =>
        a = 0 ∧ g' = g ∧ (Alone L → ∀ c < sb.size, g.whose c ≠ .free) ∨
          a ≠ 0 ∧ Taken sb L p a g g' ∧ g'.s.blk a = fun _ => 0 := by
    intro n
    induction n with
    | zero =>
      intro m hm hno
      refine .pure (.inl ⟨rfl, rfl, fun al c hc => hno al c hc ?_⟩)
      have : c / BPB ≤ sb.size / BPB := Nat.div_le_div_right (by omega)
      omega
    | succ n ih =>
      intro m hm hno
      unfold ballocLoop
      split
      · refine (ballocTurn_gives kit hok (Nat.mul_mod_left m BPB)).bind fun r g1 h1 => ?_
        rcases h1 with ⟨rfl, rfl, hturn⟩ | ⟨a, rfl, ht⟩
        · have := ih (m + 1) (by omega) fun al c hc hlt => ?_
          · rwa [Nat.succ_mul] at this
          · by_cases he : c / BPB = m
            · exact hturn al c hc (by rw [he, Nat.mul_div_cancel _ (by decide)])
            · exact hno al c hc (by omega)
        · have hmine : Mine p g1 a := by
            obtain ⟨_, _, rfl, _⟩ := ht.eq
            exact .inl (Function.update_self ..)
          refine (write_gives kit hok hmine .stay fun _ _ => 0).bind fun _ g2 e => .pure (.inr ?_)
          have hd := ht.data
          have h0 := nmeta_pos sb
          refine ⟨by omega, ⟨ht.lt, ht.free, ?_⟩, ?_⟩
          · obtain ⟨blk, lg, e1, h2, h3⟩ := ht.eq
            subst e1
            refine ⟨_, _, e, fun c hc hca => ?_, fun i hi => ?_⟩
            · rw [Function.update_of_ne hca]
              exact h2 c hc hca
            · rw [hok.dinode_data hd hi]
              exact h3 i hi
          · rw [e]
            exact Function.update_self ..
      · rename_i hge
        refine .pure (.inl ⟨rfl, rfl, fun al c hc => hno al c hc ?_⟩)
        exact (Nat.div_lt_iff_lt_mul (by decide)).2 (by omega)
  have := loop (sb.size / BPB + 1) 0 (by omega) fun _ c _ h => absurd h (Nat.not_lt_zero _)
  rwa [Nat.zero_mul] at this

/-! ## Dinodes on disk -/

/-- dinode `i` is written -/
def putDinode (sb : FsSuper) (blk : ℕ → Block) (i : ℕ) (d : Dinode) : ℕ → Block :=
  Function.update blk (sb.IBLOCK i) (d.store (blk (sb.IBLOCK i)) (i % IPB))

theorem dinode_put (blk : ℕ → Block) (i : ℕ) (d : Dinode) (j : ℕ) :
    sb.dinode (putDinode sb blk i d) j = if j = i then d else sb.dinode blk j :=
  FsSuper.dinode_store d i j

theorem data_put (hok : sb.Ok) {i : ℕ} (hi : i < sb.ninodes) (blk : ℕ → Block) (d : Dinode) {b : ℕ}
    (hb : sb.nmeta ≤ b) : putDinode sb blk i d b = blk b := by
  have := hok.iblock_lt_nmeta hi
  exact Function.update_of_ne (by omega) _ _

/-- a dinode is written whose inode `p` has locked, or that was free -/
theorem dinode_step (hok : sb.Ok) (hi : Inv sb g) {i : ℕ} (hlt : i < sb.ninodes) {d : Dinode}
    (hd : (∃ k, g.s.lock k = some p ∧ (g.s.inode k).valid = true ∧ (g.s.inode k).inum = i) ∨
      (sb.dinode g.s.blk i).type = 0 ∧ d.Bare)
    (h0 : d.type = 0 → d.Bare) (lg : List ℕ) :
    Inv sb (g.disk (putDinode sb g.s.blk i d) lg g.whose) ∧
      ∀ q, q ≠ p → Rely sb q g (g.disk (putDinode sb g.s.blk i d) lg g.whose) := by
  have hmeta : g.whose (sb.IBLOCK i) = .metadata :=
    (hi.store.metadata _).2 (.inl (hok.iblock_lt_nmeta hlt))
  have hc : ∀ c, g.whose c = g.whose c ∧ putDinode sb g.s.blk i d c = g.s.blk c ∨
      Ours p g (g.whose c) ∧ Ours p g (g.whose c) := fun c => by
    by_cases hcb : c = sb.IBLOCK i
    · subst hcb
      exact .inr ⟨.inr (.inr hmeta), .inr (.inr hmeta)⟩
    · exact .inl ⟨rfl, Function.update_of_ne hcb _ _⟩
  have hdi : ∀ j < sb.ninodes, sb.dinode (putDinode sb g.s.blk i d) j =
      sb.dinode g.s.blk j ∨
      (∃ k, g.s.lock k = some p ∧ (g.s.inode k).valid = true ∧ (g.s.inode k).inum = j) ∨
      (sb.dinode g.s.blk j).type = 0 ∧ (sb.dinode (putDinode sb g.s.blk i d) j).Bare := by
    intro j _
    rw [dinode_put]
    split
    · subst j
      exact .inr hd
    · exact .inl rfl
  refine ⟨hi.disk (hi.store_of_handover (p := p) .stay (fun c _ => hok.used_inode hlt c) fun j hj => ?_) hc hdi,
    fun q hq => hi.table.rely_disk hq hc hdi⟩
  rw [dinode_put]
  split
  · exact h0
  · exact hi.store.bare j hj

theorem dinode_own (hok : sb.Ok) (hr : Rely sb p g h) (hi : Inv sb h) {i : ℕ} (hlt : i < sb.ninodes)
    (d : Dinode) (lg lg' : List ℕ) :
    Rely sb p (g.disk (putDinode sb g.s.blk i d) lg g.whose)
      (h.disk (putDinode sb h.s.blk i d) lg' h.whose) := by
  refine hr.disk_own (fun k hk => ?_) (fun c hc => ⟨(hr.own c hc).1, ?_⟩) (fun c hc => hr.new c hc)
  · rw [dinode_put, dinode_put]
    split
    · exact .rfl d
    · exact hr.disk k hk
  · have hcd := (hi.store.mine_data (hr.mine.2 hc)).1
    rw [data_put hok hlt _ _ hcd, data_put hok hlt _ _ hcd]
    exact (hr.own c hc).2

theorem iupdate_gives (kit : Kit sb p L) (hok : sb.Ok) {k : Fin K} (hl : g.s.lock k = some p)
    (hv : (g.s.inode k).valid = true)
    (h0 : (g.s.inode k).d.type = 0 → (g.s.inode k).d.Bare) :
    L.Gives g (iupdate sb k) fun _ g' => ∃ lg, g' =
      g.disk (putDinode sb g.s.blk (g.s.inode k).inum (g.s.inode k).d) lg g.whose := by
  refine kit.act (fun h => by cases h) (fun _ h a s' hr hi hx => ?_) (fun _ _ _ _ hx => kit.logWrite hx)
  obtain ⟨-, rfl⟩ := Fsys.logWrite_ok hx
  have hrp := kit.rely _ _ hr
  obtain ⟨_, e1, e2, e3⟩ := hrp.held k hl
  have hl' := (hrp.lock k).2 hl
  have hlt := hi.table.locked_inum hl'
  rw [← e3] at h0
  obtain ⟨h1, h2⟩ := dinode_step hok hi hlt (.inl ⟨k, hl', e2.trans hv, rfl⟩) h0 (sb.IBLOCK (h.s.inode k).inum :: h.s.logged)
  refine ⟨fun x => x.disk (putDinode sb x.s.blk (x.s.inode k).inum (x.s.inode k).d)
    (sb.IBLOCK (x.s.inode k).inum :: x.s.logged) x.whose, rfl, h1, h2, ?_, _, rfl⟩
  dsimp only
  rw [e1, e3]
  exact dinode_own hok hrp hi (e1 ▸ hlt) _ _ _

theorem iallocTurn_gives (kit : Kit sb p L) (hok : sb.Ok) {inum : ℕ} (hlt : inum < sb.ninodes)
    (type : BitVec 16) :
    L.Gives g (iallocTurn sb inum type) fun r g' => r = false ∧ g' = g ∨ r = true ∧
      (∃ h, L.rely g h ∧ Inv sb h ∧ (sb.dinode h.s.blk inum).type = 0) ∧
      ∃ lg, g' = g.disk (putDinode sb g.s.blk inum { Dinode.zero with type := type }) lg
        g.whose := by
  have hbare : ({ Dinode.zero with type := type } : Dinode).Bare := by
    refine ⟨rfl, fun i => ?_⟩
    unfold Dinode.addr
    split <;> rfl
  refine kit.act (fun h => by cases h) (fun _ h a s' hr hi hx => ?_) (fun h m hr hi hx => ?_)
  · dsimp only at hx
    have hrp := kit.rely _ _ hr
    split at hx
    · rename_i h0
      obtain ⟨rfl, rfl⟩ := Fsys.logWrite_ok hx
      obtain ⟨h1, h2⟩ := dinode_step (p := p) hok hi hlt (.inr ⟨h0, hbare⟩) (fun _ => hbare)
        (sb.IBLOCK inum :: h.s.logged)
      exact ⟨fun x => x.disk (putDinode sb x.s.blk inum { Dinode.zero with type := type })
        (sb.IBLOCK inum :: x.s.logged) x.whose, rfl, h1, h2, dinode_own hok hrp hi hlt _ _ _,
        .inr ⟨rfl, ⟨h, hr, hi, h0⟩, _, rfl⟩⟩
    · cases hx
      exact ⟨id, rfl, hi, fun q _ => .refl sb q h, hrp, .inl ⟨rfl, rfl⟩⟩
  · dsimp only at hx
    split at hx
    · exact kit.logWrite hx
    · cases hx

end

end
end Xv6.FileSys
