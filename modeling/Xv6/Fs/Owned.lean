import Xv6.Fs.Agree

/-!
# Every block is free or in one place

Calls that do not overlap: a process takes up a call when no other has one under way.

* `alone`   the logic of one process alone, which excludes no label;
* `FsSeq.solo`   what holds along such a run;
* `blocks_owned`   **the blocks of the inodes and the free map agree between the calls**, and
  `balloc` hands out a block that is not in use.
-/

set_option linter.unusedSectionVars false

namespace Xv6.FileSys

section
variable {P : Type} [DecidableEq P] [Fintype P] {K M : ℕ} {sb : FsSuper}
  {σ : ℕ → FsPool P K M} {ev : ℕ → Option (P × Option (FsLabel P))}

/-- the logic of a process while the others are idle -/
def alone (sb : FsSuper) (p : P) : Logic (Fsys P K M) (FsLabel P) FsPanic (Ghost P K M) where
  inv s g := g.s = s ∧ Inv sb g
  rely g h := h = g
  guar g _ h := ∀ q, q ≠ p → Rely sb q g h
  labels _ := True
  waits := True
  allow e := Tolerated e ∨ e = .ilockNoType ∨ e = .dirlookupNotDir ∨ e = .unlinkWritei
  rely_refl _ := rfl
  rely_trans h1 h2 := h2.trans h1

theorem alone_alone (sb : FsSuper) (p : P) : Alone (alone sb p : Logic (Fsys P K M) _ _ _) :=
  fun _ _ h => h

theorem alone_crowd (sb : FsSuper) (p : P) : Crowd sb p (alone sb p : Logic (Fsys P K M) _ _ _) where
  inv _ _ := .rfl
  rely g h e := by
    rw [show h = g from e]
    exact .refl sb p g
  lift u g h e _ := congrArg u e
  guar _ _ _ h _ := h
  waits := trivial
  allow _ h := .inl h
  noType := .inr (.inl rfl)
  notDir := .inr (.inr (.inl rfl))
  writei := .inr (.inr (.inr rfl))
  opened _ _ _ := alone_alone sb p

theorem FsCalls.safe_alone (hok : sb.Ok) {p : P} {c : FsM P K M Unit} (hc : FsCalls sb p c)
    {g : Ghost P K M} (hg : Idle sb p g) : (alone sb p).Safe g c fun _ h => Idle sb p h := by
  have key : (alone sb p).Gives g c fun _ h => Idle sb p h := by
    cases hc with
    | call c => exact (FsCall.code_idle (alone_crowd sb p) hok c hg).bind fun _ g' h => .pure h
    | exit => exact exitFiles_idle (alone_crowd sb p) hok hg
  refine Logic.Safe.mono key fun _ h ⟨g', hr, hi⟩ => ?_
  rw [show h = g' from hr]
  exact hi

/-- the invariant along a run -/
abbrev FsSolo (sb : FsSuper) (s : FsPool P K M) (g : Ghost P K M) : Prop :=
  Pool.Good (alone sb) (fun s g => g.s = s ∧ Inv sb g) (Idle sb) s g

theorem FsSolo.start {s : FsPool P K M} (hs : AtRest sb s.state) (hc : ∀ p, s.code p = .done ()) :
    FsSolo sb s (Fsys.ghost sb s.state) := by
  refine ⟨⟨rfl, hs.inv⟩, fun p => ?_⟩
  rw [hc p]
  intro g hr
  rw [show g = Fsys.ghost sb s.state from hr]
  exact hs.idle p

theorem FsSeq.solo (h : FsSeq sb σ ev) (t : ℕ) : ∃ g, FsSolo sb (σ t) g := by
  have hok := h.init.1.image.ok
  refine Traces.invariant (P := fun s _ => ∃ g, FsSolo sb s g) h (fun s hs => ⟨_, .start hs.1 hs.2⟩) ?_ t
  rintro s ⟨p, l⟩ s' _ ⟨g, hg⟩ hs
  refine hg.solo (fun _ => rfl) (fun p q g l h hq hgu hi => hi.rely (hgu q hq)) (fun p g h e hi => ?_)
    (fun p c g hc hi => hc.safe_alone hok hi) trivial hs
  rw [show h = g from e]
  exact hi

theorem FsSeq.atRest (h : FsSeq sb σ ev) {t : ℕ} (hd : ∀ p, (σ t).code p = .done ()) :
    AtRest sb (σ t).state := by
  obtain ⟨g, hg⟩ := h.solo t
  obtain ⟨hgs, hi⟩ := hg.inv
  rw [← hgs]
  exact .of_idle h.init.1.image.ok hi fun p => hg.idle_of_done (hd p)

/-- the block that `balloc` hands out, whenever the invariant holds -/
theorem Inv.balloc {g : Ghost P K M} (hok : sb.Ok) (hi : Inv sb g) (p : P) {b : ℕ} {s' : Fsys P K M}
    (hrun : (balloc sb false).run g.s = .ok (b, s')) (h0 : b ≠ 0) : g.whose b = .free := by
  have key := Logic.Safe.run (balloc_gives (g := g) (alone_crowd (K := K) (M := M) sb p).toKit hok)
    (fun _ => trivial) ⟨rfl, hi⟩
  rw [hrun] at key
  obtain ⟨h, _, g', _, hr⟩ := key
  rcases hr with ⟨e, _⟩ | ⟨_, htaken, _⟩
  · exact absurd e h0
  · obtain ⟨i, e, _, hf⟩ := htaken.free
    rw [show i = g from e] at hf
    exact hf

/-- **block ownership**: between two calls every nonzero block number of an allocated inode is a data
block, occurs once and is marked in the free map, and every data block that is marked occurs; at no
moment is a free block freed; and what `balloc` hands out, at any moment, is a data block, and not one of
an inode that is not locked -/
theorem blocks_owned (h : FsSeq sb σ ev) (t : ℕ) :
    ((∀ p, (σ t).code p = .done ()) →
      (∀ i, sb.Allocated (σ t).state.blk i → ∀ n < NSLOT, sb.slot (σ t).state.blk i n ≠ 0 →
        sb.nmeta ≤ sb.slot (σ t).state.blk i n ∧ sb.slot (σ t).state.blk i n < sb.size ∧
          sb.used (σ t).state.blk (sb.slot (σ t).state.blk i n) = true) ∧
      (∀ i j, sb.Allocated (σ t).state.blk i → sb.Allocated (σ t).state.blk j →
        ∀ m < NSLOT, ∀ n < NSLOT, sb.slot (σ t).state.blk i m ≠ 0 →
          sb.slot (σ t).state.blk i m = sb.slot (σ t).state.blk j n → i = j ∧ m = n) ∧
      ∀ b, sb.nmeta ≤ b → b < sb.size → sb.used (σ t).state.blk b = true →
        ∃ i n, sb.Allocated (σ t).state.blk i ∧ n < NSLOT ∧ sb.slot (σ t).state.blk i n = b) ∧
    (∀ p, ¬ (σ t).Panics p .freeingFreeBlock) ∧
    ∀ (_ : P) b s', (balloc sb false).run (σ t).state = .ok (b, s') → b ≠ 0 →
      sb.nmeta ≤ b ∧ b < sb.size ∧ ∀ i, sb.Allocated (σ t).state.blk i →
        (∀ k, 0 < ((σ t).state.inode k).ref → ((σ t).state.inode k).inum = i →
          (σ t).state.lock k = none) →
        ∀ n < NSLOT, sb.slot (σ t).state.blk i n ≠ b := by
  have hok := h.init.1.image.ok
  obtain ⟨g, hg⟩ := h.solo t
  obtain ⟨hgs, hi⟩ := hg.inv
  refine ⟨fun hd => ?_, fun p hp => ?_, fun p b s' hrun h0 => ?_⟩
  · have hw := (h.atRest hd).image
    exact ⟨hw.data, hw.once, hw.all⟩
  · have := Pool.Good.allow (L := alone sb) (fun _ => rfl) (fun _ => trivial) hg hp
    rcases this with (h | h | h | h) | h | h | h <;> cases h
  · rw [← hgs] at hrun ⊢
    have hf := hi.balloc hok p hrun h0
    obtain ⟨h1, h2⟩ := hi.store.free_data hf
    refine ⟨h1, h2, fun i ha hno n hn e => ?_⟩
    have hbusy : ¬ Busy g i := fun ⟨k, h1, h2, h3, _⟩ => h3 (hno k h1 h2)
    have hown : g.whose (sb.slot g.s.blk i n) = .node i :=
      (hi.agree.node i ha.1 hbusy).owns.mem n hn (by
        show sb.slot g.s.blk i n ≠ 0
        omega)
    rw [e, hf] at hown
    cases hown

/-- a file gets its first block and is removed -/
def fileCalls : List FsCall :=
  [.openAt [0x61] O_RDWR, .write 0 (fun _ => some 9) 2, .close 0, .unlink [0x61]]

/-- the file has block 35 after the write, and with the file the block is gone -/
theorem blocks_owned_small :
    ((Pool.runAll (callsOf smallSuper 0 (fileCalls.take 2)) smallFs).any fun s =>
      smallSuper.used s.blk 35) = true ∧
    ∃ (σ : ℕ → FsPool (Fin 2) 3 2) (ev : ℕ → Option (Fin 2 × Option (FsLabel (Fin 2)))) (t : ℕ),
      FsSeq smallSuper σ ev ∧
      Pool.runAll (callsOf smallSuper 0 fileCalls) smallFs = some (σ t).state ∧
      ((σ t).state.dinode smallSuper 2).type = 0 ∧ smallSuper.used (σ t).state.blk 35 = false ∧
      ∀ b, smallSuper.nmeta ≤ b → b < smallSuper.size → smallSuper.used (σ t).state.blk b = true →
        ∃ i n, smallSuper.Allocated (σ t).state.blk i ∧ n < NSLOT ∧
          smallSuper.slot (σ t).state.blk i n = b := by
  refine ⟨by decide +kernel, ?_⟩
  have key : ((Pool.runAll (callsOf smallSuper 0 fileCalls) smallFs).any fun s =>
      decide ((s.dinode smallSuper 2).type = 0 ∧ smallSuper.used s.blk 35 = false)) = true := by
    decide +kernel
  obtain ⟨s', hs, e⟩ := (Option.any_eq_true _ _).1 key
  obtain ⟨σ, ev, t, hσ, ht⟩ := FsSeq.of_calls smallFs_atRest hs
  have hidle : ∀ p, (σ t).code p = .done () := fun p => by rw [ht]
  have hst : (σ t).state = s' := by rw [ht]
  refine ⟨σ, ev, t, hσ, by rw [hst, hs], ?_, ?_, ((blocks_owned hσ t).1 hidle).2.2⟩
  · rw [hst]
    exact (of_decide_eq_true e).1
  · rw [hst]
    exact (of_decide_eq_true e).2

end
end Xv6.FileSys
