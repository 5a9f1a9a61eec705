import Xv6.Fs.Content

/-!
# What a process has in hand between two routines

* `Hands`   the references, the current directory and the descriptors of a process;
* `Calm`   it has these inodes locked, they are as on disk and well formed, and it has no block
  that is not attached;
* `iput_gives`   **`iput`**: a reference less, or the inode is freed;
* `iget_calm`, `idupCwd_calm`, `ilock_calm`, `iunlock_calm`, `iput_calm`,
  `iallocLoop_calm`, `itrunc_calm`   what the routines do to what the process has in hand.
-/

set_option linter.unusedSectionVars false

namespace Xv6.FileSys

/-! ## References -/

/-- what a process has in hand -/
@[ext] structure Hands (K M : ℕ) where
  ref : Fin K → ℕ
  fref : Fin M → ℕ
  cwd : Option (Fin K)
  ofile : Fin NOFILE → Option (Fin M)

namespace Hands
variable {K M : ℕ} (m : Hands K M) {k l : Fin K}

/-- a reference more -/
def inc (k : Fin K) : Hands K M := { m with ref := Function.update m.ref k (m.ref k + 1) }

/-- a reference less -/
def dec (k : Fin K) : Hands K M := { m with ref := Function.update m.ref k (m.ref k - 1) }

theorem inc_ref (k l : Fin K) : (m.inc k).ref l = m.ref l + if l = k then 1 else 0 := by
  unfold inc
  by_cases h : l = k
  · subst h
    rw [if_pos rfl]
    exact Function.update_self ..
  · rw [if_neg h]
    exact Function.update_of_ne h _ _

theorem dec_ref (k l : Fin K) : (m.dec k).ref l = m.ref l - if l = k then 1 else 0 := by
  unfold dec
  by_cases h : l = k
  · subst h
    rw [if_pos rfl]
    exact Function.update_self ..
  · rw [if_neg h]
    exact Function.update_of_ne h _ _

theorem inc_pos (k : Fin K) : 0 < (m.inc k).ref k := by
  rw [inc_ref, if_pos rfl]
  omega

theorem le_inc (k l : Fin K) : m.ref l ≤ (m.inc k).ref l := by
  rw [inc_ref]
  omega

@[simp] theorem inc_dec (k : Fin K) : (m.inc k).dec k = m := by
  ext l
  · rw [dec_ref, inc_ref]
    omega
  all_goals rfl

@[simp] theorem inc_inc_dec (k l : Fin K) : ((m.inc k).inc l).dec k = m.inc l := by
  ext a
  · rw [dec_ref, inc_ref, inc_ref, inc_ref]
    omega
  all_goals rfl

end Hands

section
variable {P : Type} {K M : ℕ} {sb : FsSuper} {p q : P} {g g' h : Ghost P K M} {k : Fin K}
  {L : Logic (Fsys P K M) (FsLabel P) FsPanic (Ghost P K M)} {α : Type} {m : Hands K M}
  {held ok : Set (Fin K)}

def Ghost.hands (g : Ghost P K M) (p : P) : Hands K M where
  ref := (g.view p).ref
  fref := (g.view p).fref
  cwd := g.s.cwd p
  ofile := g.s.ofile p

/-- process `p` has exactly the inodes in `held` locked, those in `ok` are as on disk and well formed -/
structure Grip (sb : FsSuper) (p : P) (held ok : Set (Fin K)) (m : Hands K M) (g : Ghost P K M) :
    Prop where
  lock : ∀ k, g.s.lock k = some p ↔ k ∈ held
  uniq : ∀ k l, k ∈ held → l ∈ held → g.inum k = g.inum l → k = l
  clean : ∀ k ∈ ok, Clean sb p k g
  loose : ∀ b, g.whose b ≠ .thread p
  hands : g.hands p = m

/-- process `p` has the inodes in `held` locked, and all of them are as on disk and well formed -/
abbrev Calm (sb : FsSuper) (p : P) (held : Set (Fin K)) (m : Hands K M) (g : Ghost P K M) : Prop :=
  Grip sb p held held m g

namespace Grip

theorem ref (hg : Grip sb p held ok m g) : (g.view p).ref = m.ref := congrArg Hands.ref hg.hands
theorem fref (hg : Grip sb p held ok m g) : (g.view p).fref = m.fref := congrArg Hands.fref hg.hands
theorem cwd (hg : Grip sb p held ok m g) : g.s.cwd p = m.cwd := congrArg Hands.cwd hg.hands
theorem ofile (hg : Grip sb p held ok m g) : g.s.ofile p = m.ofile := congrArg Hands.ofile hg.hands

theorem rely (hg : Grip sb p held ok m g) (hr : Rely sb p g h) : Grip sb p held ok m h where
  lock k := (hr.lock k).trans (hg.lock k)
  uniq k l hk hl e := by
    have e1 := (hr.held k ((hg.lock k).2 hk)).2.1
    have e2 := (hr.held l ((hg.lock l).2 hl)).2.1
    exact hg.uniq k l hk hl (e1.symm.trans (e.trans e2))
  clean k hk := (hg.clean k hk).rely hr
  loose b hb := by
    have := hr.new b (.inl hb)
    exact hg.loose b (this.trans hb)
  hands := by
    rw [← hg.hands]
    unfold Ghost.hands
    rw [hr.view, hr.cwd, hr.ofile]

theorem mono {ok' : Set (Fin K)} (hg : Grip sb p held ok m g) (h : ok' ⊆ ok) :
    Grip sb p held ok' m g := { hg with clean := fun k hk => hg.clean k (h hk) }

theorem loc (hg : Grip sb p held ok m g) (hl : Local sb L p k g g') (hk : k ∈ held) (hno : k ∉ ok)
    (hsub : ok ⊆ held) : Grip sb p held ok m g' where
  lock l := by
    rw [hl.lock]
    exact hg.lock l
  uniq l n hl' hn e := by
    rw [hl.inum l, hl.inum n] at e
    exact hg.uniq l n hl' hn e
  clean l hlo := by
    have hc := hg.clean l hlo
    have hlk : l ≠ k := fun e => hno (e ▸ hlo)
    have hi : g.inum l ≠ g.inum k := fun e => hlk (hg.uniq l k (hsub hlo) hk e)
    have hine : (Owner.node (g.inum l) : Owner P) ≠ .node (g.inum k) := fun e => by
      injection e with e
      exact hi e
    have hmine : ∀ b, g.whose b = .node (g.inum l) → Mine p g b := fun b hb =>
      .inr ⟨l, hc.lock, hc.valid, hb⟩
    -- a block of the inode is not touched
    have key : ∀ b, g.whose b = .node (g.inum l) →
        g'.whose b = g.whose b ∧ (sb.nmeta ≤ b → g'.s.blk b = g.s.blk b) := fun b hb => by
      have h1 : g.whose b ≠ .node (g.inum k) := by rw [hb]; exact hine
      have h2 : g'.whose b ≠ .node (g.inum k) := fun e =>
        ((hl.taken b e).resolve_left h1).1 (hmine b hb)
      exact (hl.kept b h1 h2).resolve_right fun h => h.2.1 (hmine b hb)
    have ed := hl.inode_ne hlk
    refine ⟨⟨by rw [hl.lock]; exact hc.lock, by rw [ed]; exact hc.valid⟩, ?_, by rw [ed]; exact hc.type, ?_⟩
    · rw [ed, hl.dinode _ hc.node.lt hi]
      exact hc.disk
    · rw [ed]
      refine hc.node.congr (fun b => ⟨fun hb => ?_, fun hb => (key b hb).1.trans hb⟩)
        fun b hb => (key b hb).2 (hc.node.data b hb).1
      have hb : g'.whose b = .node (g.inum l) := hb
      have h2 : g'.whose b ≠ .node (g.inum k) := by rw [hb]; exact hine
      have h1 : g.whose b ≠ .node (g.inum k) := fun e => by
        rcases hl.left b e with e' | e'
        · exact h2 e'
        · rw [e'] at hb
          cases hb
      rcases hl.kept b h1 h2 with ⟨e, _⟩ | ⟨e, _⟩
      · exact e.symm.trans hb
      · rw [e] at hb
        cases hb
  loose b hb := by
    have h2 : g'.whose b ≠ .node (g.inum k) := by
      rw [hb]
      exact fun h => (nomatch h)
    by_cases h1 : g.whose b = .node (g.inum k)
    · rcases hl.left b h1 with e | e
      · exact h2 e
      · rw [e] at hb
        cases hb
    · rcases hl.kept b h1 h2 with ⟨e, _⟩ | ⟨e, _⟩
      · exact hg.loose b (e.symm.trans hb)
      · rw [e] at hb
        cases hb
  hands := by
    rw [← hg.hands]
    unfold Ghost.hands
    rw [hl.view, hl.cwd, hl.ofile]

/-- the inode that has changed is again as on disk and well formed -/
theorem local_clean (hg : Calm sb p held m g) (hl : Local sb L p k g g') (hk : k ∈ held)
    (hc : Clean sb p k g') : Calm sb p held m g' := by
  have := (hg.mono (Set.sdiff_subset (s := held) (t := {k}))).loc hl hk (fun h => h.2 rfl) Set.sdiff_subset
  refine { this with clean := fun l hlo => ?_ }
  by_cases hlk : l = k
  · rw [hlk]
    exact hc
  · exact this.clean l ⟨hlo, hlk⟩

end Grip

/-! ## Transactions -/

/-- the log in another state -/
def Ghost.log (g : Ghost P K M) (o : ℕ) (l : List ℕ) : Ghost P K M :=
  { g with s := { g.s with outstanding := o, logged := l } }

theorem Rely.log (hr : Rely sb p g h) (o o' : ℕ) (l l' : List ℕ) :
    Rely sb p (g.log o l) (h.log o' l') :=
  ⟨hr.view, hr.cwd, hr.ofile, hr.lock, hr.pin, hr.held, hr.unopened, hr.disk, hr.own, hr.new, hr.file⟩

theorem Grip.log (hg : Grip sb p held ok m g) (o : ℕ) (l : List ℕ) :
    Grip sb p held ok m (g.log o l) := by
  refine ⟨hg.lock, hg.uniq, fun k hk => ?_, hg.loose, hg.hands⟩
  have hc := hg.clean k hk
  exact ⟨⟨hc.lock, hc.valid⟩, hc.disk, hc.type, hc.node.congr (fun _ => .rfl) fun _ _ => rfl⟩

section
variable [Fintype P] [DecidableEq P]

theorem Inv.log (hi : Inv sb g) (o : ℕ) (l : List ℕ) : Inv sb (g.log o l) := by
  have ht := hi.table
  refine ⟨⟨ht.inum, ht.uniq, ht.refs, ht.frefs, ht.opened, ht.lock⟩, hi.store, hi.agree.mem,
    hi.agree.file, fun i hlt hb => ?_⟩
  exact (hi.agree.node i hlt hb).congr (fun _ => .rfl) fun _ _ => rfl

/-- an act on the log alone -/
theorem Kit.log (kit : Kit sb p L) {x : Fsys P K M → Reply FsPanic (Unit × Fsys P K M)}
    {o : Fsys P K M → ℕ} {l : Fsys P K M → List ℕ}
    (hx : ∀ s r, x s = .ok r → r.2 = { s with outstanding := o s, logged := l s })
    (hp : ∀ s m, x s ≠ .panic m) :
    L.Gives g (Code.atom x) fun _ g' => ∃ o l, g' = g.log o l := by
  refine kit.act (fun h => by cases h) (fun _ h a s' hr hi hxs => ?_) fun h m _ _ hxs => absurd hxs (hp h.s m)
  refine ⟨fun g => g.log (o g.s) (l g.s), (hx h.s (a, s') hxs).symm, hi.log .., fun q _ => ?_,
    (kit.rely _ _ hr).log .., _, _, rfl⟩
  exact (Rely.refl sb q h).log h.s.outstanding _ h.s.logged _

/-- **a transaction**: what the routine does between `begin_op` and `end_op`, whatever is in the log -/
theorem inOp_gives (kit : Kit sb p L) {c : FsM P K M α} {R : α → Ghost P K M → Prop}
    (hR : ∀ a g o l, R a g → R a (g.log o l)) (hc : ∀ o l, L.Gives (g.log o l) c R) :
    L.Gives g (inOp c) R := by
  have hbegin : L.Gives g (beginOp : FsM P K M Unit) fun _ g' => ∃ o l, g' = g.log o l := by
    refine kit.log (o := fun s => s.outstanding + 1) (l := fun s => s.logged) (fun s r h => ?_) fun s m h => ?_
    · split at h
      · cases h
      · cases h
        rfl
    · split at h <;> cases h
  refine hbegin.bind fun _ g1 h1 => ?_
  obtain ⟨o, l, rfl⟩ := h1
  refine (hc o l).bind fun a g2 h2 => ?_
  refine Logic.Gives.bind (kit.log (o := fun s => s.outstanding - 1)
    (l := fun s => if s.outstanding - 1 = 0 then [] else s.logged) (fun s r h => ?_) fun s m h => ?_) ?_
  · cases h
    rfl
  · cases h
  · rintro _ _ ⟨o, l, rfl⟩
    exact .pure (hR a g2 o l h2)

end

/-! ## `iput` -/

section
variable [Fintype P] [DecidableEq P]

/-- `p` has one reference less to the inode in entry `k` -/
def Ghost.put (g : Ghost P K M) (p : P) (k : Fin K) : Ghost P K M :=
  g.tab p k { g.s.inode k with ref := (g.s.inode k).ref - 1 }
    { g.view p with ref := Function.update (g.view p).ref k ((g.view p).ref k - 1) }

/-- the next `iput` of the inode frees it -/
def Last (g : Ghost P K M) (k : Fin K) : Prop :=
  (g.s.inode k).ref = 1 ∧ (g.s.inode k).valid = true ∧ (g.d k).nlink = 0

/-- an inode with one reference, which is of a process, is not open -/
theorem Inv.unopened (hi : Inv sb g) (hp : 0 < (g.view p).ref k) (h1 : (g.s.inode k).ref = 1)
    (f : Fin M) : ¬ Opens g.s f k := fun ho => by
  have := Finset.single_le_sum (f := fun q => (g.view q).ref k) (fun _ _ => Nat.zero_le _)
    (Finset.mem_univ p)
  have hs := hi.table.refs k
  have h2 := Finset.single_le_sum (f := fun f => if Opens g.s f k then 1 else 0)
    (fun _ _ => Nat.zero_le _) (Finset.mem_univ f)
  simp only [ho, if_true] at h2
  unfold FileSys.opens at hs
  omega

theorem put_step (hi : Inv sb g) (hp : 0 < (g.view p).ref k)
    (hl : g.s.lock k = some p → 1 < (g.view p).ref k) :
    Inv sb (g.put p k) ∧ ∀ q, q ≠ p → Rely sb q g (g.put p k) := by
  have := ref_le hi p k
  exact ⟨count_step hi (by omega) (by omega) fun h => by have := hl h; omega,
    fun q hq => rely_tab hq (fun _ => ⟨rfl, rfl⟩) fun _ => ⟨rfl, rfl, rfl, rfl⟩⟩

theorem iputCheck_gives (kit : Kit sb p L) (hp : 0 < (g.view p).ref k)
    (hl : g.s.lock k = some p → 1 < (g.view p).ref k) :
    L.Gives g (iputCheck p k) fun r g' => ∃ h, L.rely g h ∧ Inv sb h ∧ Inv sb g' ∧
      (r = true ∧ Last h k ∧ h.s.lock k = none ∧ g' = h.setLock k (some p) ∨
        r = false ∧ ¬ Last h k ∧ g' = h.put p k) := by
  refine kit.fresh (fun h => by cases h) (fun _ h r s' hr hi hx => ?_) (fun h m hr hi hx => ?_)
  · have hrp := kit.rely _ _ hr
    have hp' : 0 < (h.view p).ref k := by rw [hrp.view]; exact hp
    dsimp only at hx
    split at hx
    · rename_i hlast
      split at hx
      · rename_i hnone
        cases hx
        have hs := take_step hi (.inl hp')
        exact ⟨h.setLock k (some p), rfl, hs, fun q hq => rely_setLock (by rw [hnone]; exact fun h => (nomatch h))
          (fun e => hq (Option.some.inj e).symm), h, hr, hi, hs, .inl ⟨rfl, hlast, hnone, rfl⟩⟩
      · cases hx
    · rename_i hlast
      cases hx
      have hl' : h.s.lock k = some p → 1 < (h.view p).ref k := fun e => by
        rw [hrp.view]
        exact hl ((hrp.lock k).1 e)
      obtain ⟨h1, h2⟩ := put_step hi hp' hl'
      exact ⟨h.put p k, rfl, h1, h2, h, hr, hi, h1, .inr ⟨rfl, hlast, rfl⟩⟩
  · dsimp only at hx
    split at hx
    · split at hx <;> cases hx
    · cases hx

/-- the inode in entry `k` leaves the memory -/
def Ghost.unload (g : Ghost P K M) (p : P) (k : Fin K) : Ghost P K M :=
  g.tab p k { g.s.inode k with valid := false } (g.view p)

/-- an inode without blocks that is free on disk leaves the memory -/
theorem unload_gives (kit : Kit sb p L) (hk : Locked p k g) (hno : ∀ f, ¬ Opens g.s f k)
    (h0 : (sb.dinode g.s.blk (g.inum k)).Bare) (hfree : ∀ b, g.whose b ≠ .node (g.inum k)) :
    L.Gives g (Code.modify fun s => s.setInode k { s.inode k with valid := false }) fun _ g' =>
      ∃ h, L.rely g h ∧ Inv sb h ∧ Inv sb g' ∧ g' = h.unload p k := by
  refine kit.fresh (fun h => by cases h) (fun _ h r s' hr hi hx => ?_) (fun _ _ _ _ hx => by cases hx)
  cases hx
  have hrp := kit.rely _ _ hr
  have hl := (hrp.lock k).2 hk.lock
  have hi1 := (hrp.held k hk.lock).2.1
  have hbare : (sb.dinode h.s.blk (h.s.inode k).inum).Bare := by
    rw [hi1]
    rcases hrp.disk k hk.lock with e | ⟨_, e⟩
    · rw [e]
      exact h0
    · exact e
  have hnode : NodeOk sb h (h.s.inode k).inum (sb.dinode h.s.blk (h.s.inode k).inum) := by
    refine Bare.nodeOk hbare (hi.table.locked_inum hl) fun b hb => hfree b ?_
    have := hrp.new b (.inr ⟨k, hl, (hk.rely hrp).valid, hb⟩)
    rw [this, hb, hi1]
  have hs : Inv sb (h.unload p k) := load_step hi hl (hrp.unopened k hk.lock hno) fun _ => hnode
  exact ⟨h.unload p k, rfl, hs, fun q hq => rely_tab hq (fun _ => ⟨rfl, rfl⟩) fun e => by
    rw [hl] at e
    exact absurd (Option.some.inj e).symm hq, h, hr, hi, hs, rfl⟩

theorem unlocked_gives (kit : Kit sb p L) (hk : g.s.lock k = some p)
    (hv : (g.s.inode k).valid = false) :
    L.Gives g (Code.modify fun s => s.setLock k none) fun _ g' =>
      ∃ h, L.rely g h ∧ Inv sb h ∧ Inv sb g' ∧ g' = h.setLock k none := by
  refine kit.fresh (fun h => by cases h) (fun _ h r s' hr hi hx => ?_) (fun _ _ _ _ hx => by cases hx)
  cases hx
  have hrp := kit.rely _ _ hr
  have hl := (hrp.lock k).2 hk
  have hs : Inv sb (h.setLock k none) := release_step hi hl fun e => by
    rw [(hrp.held k hk).2.2.1, hv] at e
    cases e
  exact ⟨h.setLock k none, rfl, hs, fun q hq => rely_setLock (by rw [hl]; exact fun e => hq (Option.some.inj e).symm)
    (fun e => (nomatch e)), h, hr, hi, hs, rfl⟩

theorem drop_gives (kit : Kit sb p L) (hp : 0 < (g.view p).ref k) (hl : g.s.lock k ≠ some p) :
    L.Gives g (Code.modify fun s => s.setInode k { s.inode k with ref := (s.inode k).ref - 1 })
      fun _ g' => ∃ h, L.rely g h ∧ Inv sb h ∧ Inv sb g' ∧ g' = h.put p k := by
  refine kit.fresh (fun h => by cases h) (fun _ h r s' hr hi hx => ?_) (fun _ _ _ _ hx => by cases hx)
  cases hx
  have hrp := kit.rely _ _ hr
  obtain ⟨h1, h2⟩ := put_step hi (by rw [hrp.view]; exact hp) fun e => absurd ((hrp.lock k).1 e) hl
  exact ⟨h.put p k, rfl, h1, h2, h, hr, hi, h1, rfl⟩

/-- `iput` frees the inode that `p` has locked: the chain of its steps, with what the others do -/
def Freed (sb : FsSuper) (L : Logic (Fsys P K M) (FsLabel P) FsPanic (Ghost P K M)) (p : P)
    (k : Fin K) (g g' : Ghost P K M) : Prop :=
  ∃ g2 lg h3 h4 h5, Emptied sb L p k g g2 ∧
    L.rely (g2.sync sb k { g2.d k with type := 0 } lg) h3 ∧ Inv sb h3 ∧
    L.rely (h3.unload p k) h4 ∧ Inv sb h4 ∧ L.rely (h4.setLock k none) h5 ∧ Inv sb h5 ∧ g' = h5.put p k

/-- **`iput`**: a reference less; the last one to an inode without links frees it -/
theorem iput_gives (kit : Kit sb p L) (hok : sb.Ok) (hp : 0 < (g.view p).ref k)
    (hl : g.s.lock k = some p → 1 < (g.view p).ref k) :
    L.Gives g (iput sb p k) fun _ g' => Inv sb g' ∧ ∃ h, L.rely g h ∧ Inv sb h ∧
      (¬ Last h k ∧ g' = h.put p k ∨
        Last h k ∧ h.s.lock k = none ∧ Freed sb L p k (h.setLock k (some p)) g') := by
  refine (iputCheck_gives kit hp hl).bind fun r g1 h1 => ?_
  obtain ⟨h, hr, hi, hi1, ⟨rfl, hlast, hnone, rfl⟩ | ⟨rfl, hlast, rfl⟩⟩ := h1
  swap
  · exact .pure ⟨hi1, h, hr, hi, .inl ⟨hlast, rfl⟩⟩
  have hrp := kit.rely _ _ hr
  have hp' : 0 < (h.view p).ref k := by rw [hrp.view]; exact hp
  have hc := hi.clean_take (.inl hp') hnone hlast.2.1
  have hno := hi.unopened hp' hlast.1
  rw [if_pos rfl]
  refine (itrunc_gives kit hok hc).bind fun _ g2 h2 => ?_
  have hno2 : ∀ f, ¬ Opens g2.s f k := fun f => by
    unfold Opens
    rw [h2.loc.file]
    exact hno f
  refine sync_gives kit hok h2.toLocked (fun d => { d with type := 0 }) (.inr hno2)
    (fun _ => ⟨h2.bare.size, h2.bare.addr⟩) fun lg => ?_
  have hinum3 := @sync_inum _ _ _ sb k _ g2 { g2.d k with type := 0 } lg
  have hlock3 : Locked p k (g2.sync sb k { g2.d k with type := 0 } lg) :=
    ⟨h2.lock, by rw [sync_self]; exact h2.valid⟩
  have hbare3 : (sb.dinode (g2.sync sb k { g2.d k with type := 0 } lg).s.blk
      ((g2.sync sb k { g2.d k with type := 0 } lg).inum k)).Bare := by
    rw [hinum3, sync_disk]
    exact ⟨h2.bare.size, h2.bare.addr⟩
  refine (unload_gives kit hlock3 hno2 hbare3 (by rw [hinum3]; exact h2.free)).bind fun _ g4 h4 => ?_
  obtain ⟨h3, hr3, hi3, hi4, rfl⟩ := h4
  have hrp3 := kit.rely _ _ hr3
  have hl3 := (hlock3.rely hrp3).lock
  refine (unlocked_gives kit (g := h3.unload p k) hl3 ?_).bind fun _ g5 h5 => ?_
  · exact congrArg Inode.valid (tab_self ..)
  obtain ⟨h4, hr4, hi4', hi5, rfl⟩ := h5
  refine (drop_gives kit (g := h4.setLock k none) ?_ ?_).mono fun _ g6 h6 => ?_
  · have e : h4.view p = h.view p := by
      have e2 : g2.view = h.view := h2.loc.view
      have e3 : h3.view p = g2.view p := hrp3.view
      have e4 : (h3.unload p k).view p = h3.view p := tab_view ..
      rw [(kit.rely _ _ hr4).view, e4, e3, e2]
    show 0 < (h4.view p).ref k
    rw [e]
    exact hp'
  · rw [setLock_self]
    exact fun e => (nomatch e)
  · obtain ⟨h5, hr5, hi5', hi6, rfl⟩ := h6
    exact ⟨hi6, h, hr, hi, .inr ⟨hlast, hnone, g2, lg, h3, h4, h5, h2, hr3, hi3, hr4, hi4', hr5, hi5', rfl⟩⟩

/-! ## What the routines do to what is in hand -/

theorem got_counted (hi : Inv sb g) {i : ℕ} (hf : Fits g k i) {l : Fin K} (hl : 0 < (g.s.inode l).ref) :
    (g.got p k i).s.inode l = { g.s.inode l with ref := ((g.got p k i).s.inode l).ref } := by
  by_cases hlk : l = k
  · subst hlk
    rw [got_used hi hl (hf.same hl), tab_self]
  · unfold Ghost.got
    rw [tab_ne _ _ _ hlk]

theorem put_counted (g : Ghost P K M) (l : Fin K) :
    (g.put p k).s.inode l = { g.s.inode l with ref := ((g.put p k).s.inode l).ref } := by
  by_cases hlk : l = k
  · subst hlk
    rw [Ghost.put, tab_self]
  · rw [Ghost.put, tab_ne _ _ _ hlk]

theorem Clean.counted (hc : Clean sb p k g) (h1 : g'.s.lock = g.s.lock) (h2 : g'.s.blk = g.s.blk)
    (h3 : g'.whose = g.whose) (h4 : g'.s.inode k = { g.s.inode k with ref := (g'.s.inode k).ref }) :
    Clean sb p k g' := by
  refine ⟨⟨by rw [h1]; exact hc.lock, by rw [h4]; exact hc.valid⟩, ?_, by rw [h4]; exact hc.type, ?_⟩
  · rw [h4, h2]
    exact hc.disk
  · rw [h4]
    exact hc.node.congr (fun b => by rw [h3]) fun b _ => by rw [h2]

theorem Clean.got {l : Fin K} (hc : Clean sb p l g) (hi : Inv sb g) {i : ℕ} (hf : Fits g k i) :
    Clean sb p l (g.got p k i) :=
  hc.counted rfl rfl rfl (got_counted hi hf (hi.table.locked_ref hc.lock))

theorem Clean.put {l : Fin K} (hc : Clean sb p l g) : Clean sb p l (g.put p k) :=
  hc.counted rfl rfl rfl (put_counted g l)

namespace Grip

/-- the inode table changes, but not for inodes that are locked -/
theorem table (hg : Grip sb p held ok m g) {m' : Hands K M} (h1 : g'.s.lock = g.s.lock)
    (h2 : g'.s.blk = g.s.blk) (h3 : g'.whose = g.whose) (h4 : ∀ l ∈ held, g'.inum l = g.inum l)
    (h5 : ∀ l ∈ ok, g'.s.inode l = { g.s.inode l with ref := (g'.s.inode l).ref })
    (h6 : g'.hands p = m') : Grip sb p held ok m' g' where
  lock l := by
    rw [h1]
    exact hg.lock l
  uniq l n hl hn e := by
    rw [h4 l hl, h4 n hn] at e
    exact hg.uniq l n hl hn e
  clean l hl := (hg.clean l hl).counted h1 h2 h3 (h5 l hl)
  loose b := by
    rw [h3]
    exact hg.loose b
  hands := h6

theorem pos (hg : Grip sb p held ok m g) (hi : Inv sb g) {l : Fin K} (hl : l ∈ held) :
    0 < (g.s.inode l).ref := hi.table.locked_ref ((hg.lock l).2 hl)

theorem got (hg : Grip sb p held ok m g) (hsub : ok ⊆ held) (hi : Inv sb g) {inum : ℕ}
    (hf : Fits g k inum) : Grip sb p held ok (m.inc k) (g.got p k inum) := by
  have key : ∀ l ∈ held, (g.got p k inum).s.inode l =
      { g.s.inode l with ref := ((g.got p k inum).s.inode l).ref } := fun l hl =>
    got_counted hi hf (hg.pos hi hl)
  refine hg.table rfl rfl rfl (fun l hl => ?_) (fun l hl => key l (hsub hl)) ?_
  · rw [Ghost.inum, key l hl]
  · rw [← hg.hands]
    unfold Ghost.hands Hands.inc
    rw [Ghost.got, tab_view]
    rfl

theorem put (hg : Grip sb p held ok m g) : Grip sb p held ok (m.dec k) (g.put p k) := by
  refine hg.table rfl rfl rfl (fun l _ => ?_) (fun l _ => put_counted g l) ?_
  · rw [Ghost.inum, put_counted g l]
  · rw [← hg.hands]
    unfold Ghost.hands Hands.dec
    rw [Ghost.put, tab_view]
    rfl

theorem release (hg : Grip sb p (insert k held) ok m g) (hk : k ∉ held) (hok : k ∉ ok) :
    Grip sb p held ok m (g.setLock k none) where
  lock l := by
    by_cases hlk : l = k
    · subst hlk
      rw [setLock_self]
      exact iff_of_false (fun h => (nomatch h)) hk
    · rw [setLock_ne _ _ hlk, hg.lock l]
      exact ⟨fun h => h.resolve_left hlk, .inr⟩
  uniq l n hl hn := hg.uniq l n (.inr hl) (.inr hn)
  clean l hl := by
    have hc := hg.clean l hl
    have hlk : l ≠ k := fun e => hok (e ▸ hl)
    exact ⟨⟨by rw [setLock_ne _ _ hlk]; exact hc.lock, hc.valid⟩, hc.disk, hc.type,
      hc.node.congr (fun _ => .rfl) fun _ _ => rfl⟩
  loose := hg.loose
  hands := hg.hands

theorem take (hg : Grip sb p held ok m g) (hi : Inv sb (g.setLock k (some p))) (hk : k ∉ ok) :
    Grip sb p (insert k held) ok m (g.setLock k (some p)) := by
  have hlock : ∀ l, (g.setLock k (some p)).s.lock l = some p ↔ l ∈ insert k held := fun l => by
    by_cases hlk : l = k
    · subst hlk
      rw [setLock_self]
      exact iff_of_true rfl (.inl rfl)
    · rw [setLock_ne _ _ hlk, hg.lock l]
      exact ⟨.inr, fun h => h.resolve_left hlk⟩
  refine ⟨hlock, fun l n hl hn e => ?_, fun l hl => ?_, hg.loose, hg.hands⟩
  · exact hi.table.uniq l n (hi.table.locked_ref ((hlock l).2 hl)) (hi.table.locked_ref ((hlock n).2 hn)) e
  · have hc := hg.clean l hl
    have hlk : l ≠ k := fun e => hk (e ▸ hl)
    exact ⟨⟨by rw [setLock_ne _ _ hlk]; exact hc.lock, hc.valid⟩, hc.disk, hc.type,
      hc.node.congr (fun _ => .rfl) fun _ _ => rfl⟩

end Grip

theorem Grip.notMem (hg : Grip sb p held ok m g) (h : g.s.lock k ≠ some p) : k ∉ held :=
  fun hk => h ((hg.lock k).2 hk)

/-- the inodes in `held` keep their type -/
def Types (held : Set (Fin K)) (g g' : Ghost P K M) : Prop :=
  ∀ l ∈ held, (g'.d l).type = (g.d l).type

theorem Types.refl (held : Set (Fin K)) (g : Ghost P K M) : Types held g g := fun _ _ => rfl

theorem Types.trans {g'' : Ghost P K M} (h1 : Types held g g') (h2 : Types held g' g'') :
    Types held g g'' := fun l hl => (h2 l hl).trans (h1 l hl)

theorem Grip.types (hg : Grip sb p held ok m g) (hr : Rely sb p g h) : Types held g h := fun l hl => by
  rw [Ghost.d, (hr.held l ((hg.lock l).2 hl)).2.2.2]

theorem got_d (g : Ghost P K M) (k l : Fin K) (inum : ℕ) : (g.got p k inum).d l = g.d l := by
  unfold Ghost.got Ghost.d
  by_cases hlk : l = k
  · rw [hlk, tab_self]
  · rw [tab_ne _ _ _ hlk]

theorem put_d (g : Ghost P K M) (k l : Fin K) : (g.put p k).d l = g.d l := by
  unfold Ghost.put Ghost.d
  by_cases hlk : l = k
  · rw [hlk, tab_self]
  · rw [tab_ne _ _ _ hlk]

theorem load_ne (g : Ghost P K M) {l : Fin K} (h : l ≠ k) :
    (g.load sb k).s.inode l = g.s.inode l := Function.update_of_ne h _ _

theorem load_inum (g : Ghost P K M) (l : Fin K) : (g.load sb k).inum l = g.inum l := by
  by_cases h : l = k
  · subst h
    show (Function.update g.s.inode l _ l).inum = _
    rw [Function.update_self]
  · rw [Ghost.inum, load_ne _ h]

theorem iget_calm (kit : Kit sb p L) (hg : Calm sb p held m g) {inum : ℕ} (hlt : inum < sb.ninodes) :
    L.Gives g (iget ROOTDEV inum) fun k g' => Calm sb p held (m.inc k) g' ∧ Types held g g' ∧
      g'.inum k = inum ∧ (Alone L → g'.s.blk = g.s.blk) := by
  refine (iget_gives kit hlt).mono fun k g' h => ?_
  obtain ⟨h, hr, hi, hf, rfl, _⟩ := h
  have hrp := kit.rely _ _ hr
  refine ⟨(hg.rely hrp).got (Set.Subset.refl _) hi hf, fun l hl => ?_, ?_, fun al => ?_⟩
  · rw [got_d]
    exact hg.types hrp l hl
  · unfold Ghost.got
    rw [Ghost.inum, tab_self]
  · rw [al _ _ hr]
    rfl

/-- **`ilock`** of an inode to which `p` has a reference -/
theorem ilock_calm (kit : Kit sb p L) (hno : L.allow .ilockNoType) (hg : Calm sb p held m g)
    (hp : Pinned p g k) :
    L.Gives g (ilock sb p k) fun _ g' => k ∉ held ∧ Calm sb p (insert k held) m g' ∧
      Types held g g' ∧ g'.inum k = g.inum k ∧ (Alone L → g'.s.blk = g.s.blk) ∧ Inv sb g' ∧
      ∃ h, L.rely g h ∧ g'.s.file = h.s.file ∧ g'.view = h.view := by
  refine (ilock_gives kit hp fun _ _ _ _ => hno).mono fun _ g' h => ?_
  obtain ⟨h, hr, hi, hl, rfl, hc, hi'⟩ := h
  have hrp := kit.rely _ _ hr
  have hk : k ∉ held := (hg.rely hrp).notMem (by rw [hl]; exact fun h => (nomatch h))
  have hp' := hrp.pinned.2 hp
  have ht := (hg.rely hrp).take (take_step hi hp') hk
  refine ⟨hk, ⟨fun l => ht.lock l, fun l n hl hn e => ?_, fun l hl => ?_, ht.loose, ht.hands⟩,
    fun l hl => ?_, ?_, fun al => ?_, hi', h, hr, rfl, rfl⟩
  · rw [load_inum, load_inum] at e
    exact ht.uniq l n hl hn e
  · by_cases hlk : l = k
    · rw [hlk]
      exact hc
    · have hcl := ht.clean l (hl.resolve_left hlk)
      have e := @load_ne _ _ _ sb _ _ _ (h.setLock k (some p)) _ hlk
      refine ⟨⟨hcl.lock, by rw [e]; exact hcl.valid⟩, by rw [e]; exact hcl.disk, by rw [e]; exact hcl.type, ?_⟩
      rw [e]
      exact hcl.node.congr (fun _ => .rfl) fun _ _ => rfl
  · have hlk : l ≠ k := fun e => hk (e ▸ hl)
    rw [Ghost.d, load_ne _ hlk]
    exact hg.types hrp l hl
  · rw [load_inum]
    exact (hrp.pin k hp).2
  · rw [al _ _ hr]
    rfl

theorem iunlock_calm (kit : Kit sb p L) (hg : Calm sb p (insert k held) m g) (hk : k ∉ held) :
    L.Gives g (iunlock p k) fun _ g' => Calm sb p held m g' ∧ g'.s.inode = g.s.inode ∧
      g'.s.file = g.s.file ∧ g'.s.blk = g.s.blk := by
  refine (iunlock_gives kit (hg.clean k (.inl rfl))).mono fun _ g' e => ?_
  subst e
  exact ⟨(hg.mono (Set.subset_insert k held)).release hk hk, rfl, rfl, rfl⟩

theorem Emptied.has (he : Emptied sb L p k g g') (hlt : g.inum k < sb.ninodes) : Has sb p k g' :=
  ⟨he.toLocked, by rw [he.loc.inum k]; exact hlt, fun b hb => absurd hb (he.free b), he.bare.owns he.free⟩

theorem unload_ne (g : Ghost P K M) {l : Fin K} (h : l ≠ k) :
    (g.unload p k).s.inode l = g.s.inode l := tab_ne _ _ _ h

theorem unload_inum (g : Ghost P K M) (l : Fin K) : (g.unload p k).inum l = g.inum l := by
  by_cases h : l = k
  · rw [h, Ghost.unload, Ghost.inum, tab_self]
  · rw [Ghost.inum, unload_ne _ h]

theorem Freed.calm (kit : Kit sb p L) (hok : sb.Ok) (hf : Freed sb L p k g g')
    (hg : Grip sb p (insert k held) held m g) (hk : k ∉ held) (hlt : g.inum k < sb.ninodes) :
    Calm sb p held (m.dec k) g' ∧ Types held g g' := by
  obtain ⟨g2, lg, h3, h4, h5, he, hr3, hi3, hr4, hi4, hr5, hi5, rfl⟩ := hf
  have hk' : k ∈ insert k held := .inl rfl
  have hsub : held ⊆ insert k held := Set.subset_insert k held
  have hne : ∀ {l}, l ∈ held → l ≠ k := fun hl e => hk (e ▸ hl)
  have a2 := hg.loc he.loc hk' hk hsub
  have l3 := sync_local (L := L) hok (he.has hlt) { g2.d k with type := 0 } lg
  have a3 := (a2.loc l3 hk' hk hsub).rely (kit.rely _ _ hr3)
  have a4 : Grip sb p (insert k held) held m (h3.unload p k) :=
    a3.table rfl rfl rfl (fun l _ => unload_inum h3 l) (fun l hl => by rw [unload_ne _ (hne hl)]) (by
      rw [← a3.hands]
      unfold Ghost.hands Ghost.unload
      rw [tab_view]
      rfl)
  have a5 := (a4.rely (kit.rely _ _ hr4)).release hk hk
  refine ⟨(a5.rely (kit.rely _ _ hr5)).put, fun l hl => ?_⟩
  rw [put_d, (a5.types (kit.rely _ _ hr5)) l hl]
  have e4 := a4.types (kit.rely _ _ hr4) l (.inr hl)
  have e3 := (a2.loc l3 hk' hk hsub).types (kit.rely _ _ hr3) l (.inr hl)
  show (h4.d l).type = _
  rw [e4, Ghost.d, unload_ne _ (hne hl), e3, Ghost.d, l3.inode_ne (hne hl), he.loc.inode_ne (hne hl)]

theorem iput_calm (kit : Kit sb p L) (hok : sb.Ok) (hg : Calm sb p held m g) (hp : 0 < m.ref k)
    (hl : k ∈ held → 1 < m.ref k) :
    L.Gives g (iput sb p k) fun _ g' => Calm sb p held (m.dec k) g' ∧ Types held g g' := by
  rw [← hg.ref] at hp
  refine (iput_gives kit hok hp fun e => ?_).mono fun _ g' h => ?_
  · rw [hg.ref]
    exact hl ((hg.lock k).1 e)
  obtain ⟨_, h, hr, hi, ⟨_, rfl⟩ | ⟨hlast, hnone, hf⟩⟩ := h
  · refine ⟨(hg.rely (kit.rely _ _ hr)).put, fun l hl => ?_⟩
    rw [put_d]
    exact hg.types (kit.rely _ _ hr) l hl
  · have hrp := kit.rely _ _ hr
    have hp' : 0 < (h.view p).ref k := by rw [hrp.view]; exact hp
    have hk : k ∉ held := (hg.rely hrp).notMem (by rw [hnone]; exact fun h => (nomatch h))
    have ht := (hg.rely hrp).take (take_step hi (.inl hp')) hk
    have hlt : (h.setLock k (some p)).inum k < sb.ninodes :=
      (hi.table.inum k (hi.table.ref_pos (.inl hp'))).2
    obtain ⟨h1, h2⟩ := hf.calm kit hok ht hk hlt
    exact ⟨h1, fun l hl => (h2 l hl).trans (hg.types hrp l hl)⟩

theorem iunlockput_calm (kit : Kit sb p L) (hok : sb.Ok) (hg : Calm sb p (insert k held) m g)
    (hk : k ∉ held) (hp : 0 < m.ref k) :
    L.Gives g (iunlockput sb p k) fun _ g' => Calm sb p held (m.dec k) g' ∧ Types held g g' := by
  refine (iunlock_calm kit hg hk).bind fun _ g1 h1 => ?_
  obtain ⟨hg1, e1, _⟩ := h1
  refine (iput_calm kit hok hg1 hp fun h => absurd h hk).mono fun _ g2 h2 => ⟨h2.1, fun l hl => ?_⟩
  rw [h2.2 l hl, Ghost.d, e1]

/-! ## Content -/

theorem Wrote.clean {src : ℕ → Option Byte} {off t w : ℕ} (hw : Wrote sb L p k src off t w g g')
    (hc : Clean sb p k g) (hd : (g'.d k).DirOk g'.s.blk sb.ninodes) : Clean sb p k g' :=
  ⟨hw.full.toLocked, hw.disk, by rw [hw.kind.type]; exact hc.type,
    hw.full.lt, hw.full.data, hw.full.owns, hw.full.covers, hd⟩

theorem Wrote.dirOk {src : ℕ → Option Byte} {off t : ℕ} (hw : Wrote sb L p k src off t t g g')
    (hd : (g.d k).DirOk g.s.blk sb.ninodes) (ht : t = 0 ∨ t = 16) (ho : off % 16 = 0)
    (hle : off ≤ (g.d k).size.toNat)
    (hin : (((src 1).getD 0 ++ (src 0).getD 0 : BitVec 16)).toNat < sb.ninodes) :
    (g'.d k).DirOk g'.s.blk sb.ninodes := by
  intro hty
  obtain ⟨h16, he⟩ := hd (by rw [← hw.kind.type]; exact hty)
  have hsz := hw.size
  refine ⟨by omega, fun n hn => ?_⟩
  have hb0 := hw.byte (16 * n) (by omega)
  have hb1 := hw.byte (16 * n + 1) (by omega)
  unfold Dinode.entryInum
  rw [show (g'.d k).content g'.s.blk (16 * n) = g'.byte k (16 * n) from rfl,
    show (g'.d k).content g'.s.blk (16 * n + 1) = g'.byte k (16 * n + 1) from rfl, hb0, hb1]
  by_cases hnew : t = 16 ∧ 16 * n = off
  · obtain ⟨rfl, rfl⟩ := hnew
    rw [if_pos (by omega), if_pos (by omega), Nat.sub_self, Nat.add_sub_cancel_left]
    exact hin
  · rw [if_neg (by omega), if_neg (by omega)]
    exact he n (by omega)

/-- `writei` of 16 bytes that do not cross the end of a block: all of them are written, or none -/
theorem writei_entry (kit : Kit sb p L) (hok : sb.Ok) (hc : Clean sb p k g) {f : ℕ → Byte} {off : ℕ}
    (ho : off % 16 = 0) :
    L.Gives g (writei sb p k (kernelSrc f) off 16) fun r g' =>
      r = -1 ∧ g' = g ∧ ((g.d k).size.toNat < off ∨ MAXFILE * BSIZE < off + 16) ∨
        ∃ t : ℕ, r = t ∧ (t = 0 ∨ t = 16) ∧ off ≤ (g.d k).size.toNat ∧ off + 16 ≤ MAXFILE * BSIZE ∧
          (t = 0 → NoFree sb L g' ∧ (g.d k).size.toNat ≤ off) ∧
          Wrote sb L p k (kernelSrc f) off t t g g' := by
  refine (writei_gives kit hok hc (by decide)).mono fun r g' h => ?_
  rcases h with ⟨rfl, rfl, hout⟩ | ⟨t, w, rfl, hcut, htw, hwn, hoff, hmax, _, hshort, hbad, hw⟩
  · exact .inl ⟨rfl, rfl, hout⟩
  have hmapped : ¬ ∃ i < 16, kernelSrc f i = none := fun ⟨_, _, h⟩ => (nomatch h)
  have e : t = w := by
    by_contra hne
    exact hmapped (hbad (by omega))
  subst e
  have hB : off % BSIZE + 16 ≤ BSIZE := by
    have e : BSIZE = 16 * 64 := by decide
    have h1 : off % BSIZE < BSIZE := Nat.mod_lt _ (by decide)
    have h2 : off % BSIZE % 16 = 0 := by rw [e, Nat.mod_mul_right_mod, ho]
    omega
  refine .inr ⟨t, rfl, hcut.whole (by omega) hB, hoff, hmax, fun h0 => ?_, hw⟩
  obtain ⟨h1, h2⟩ := (hshort (by omega)).resolve_left hmapped
  exact ⟨h1, by omega⟩

/-- **a directory entry is written** -/
theorem writei_dir (kit : Kit sb p L) (hok : sb.Ok) (hg : Calm sb p held m g) (hk : k ∈ held)
    {f : ℕ → Byte} {off : ℕ} (ho : off % 16 = 0) (hin : ((f 1 ++ f 0 : BitVec 16)).toNat < sb.ninodes) :
    L.Gives g (writei sb p k (kernelSrc f) off 16) fun r g' => Calm sb p held m g' ∧ Types held g g' ∧
      (r = -1 ∧ g' = g ∧ ((g.d k).size.toNat < off ∨ MAXFILE * BSIZE < off + 16) ∨
        ∃ t : ℕ, r = t ∧ (t = 0 ∨ t = 16) ∧
        (t = 0 → NoFree sb L g' ∧ (g.d k).size.toNat ≤ off) ∧
        Wrote sb L p k (kernelSrc f) off t t g g') := by
  have hc := hg.clean k hk
  refine (writei_entry kit hok hc ho).mono fun r g' h => ?_
  rcases h with ⟨rfl, rfl, hout⟩ | ⟨t, rfl, ht, hoff, -, h0, hw⟩
  · exact ⟨hg, .refl held g', .inl ⟨rfl, rfl, hout⟩⟩
  have hcl := hw.clean hc (hw.dirOk hc.node.dir ht ho hoff hin)
  refine ⟨hg.local_clean hw.loc hk hcl, fun l hl => ?_, .inr ⟨t, rfl, ht, h0, hw⟩⟩
  by_cases hlk : l = k
  · rw [hlk, hw.kind.type]
  · rw [Ghost.d, hw.loc.inode_ne hlk]

theorem writei_file (kit : Kit sb p L) (hok : sb.Ok) (hg : Calm sb p held m g) (hk : k ∈ held)
    (hty : (g.d k).type ≠ T_DIR) {src : ℕ → Option Byte} {off n : ℕ} (hn : n < 2 ^ 32) :
    L.Gives g (writei sb p k src off n) fun _ g' => Calm sb p held m g' ∧ Types held g g' ∧
      Local sb L p k g g' := by
  have hc := hg.clean k hk
  refine (writei_gives kit hok hc hn).mono fun r g' h => ?_
  rcases h with ⟨rfl, rfl, _⟩ | ⟨t, w, rfl, -, -, -, -, -, -, -, -, hw⟩
  · exact ⟨hg, .refl held g', .refl sb L p k g'⟩
  · have hcl := hw.clean hc fun h => absurd (by rw [← hw.kind.type]; exact h) hty
    refine ⟨hg.local_clean hw.loc hk hcl, fun l hl => ?_, hw.loc⟩
    by_cases hlk : l = k
    · rw [hlk, hw.kind.type]
    · rw [Ghost.d, hw.loc.inode_ne hlk]

theorem itrunc_calm (kit : Kit sb p L) (hok : sb.Ok) (hg : Calm sb p held m g) (hk : k ∈ held) :
    L.Gives g (itrunc sb k) fun _ g' => Calm sb p held m g' ∧ Types held g g' := by
  have hc := hg.clean k hk
  refine (itrunc_gives kit hok hc).mono fun _ g' h => ?_
  have hi : g'.inum k < sb.ninodes := by
    rw [h.loc.inum k]
    exact hc.node.lt
  have hcl : Clean sb p k g' := ⟨h.toLocked, h.disk, by rw [h.kind.type]; exact hc.type,
    Bare.nodeOk h.bare hi h.free⟩
  refine ⟨hg.local_clean h.loc hk hcl, fun l hl => ?_⟩
  by_cases hlk : l = k
  · rw [hlk, h.kind.type]
  · rw [Ghost.d, h.loc.inode_ne hlk]

/-- other fields with the same blocks -/
structure SameBlocks (d d' : Dinode) : Prop where
  type : d'.type = d.type
  size : d'.size = d.size
  addrs : d'.addrs = d.addrs

theorem SameBlocks.addr {d d' : Dinode} (h : SameBlocks d d') (i : ℕ) : d'.addr i = d.addr i := by
  unfold Dinode.addr
  rw [h.addrs]

theorem NodeOk.fields {i : ℕ} {d d' : Dinode} (hn : NodeOk sb g i d) (h : SameBlocks d d') :
    NodeOk sb g i d' := by
  have hs : ∀ n, d'.slot g.s.blk n = d.slot g.s.blk n :=
    Dinode.slot_congr h.addr fun _ => rfl
  refine ⟨hn.lt, hn.data, hn.owns.congr (fun _ => .rfl) (fun n hl _ => ⟨hl, hs n⟩)
    (fun n hl _ => ⟨hl, (hs n).symm⟩), ⟨by rw [h.size]; exact hn.covers.size, fun bn hbn => ?_⟩,
    fun hty => ?_⟩
  · rw [hs]
    rw [h.size] at hbn
    exact hn.covers.slot bn hbn
  · rw [h.type] at hty
    obtain ⟨h16, he⟩ := hn.dir hty
    rw [h.size]
    refine ⟨h16, fun n hn => ?_⟩
    have := he n hn
    unfold Dinode.entryInum Dinode.content at this ⊢
    rwa [hs, hs]

theorem Clean.sync (hok : sb.Ok) (hc : Clean sb p k g) {d : Dinode} (hd : SameBlocks (g.d k) d)
    (lg : List ℕ) : Clean sb p k (g.sync sb k d lg) := by
  have hh := sync_has hok hc.has lg hd.addr
  have hn : NodeOk sb g (g.inum k) d := hc.node.fields hd
  refine ⟨hh.toLocked, ?_, ?_, ?_⟩
  · show (g.sync sb k d lg).d k = sb.dinode _ ((g.sync sb k d lg).inum k)
    rw [sync_d, sync_inum, sync_disk]
  · show ((g.sync sb k d lg).d k).type ≠ 0
    rw [sync_d, hd.type]
    exact hc.type
  · show NodeOk sb _ ((g.sync sb k d lg).inum k) ((g.sync sb k d lg).d k)
    rw [sync_d, sync_inum]
    exact hn.congr (fun _ => .rfl) fun b hb => data_put hok hc.node.lt _ _ (hn.data b hb).1

/-- the fields of an inode change, but for type, size and addresses; they are stored, and the code
goes on -/
theorem sync_calm (kit : Kit sb p L) (hok : sb.Ok) (hg : Calm sb p held m g) (hk : k ∈ held)
    (F : Dinode → Dinode) (hF : ∀ d, SameBlocks d (F d)) {c : Unit → FsM P K M α}
    {R : α → Ghost P K M → Prop} (hc : ∀ g', Calm sb p held m g' → Types held g g' →
      L.Gives g' (c ()) R) :
    L.Gives g (setFields k F >>= fun _ => iupdate sb k >>= c) R := by
  have hcl := hg.clean k hk
  refine sync_gives kit hok hcl.toLocked F (.inl (hF _).type) (fun h0 => absurd h0 ?_) fun lg => ?_
  · rw [(hF _).type]
    exact hcl.type
  have hloc := sync_local (L := L) hok hcl.has (F (g.d k)) lg
  refine hc _ (hg.local_clean hloc hk (hcl.sync hok (hF _) lg)) fun l hl => ?_
  by_cases hlk : l = k
  · rw [hlk, sync_d]
    exact (hF _).type
  · rw [Ghost.d, hloc.inode_ne hlk]

/-! ## New references -/

theorem Grip.putDinode (hok : sb.Ok) (hg : Grip sb p held ok m g) {i : ℕ} (hi : i < sb.ninodes)
    (hne : ∀ l ∈ ok, g.inum l ≠ i) (d : Dinode) (lg : List ℕ) :
    Grip sb p held ok m (g.disk (putDinode sb g.s.blk i d) lg g.whose) where
  lock := hg.lock
  uniq := hg.uniq
  clean l hl := by
    have hc := hg.clean l hl
    refine ⟨⟨hc.lock, hc.valid⟩, ?_, hc.type, hc.node.congr (fun _ => .rfl) fun b hb =>
      data_put hok hi _ _ (hc.node.data b hb).1⟩
    show g.d l = sb.dinode (FileSys.putDinode sb g.s.blk i d) (g.inum l)
    rw [dinode_put, if_neg (hne l hl)]
    exact hc.disk
  loose := hg.loose
  hands := hg.hands

theorem iallocLoop_calm (kit : Kit sb p L) (hok : sb.Ok) (hg : Calm sb p held m g) (type : BitVec 16)
    (n inum : ℕ) :
    L.Gives g (iallocLoop sb ROOTDEV type n inum) fun r g' => Types held g g' ∧
      (r = none ∧ Calm sb p held m g' ∨ ∃ k, r = some k ∧ Calm sb p held (m.inc k) g' ∧
        (Alone L → (sb.dinode g'.s.blk (g'.inum k)).type = type)) := by
  induction n generalizing inum with
  | zero => exact .pure ⟨.refl held g, .inl ⟨rfl, hg⟩⟩
  | succ n ih =>
    unfold iallocLoop
    by_cases hlt : inum < sb.ninodes
    · rw [if_pos hlt]
      refine (iallocTurn_gives kit hok hlt type).bind fun r g1 h1 => ?_
      rcases h1 with ⟨rfl, rfl⟩ | ⟨rfl, ⟨h, hr, hi, h0⟩, lg, rfl⟩
      · rw [if_neg (by decide)]
        exact ih (inum + 1)
      · rw [if_pos rfl]
        have hrp := kit.rely _ _ hr
        have hne : ∀ l ∈ held, g.inum l ≠ inum := fun l hl e => by
          have hc := (hg.rely hrp).clean l hl
          have e2 := (hrp.held l ((hg.lock l).2 hl)).2.1
          have : (h.s.inode l).d = sb.dinode h.s.blk inum := by
            rw [hc.disk, e2]
            exact congrArg _ e
          exact hc.type (by rw [this]; exact h0)
        have hg1 := hg.putDinode hok hlt hne { Dinode.zero with type := type } lg
        refine (iget_calm kit hg1 hlt).bind fun k g2 h2 => ?_
        obtain ⟨hc2, ht2, hi2, hblk⟩ := h2
        refine .pure ⟨fun l hl => ht2 l hl, .inr ⟨k, rfl, hc2, fun al => ?_⟩⟩
        rw [hi2, hblk al]
        show (sb.dinode (putDinode sb g.s.blk inum { Dinode.zero with type := type }) inum).type = type
        rw [dinode_put, if_pos rfl]
    · rw [if_neg hlt]
      exact .pure ⟨.refl held g, .inl ⟨rfl, hg⟩⟩

theorem idupCwd_calm (kit : Kit sb p L) (hg : Calm sb p held m g)
    (hcwd : ∀ k, m.cwd = some k → 0 < m.ref k) :
    L.Gives g (idupCwd p) fun k g' => m.cwd = some k ∧ Calm sb p held (m.inc k) g' := by
  refine kit.fresh (fun h => by cases h) (fun _ h k s' hr hi hx => ?_) (fun h e hr hi hx => ?_)
  · have hrp := kit.rely _ _ hr
    have hg' := hg.rely hrp
    dsimp only at hx
    split at hx
    · rename_i hl
      cases hx
      rw [hg'.cwd] at hl
      have hpin : Pinned p h k := .inl (by rw [hg'.ref]; exact hcwd k hl)
      have hr0 := hi.table.ref_pos hpin
      have hf : Fits h k (h.s.inode k).inum :=
        ⟨fun _ => rfl, fun n hn e => hi.table.uniq n k hn hr0 e⟩
      obtain ⟨hs1, hs2⟩ := got_step (p := p) hi (hi.table.inum _ hr0).2 hf
      refine ⟨h.got p k (h.s.inode k).inum, ?_, hs1, hs2, hl, hg'.got (Set.Subset.refl _) hi hf⟩
      rw [got_used hi hr0 rfl]
      rfl
    · cases hx
  · dsimp only at hx
    split at hx
    · cases hx
    · cases hx
      exact kit.allow _ (.inr (.inl rfl))

end
end
end Xv6.FileSys
