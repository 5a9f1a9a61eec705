import Xv6.Fs.Blocks

/-!
# Acts on the inode table

* `fields_gives`, `setFields_gives`   the fields of a locked inode;
* `iget_gives`   a reference more;
* `ilock_gives`   the inode agrees with the disk and is well formed (`Clean`);
* `iunlock_gives`   it has to be so again;
* `iputCheck_gives`, `unlocked_gives`, `drop_gives`   the steps of `iput`.
-/

set_option linter.unusedSectionVars false

/-- other fields -/
def Xv6.Inode.withD (ip : Inode) (d : Dinode) : Inode := { ip with d := d }

namespace Xv6.FileSys

section
variable {P : Type} {K M : ℕ} {sb : FsSuper} {p q : P} {g h : Ghost P K M} {k : Fin K}
  {t : (ℕ → Owner P) → ℕ → Owner P} {L : Logic (Fsys P K M) (FsLabel P) FsPanic (Ghost P K M)}
  {α : Type}

/-- the fields and the number of the inode in entry `k` -/
abbrev Ghost.d (g : Ghost P K M) (k : Fin K) : Dinode := (g.s.inode k).d
abbrev Ghost.inum (g : Ghost P K M) (k : Fin K) : ℕ := (g.s.inode k).inum

/-- `p` has the inode in entry `k` locked and in memory -/
structure Locked (p : P) (k : Fin K) (g : Ghost P K M) : Prop where
  lock : g.s.lock k = some p
  valid : (g.s.inode k).valid = true

/-- `p` has the inode in entry `k` locked; it is well formed and as on disk -/
structure Clean (sb : FsSuper) (p : P) (k : Fin K) (g : Ghost P K M) : Prop extends Locked p k g where
  disk : (g.s.inode k).d = sb.dinode g.s.blk (g.s.inode k).inum
  type : (g.s.inode k).d.type ≠ 0
  node : NodeOk sb g (g.s.inode k).inum (g.s.inode k).d

theorem Clean.rely (hc : Clean sb p k g) (hr : Rely sb p g h) : Clean sb p k h := by
  obtain ⟨_, e1, e2, e3⟩ := hr.held k hc.lock
  have hmine : ∀ b, g.whose b = .node (g.s.inode k).inum → Mine p g b := fun b hb =>
    .inr ⟨k, hc.lock, hc.valid, hb⟩
  have hd : sb.dinode h.s.blk (g.s.inode k).inum = (g.s.inode k).d := by
    rcases hr.disk k hc.lock with e | ⟨h0, _⟩
    · rw [e, hc.disk]
    · exact absurd (hc.disk ▸ h0) hc.type
  refine ⟨⟨(hr.lock k).2 hc.lock, e2.trans hc.valid⟩, by rw [e1, e3, hd], by rw [e3]; exact hc.type, ?_⟩
  rw [e1, e3]
  refine hc.node.congr (fun b => ⟨fun hb => ?_, fun hb => ?_⟩) fun b hb => (hr.own b (hmine b hb)).2
  · have := hr.new b (.inr ⟨k, (hr.lock k).2 hc.lock, e2.trans hc.valid, by rw [e1]; exact hb⟩)
    rw [this]
    exact hb
  · rw [(hr.own b (hmine b hb)).1]
    exact hb

/-- entry `k` of the inode table is changed, the owners by `w` -/
def Ghost.inode (g : Ghost P K M) (k : Fin K) (ip : Inode) (w : ℕ → Owner P) : Ghost P K M :=
  { g with s := g.s.setInode k ip, whose := w }

theorem inode_self (g : Ghost P K M) (ip : Inode) (w : ℕ → Owner P) :
    (g.inode k ip w).s.inode k = ip := Function.update_self ..

theorem inode_ne (g : Ghost P K M) (ip : Inode) (w : ℕ → Owner P) {l : Fin K} (h : l ≠ k) :
    (g.inode k ip w).s.inode l = g.s.inode l := Function.update_of_ne h _ _

theorem inode_field (g : Ghost P K M) (ip : Inode) (w : ℕ → Owner P) (φ : Inode → α)
    (h : φ ip = φ (g.s.inode k)) (l : Fin K) :
    φ ((g.inode k ip w).s.inode l) = φ (g.s.inode l) := by
  by_cases hl : l = k
  · rw [hl, inode_self, h]
  · rw [inode_ne _ _ _ hl]

/-! ## The fields of a locked inode -/

theorem Locked.rely (hk : Locked p k g) (hr : Rely sb p g h) : Locked p k h :=
  ⟨(hr.lock k).2 hk.lock, (hr.held k hk.lock).2.2.1.trans hk.valid⟩

section
variable [Fintype P]

theorem fields_gives (kit : Kit sb p L) (hk : g.s.lock k = some p) :
    L.Gives g (fields k) fun d g' => d = g.d k ∧ g' = g := by
  refine (kit.read _).mono fun d g' h => ?_
  obtain ⟨rfl, h', hr, _, rfl⟩ := h
  exact ⟨((kit.rely _ _ hr).held k hk).2.2.2, rfl⟩

theorem Busy.inode {i : ℕ} (ip : Inode) (w : ℕ → Owner P) (h1 : ip.ref = (g.s.inode k).ref)
    (h2 : ip.inum = (g.s.inode k).inum) (h3 : ip.valid = (g.s.inode k).valid) :
    Busy (g.inode k ip w) i ↔ Busy g i := by
  refine exists_congr fun l => ?_
  rw [inode_field g ip w Inode.ref h1 l, inode_field g ip w Inode.inum h2 l,
    inode_field g ip w Inode.valid h3 l]
  rfl

/-- the fields of an inode that `p` has locked change; the type stays if a file refers to it -/
theorem setD_step (hi : Inv sb g) (hk : Locked p k g) (d : Dinode)
    (hty : d.type = (g.s.inode k).d.type ∨ ∀ f, ¬ Opens g.s f k) (ht : Handover p g t) :
    Inv sb (g.inode k ((g.s.inode k).withD d) (t g.whose)) ∧
      ∀ q, q ≠ p → Rely sb q g (g.inode k ((g.s.inode k).withD d) (t g.whose)) := by
  have href := inode_field g ((g.s.inode k).withD d) (t g.whose) Inode.ref rfl
  have hdev := inode_field g ((g.s.inode k).withD d) (t g.whose) Inode.dev rfl
  have hinum := inode_field g ((g.s.inode k).withD d) (t g.whose) Inode.inum rfl
  have hvalid := inode_field g ((g.s.inode k).withD d) (t g.whose) Inode.valid rfl
  have ht' := hi.table
  have hnode : ∀ i, ¬ Busy g i → ∀ b, t g.whose b = .node i ↔ g.whose b = .node i := by
    intro i hb b
    rcases ht.cases b with e | ⟨h1, h2⟩
    · rw [e]
    · have not : ∀ o, Own p g o → o ≠ .node i := by
        rintro o (rfl | ⟨l, hl, hv, rfl⟩) e <;> cases e
        exact hb ⟨l, ht'.locked_ref hl, rfl, by rw [hl]; exact fun h => (nomatch h), hv⟩
      exact iff_of_false (not _ h2) (not _ h1)
  constructor
  · refine ⟨⟨fun l => ?_, fun l m => ?_, fun l => ?_, ht'.frefs, ht'.opened, ht'.lock⟩,
      hi.store_of_handover ht (fun _ _ => rfl) hi.store.bare, fun l => ?_, fun f l ho => ?_,
      fun i hlt hb => ?_⟩
    · rw [href, hdev, hinum]
      exact ht'.inum l
    · rw [href, href, hinum, hinum]
      exact ht'.uniq l m
    · rw [href]
      exact ht'.refs l
    · intro hr hl hv
      have hl : g.s.lock l = none := hl
      have hlk : l ≠ k := fun e => by rw [e, hk.lock] at hl; cases hl
      rw [inode_ne _ _ _ hlk] at hr hv ⊢
      exact hi.agree.mem l hr hl hv
    · rw [hvalid]
      obtain ⟨h1, h2⟩ := hi.agree.file f l ho
      refine ⟨h1, fun hw => ?_⟩
      by_cases hlk : l = k
      · subst hlk
        rw [inode_self]
        rcases hty with e | hno
        · show d.type ≠ T_DIR
          rw [e]
          exact h2 hw
        · exact absurd ho (hno f)
      · rw [inode_ne _ _ _ hlk]
        exact h2 hw
    · have hb : ¬ Busy g i := fun h =>
        hb ((Busy.inode ((g.s.inode k).withD d) _ rfl rfl rfl).2 h)
      exact (hi.agree.node i hlt hb).congr (hnode i hb) fun _ _ => rfl
  · intro q hq
    have key : ∀ b, Own q g (g.whose b) ∨ Own q g (t g.whose b) → t g.whose b = g.whose b := by
      intro b hb
      rcases ht.cases b with e | ⟨h1, h2⟩
      · exact e
      · rcases hb with hb | hb
        · exact absurd (ht'.own_unique h1 hb).symm hq
        · exact absurd (ht'.own_unique h2 hb).symm hq
    have howner : ∀ o, Own q (g.inode k ((g.s.inode k).withD d) (t g.whose)) o ↔ Own q g o := by
      intro o
      refine or_congr .rfl (exists_congr fun l => ?_)
      rw [hinum, hvalid]
      rfl
    have r := Rely.refl sb q g
    refine { r with
      pin := fun l _ => ⟨hdev l, hinum l⟩
      held := fun l hl => ?_
      own := fun b hb => ⟨key b (.inl hb), rfl⟩
      new := fun b hb => (key b (.inr ((howner _).1 hb))).symm }
    have hlk : l ≠ k := fun e => by
      rw [e, hk.lock] at hl
      exact hq (Option.some.inj hl).symm
    rw [inode_ne _ _ _ hlk]
    exact ⟨rfl, rfl, rfl, rfl⟩

theorem own_inode (ip : Inode) (w : ℕ → Owner P) {o : Owner P}
    (h : g.s.lock k = some p → ip.inum = (g.s.inode k).inum ∧ ip.valid = (g.s.inode k).valid) :
    Own p (g.inode k ip w) o ↔ Own p g o := by
  refine or_congr .rfl (exists_congr fun l => and_congr_right fun hl => ?_)
  by_cases hlk : l = k
  · subst hlk
    obtain ⟨e1, e2⟩ := h hl
    rw [inode_self, e1, e2]
  · rw [inode_ne _ _ _ hlk]

theorem setD_own (hr : Rely sb p g h) (hk : Locked p k g) (d : Dinode) (ht : Handover p g t) :
    Rely sb p (g.inode k ((g.s.inode k).withD d) (t g.whose))
      (h.inode k ((h.s.inode k).withD d) (t h.whose)) := by
  have hfield : ∀ l, g.s.lock l = some p →
      (h.inode k ((h.s.inode k).withD d) (t h.whose)).s.inode l =
        { (g.inode k ((g.s.inode k).withD d) (t g.whose)).s.inode l with ref := (h.s.inode l).ref } := by
    intro l hl
    obtain ⟨e1, e2, e3, e4⟩ := hr.held l hl
    by_cases hlk : l = k
    · subst hlk
      rw [inode_self, inode_self]
      unfold Inode.withD
      rw [← e1, ← e2, ← e3]
    · rw [inode_ne _ _ _ hlk, inode_ne _ _ _ hlk]
      dsimp only
      rw [← e1, ← e2, ← e3, ← e4]
  have hdev := inode_field g ((g.s.inode k).withD d) (t g.whose) Inode.dev rfl
  have hinum := inode_field g ((g.s.inode k).withD d) (t g.whose) Inode.inum rfl
  have hdev' := inode_field h ((h.s.inode k).withD d) (t h.whose) Inode.dev rfl
  have hinum' := inode_field h ((h.s.inode k).withD d) (t h.whose) Inode.inum rfl
  refine ⟨hr.view, hr.cwd, hr.ofile, hr.lock, fun l hl => ?_, fun l hl => ?_, hr.unopened,
    fun l hl => ?_, fun c hc => ?_, fun c hc => ?_, hr.file⟩
  · rw [hdev, hdev', hinum, hinum']
    exact hr.pin l hl
  · rw [hfield l hl]
    exact ⟨rfl, rfl, rfl, rfl⟩
  · rw [hinum]
    exact hr.disk l hl
  · exact ht.same hr (.inl ((own_inode ((g.s.inode k).withD d) _ fun _ => ⟨rfl, rfl⟩).1 hc))
  · exact (ht.same hr (.inr ((own_inode ((h.s.inode k).withD d) _ fun _ => ⟨rfl, rfl⟩).1 hc))).1.symm

theorem setFields_gives (kit : Kit sb p L) (hk : Locked p k g) (F : Dinode → Dinode)
    (hty : (F (g.s.inode k).d).type = (g.s.inode k).d.type ∨ ∀ f, ¬ Opens g.s f k)
    (ht : Handover p g t) :
    L.Gives g (setFields k F) fun _ g' =>
      g' = g.inode k ((g.s.inode k).withD (F (g.s.inode k).d)) (t g.whose) := by
  refine kit.act (fun h => by cases h) (fun _ h a s' hr hi hx => ?_) (fun _ _ _ _ hx => by cases hx)
  cases hx
  have hrp := kit.rely _ _ hr
  have hd := (hrp.held k hk.lock).2.2.2
  have hty' : (F (h.s.inode k).d).type = (h.s.inode k).d.type ∨ ∀ f, ¬ Opens h.s f k := by
    rw [hd]
    exact hty.imp id (hrp.unopened k hk.lock)
  obtain ⟨h1, h2⟩ := setD_step hi (hk.rely hrp) (F (h.s.inode k).d) hty' (ht.rely hrp)
  refine ⟨fun x => x.inode k ((x.s.inode k).withD (F (x.s.inode k).d)) (t x.whose), rfl, h1, h2, ?_, rfl⟩
  dsimp only
  rw [hd]
  exact setD_own hrp hk _ ht

/-! ## Locks -/

/-- the lock of entry `k` is taken or released -/
def Ghost.setLock (g : Ghost P K M) (k : Fin K) (o : Option P) : Ghost P K M :=
  { g with s := g.s.setLock k o }

theorem setLock_self (g : Ghost P K M) (o : Option P) : (g.setLock k o).s.lock k = o :=
  Function.update_self ..

theorem setLock_ne (g : Ghost P K M) (o : Option P) {l : Fin K} (h : l ≠ k) :
    (g.setLock k o).s.lock l = g.s.lock l := Function.update_of_ne h _ _

/-- a lock that `q` does not get and does not lose is no concern of it -/
theorem rely_setLock {o : Option P} (h1 : g.s.lock k ≠ some q) (h2 : o ≠ some q) :
    Rely sb q g (g.setLock k o) := by
  have hlock : ∀ l, (g.setLock k o).s.lock l = some q ↔ g.s.lock l = some q := fun l => by
    by_cases hlk : l = k
    · subst hlk
      rw [setLock_self]
      exact iff_of_false h2 h1
    · rw [setLock_ne _ _ hlk]
  have r := Rely.refl sb q g
  exact { r with lock := hlock, new := fun _ _ => rfl }

/-- a lock that is free is taken for an inode to which there is a reference -/
theorem take_step (hi : Inv sb g) (hp : Pinned p g k) :
    Inv sb (g.setLock k (some p)) := by
  have ht := hi.table
  refine ⟨⟨ht.inum, ht.uniq, ht.refs, ht.frefs, ht.opened, fun l q hl => ?_⟩, hi.store,
    fun l hr hl hv => ?_, hi.agree.file, fun i hlt hb => ?_⟩
  · by_cases hlk : l = k
    · subst hlk
      rw [setLock_self] at hl
      cases hl
      exact hp
    · rw [setLock_ne _ _ hlk] at hl
      exact ht.lock l q hl
  · by_cases hlk : l = k
    · rw [hlk, setLock_self] at hl
      cases hl
    · rw [setLock_ne _ _ hlk] at hl
      exact hi.agree.mem l hr hl hv
  · refine (hi.agree.node i hlt fun ⟨l, h1, h2, h3, h4⟩ => hb ⟨l, h1, h2, ?_, h4⟩).congr
      (fun _ => .rfl) fun _ _ => rfl
    by_cases hlk : l = k
    · rw [hlk, setLock_self]
      exact fun h => (nomatch h)
    · rwa [setLock_ne _ _ hlk]

/-- a lock is released: if the inode is in memory, it is as on disk and well formed -/
theorem release_step (hi : Inv sb g) (hk : g.s.lock k = some p)
    (hc : (g.s.inode k).valid = true → Clean sb p k g) : Inv sb (g.setLock k none) := by
  have ht := hi.table
  refine ⟨⟨ht.inum, ht.uniq, ht.refs, ht.frefs, ht.opened, fun l q hl => ?_⟩, hi.store,
    fun l hr hl hv => ?_, hi.agree.file, fun i hlt hb => ?_⟩
  · by_cases hlk : l = k
    · rw [hlk, setLock_self] at hl
      cases hl
    · rw [setLock_ne _ _ hlk] at hl
      exact ht.lock l q hl
  · by_cases hlk : l = k
    · subst hlk
      have := hc hv
      exact ⟨this.disk, this.type⟩
    · rw [setLock_ne _ _ hlk] at hl
      exact hi.agree.mem l hr hl hv
  · by_cases hbusy : Busy g i
    · obtain ⟨l, h1, h2, h3, h4⟩ := hbusy
      by_cases hlk : l = k
      · subst hlk
        have := hc h4
        refine NodeOk.congr (g := g) ?_ (fun _ => .rfl) fun _ _ => rfl
        rw [← h2]
        have hn := this.node
        rwa [this.disk] at hn
      · exact absurd ⟨l, h1, h2, by rwa [setLock_ne _ _ hlk], h4⟩ hb
    · exact (hi.agree.node i hlt hbusy).congr (fun _ => .rfl) fun _ _ => rfl

/-! ## References -/

section
variable [DecidableEq P]

/-- entry `k` is changed, and the references of `p` -/
def Ghost.tab (g : Ghost P K M) (p : P) (k : Fin K) (ip : Inode) (v : View K M) : Ghost P K M :=
  { g with s := g.s.setInode k ip, view := Function.update g.view p v }

theorem tab_self (g : Ghost P K M) (ip : Inode) (v : View K M) :
    (g.tab p k ip v).s.inode k = ip := Function.update_self ..

theorem tab_ne (g : Ghost P K M) (ip : Inode) (v : View K M) {l : Fin K} (h : l ≠ k) :
    (g.tab p k ip v).s.inode l = g.s.inode l := Function.update_of_ne h _ _

theorem tab_view (g : Ghost P K M) (ip : Inode) (v : View K M) :
    (g.tab p k ip v).view p = v := Function.update_self ..

theorem tab_view_ne (g : Ghost P K M) (ip : Inode) (v : View K M) (h : q ≠ p) :
    (g.tab p k ip v).view q = g.view q := Function.update_of_ne h _ _

/-- a change of an entry that `q` has not locked, and of which it keeps the identity if it has a
reference -/
theorem rely_tab {ip : Inode} {v : View K M} (hq : q ≠ p)
    (hpin : Pinned q g k → ip.dev = (g.s.inode k).dev ∧ ip.inum = (g.s.inode k).inum)
    (hheld : g.s.lock k = some q → ip.dev = (g.s.inode k).dev ∧ ip.inum = (g.s.inode k).inum ∧
      ip.valid = (g.s.inode k).valid ∧ ip.d = (g.s.inode k).d) :
    Rely sb q g (g.tab p k ip v) := by
  have r := Rely.refl sb q g
  refine { r with
    view := tab_view_ne g ip v hq
    pin := fun l hl => ?_
    held := fun l hl => ?_
    new := fun b _ => rfl }
  · by_cases hlk : l = k
    · subst hlk
      rw [tab_self]
      exact hpin hl
    · rw [tab_ne _ _ _ hlk]
      exact ⟨rfl, rfl⟩
  · by_cases hlk : l = k
    · subst hlk
      rw [tab_self]
      exact hheld hl
    · rw [tab_ne _ _ _ hlk]
      exact ⟨rfl, rfl, rfl, rfl⟩

theorem sum_view (g : Ghost P K M) (p : P) (v : View K M) (φ : View K M → ℕ) :
    ∑ q, φ (Function.update g.view p v q) + φ (g.view p) = ∑ q, φ (g.view q) + φ v := by
  rw [← Finset.add_sum_erase _ _ (Finset.mem_univ p),
    ← Finset.add_sum_erase Finset.univ (fun q => φ (g.view q)) (Finset.mem_univ p),
    Function.update_self]
  have : ∑ q ∈ Finset.univ.erase p, φ (Function.update g.view p v q) =
      ∑ q ∈ Finset.univ.erase p, φ (g.view q) :=
    Finset.sum_congr rfl fun q hq => by rw [Function.update_of_ne (Finset.ne_of_mem_erase hq)]
  omega

theorem Pinned.tab {ip : Inode} {v : View K M} {l : Fin K} (h : Pinned q g l)
    (hv : q = p → (0 < (g.view p).ref l → 0 < v.ref l) ∧ v.fref = (g.view p).fref) :
    Pinned q (g.tab p k ip v) l := by
  by_cases hq : q = p
  · subst hq
    obtain ⟨h1, h2⟩ := hv rfl
    rcases h with h | ⟨f, hf, ho⟩
    · exact .inl (by rw [tab_view]; exact h1 h)
    · exact .inr ⟨f, by rw [tab_view, h2]; exact hf, ho⟩
  · unfold Pinned
    rw [tab_view_ne _ _ _ hq]
    exact h

/-- the references of `p` to `k` change by the count, and the identity of the entry stays -/
theorem count_step (hi : Inv sb g) {r n : ℕ} (hn : r + (g.view p).ref k = (g.s.inode k).ref + n)
    (hr : 0 < (g.s.inode k).ref) (hl : g.s.lock k = some p → 0 < n) :
    Inv sb (g.tab p k { g.s.inode k with ref := r }
      { g.view p with ref := Function.update (g.view p).ref k n }) := by
  have ht := hi.table
  generalize hv : ({ g.view p with ref := Function.update (g.view p).ref k n } : View K M) = v
  generalize hip : ({ g.s.inode k with ref := r } : Inode) = ip
  have hvk : v.ref k = n := by rw [← hv]; exact Function.update_self ..
  have hvl : ∀ l, l ≠ k → v.ref l = (g.view p).ref l := fun l hl => by
    rw [← hv]
    exact Function.update_of_ne hl _ _
  have hvf : v.fref = (g.view p).fref := by rw [← hv]
  have hdev : ip.dev = (g.s.inode k).dev := by rw [← hip]
  have hinum : ip.inum = (g.s.inode k).inum := by rw [← hip]
  have hvalid : ip.valid = (g.s.inode k).valid := by rw [← hip]
  have hd : ip.d = (g.s.inode k).d := by rw [← hip]
  have href : ip.ref = r := by rw [← hip]
  have hpos : ∀ l, 0 < ((g.tab p k ip v).s.inode l).ref → 0 < (g.s.inode l).ref := fun l h => by
    by_cases hlk : l = k
    · rw [hlk]
      exact hr
    · rwa [tab_ne _ _ _ hlk] at h
  have hfield : ∀ l, ((g.tab p k ip v).s.inode l).dev = (g.s.inode l).dev ∧
      ((g.tab p k ip v).s.inode l).inum = (g.s.inode l).inum ∧
      ((g.tab p k ip v).s.inode l).valid = (g.s.inode l).valid ∧
      ((g.tab p k ip v).s.inode l).d = (g.s.inode l).d := fun l => by
    by_cases hlk : l = k
    · rw [hlk, tab_self]
      exact ⟨hdev, hinum, hvalid, hd⟩
    · rw [tab_ne _ _ _ hlk]
      exact ⟨rfl, rfl, rfl, rfl⟩
  have hrefs : ∀ l, ((g.tab p k ip v).s.inode l).ref =
      ∑ q, ((g.tab p k ip v).view q).ref l + opens g.s l := fun l => by
    have h1 := sum_view g p v (fun v => v.ref l)
    have h2 := ht.refs l
    show _ = ∑ q, (Function.update g.view p v q).ref l + _
    by_cases hlk : l = k
    · rw [hlk] at h1 h2 ⊢
      rw [tab_self, href]
      rw [hvk] at h1
      omega
    · rw [tab_ne _ _ _ hlk]
      rw [hvl l hlk] at h1
      omega
  have hlock : ∀ l q, g.s.lock l = some q → Pinned q (g.tab p k ip v) l := fun l q hlq => by
    refine (ht.lock l q hlq).tab fun e => ⟨fun h => ?_, hvf⟩
    by_cases hlk : l = k
    · rw [hlk, hvk]
      rw [hlk, e] at hlq
      exact hl hlq
    · rwa [hvl l hlk]
  have htab : Table sb (g.tab p k ip v) := by
    refine ⟨fun l h => ?_, fun l m hl hm e => ?_, hrefs, fun f => ?_, ht.opened, hlock⟩
    · rw [(hfield l).1, (hfield l).2.1]
      exact ht.inum l (hpos l h)
    · rw [(hfield l).2.1, (hfield m).2.1] at e
      exact ht.uniq l m (hpos l hl) (hpos m hm) e
    · have h1 := sum_view g p v (fun v => v.fref f)
      rw [hvf] at h1
      have h2 := ht.frefs f
      show _ = ∑ q, (Function.update g.view p v q).fref f
      show (g.s.file f).ref = _
      omega
  refine ⟨htab, hi.store, fun l h hl hval => ?_, fun f l ho => ?_, fun i hlt hb => ?_⟩
  · obtain ⟨_, e2, e3, e4⟩ := hfield l
    rw [e3] at hval
    rw [e2, e4]
    exact hi.agree.mem l (hpos l h) hl hval
  · obtain ⟨_, _, e3, e4⟩ := hfield l
    rw [e3, e4]
    exact hi.agree.file f l ho
  · refine (hi.agree.node i hlt fun ⟨l, h1, h2, h3, h4⟩ => hb ⟨l, ?_, ?_, h3, ?_⟩).congr
      (fun _ => .rfl) fun _ _ => rfl
    · obtain ⟨q, hq⟩ := Option.ne_none_iff_exists'.1 h3
      exact htab.locked_ref hq
    · rw [(hfield l).2.1]
      exact h2
    · rw [(hfield l).2.2.1]
      exact h4

theorem recycle_step (hi : Inv sb g) {inum : ℕ} (hlt : inum < sb.ninodes)
    (hr : (g.s.inode k).ref = 0)
    (hnew : ∀ l, 0 < (g.s.inode l).ref → (g.s.inode l).inum ≠ inum) :
    Inv sb (g.tab p k { g.s.inode k with dev := ROOTDEV, inum := inum, ref := 1, valid := false }
      { g.view p with ref := Function.update (g.view p).ref k 1 }) := by
  have ht := hi.table
  generalize hv : ({ g.view p with ref := Function.update (g.view p).ref k 1 } : View K M) = v
  generalize hip : ({ g.s.inode k with dev := ROOTDEV, inum := inum, ref := 1, valid := false } :
    Inode) = ip
  have hvk : v.ref k = 1 := by rw [← hv]; exact Function.update_self ..
  have hvl : ∀ l, l ≠ k → v.ref l = (g.view p).ref l := fun l hl => by
    rw [← hv]
    exact Function.update_of_ne hl _ _
  have hvf : v.fref = (g.view p).fref := by rw [← hv]
  have hsum := ht.refs k
  have hp0 : (g.view p).ref k = 0 := by
    have := Finset.single_le_sum (f := fun q => (g.view q).ref k) (fun _ _ => Nat.zero_le _)
      (Finset.mem_univ p)
    omega
  have hlock : ∀ q, g.s.lock k ≠ some q := fun q hq => by
    have := ht.locked_ref hq
    omega
  have hopen : ∀ f, ¬ Opens g.s f k := fun f ho => by
    have := Finset.single_le_sum (f := fun f => if Opens g.s f k then 1 else 0)
      (fun _ _ => Nat.zero_le _) (Finset.mem_univ f)
    simp only [ho, if_true] at this
    unfold FileSys.opens at hsum
    omega
  have htab : Table sb (g.tab p k ip v) := by
    refine ⟨fun l h => ?_, fun l m hl hm e => ?_, fun l => ?_, fun f => ?_, ht.opened,
      fun l q hlq => (ht.lock l q hlq).tab fun e => ⟨fun h => ?_, hvf⟩⟩
    · by_cases hlk : l = k
      · rw [hlk, tab_self, ← hip]
        exact ⟨rfl, hlt⟩
      · rw [tab_ne _ _ _ hlk] at h ⊢
        exact ht.inum l h
    · by_cases hlk : l = k <;> by_cases hmk : m = k
      · rw [hlk, hmk]
      · rw [hlk, tab_self, tab_ne _ _ _ hmk, ← hip] at e
        rw [tab_ne _ _ _ hmk] at hm
        exact absurd e.symm (hnew m hm)
      · rw [hmk, tab_self, tab_ne _ _ _ hlk, ← hip] at e
        rw [tab_ne _ _ _ hlk] at hl
        exact absurd e (hnew l hl)
      · rw [tab_ne _ _ _ hlk] at hl e
        rw [tab_ne _ _ _ hmk] at hm e
        exact ht.uniq l m hl hm e
    · have h1 := sum_view g p v (fun v => v.ref l)
      have h2 := ht.refs l
      show _ = ∑ q, (Function.update g.view p v q).ref l + opens g.s l
      by_cases hlk : l = k
      · rw [hlk] at h1 h2 ⊢
        rw [tab_self, ← hip]
        rw [hvk, hp0] at h1
        show 1 = _
        omega
      · rw [tab_ne _ _ _ hlk]
        rw [hvl l hlk] at h1
        omega
    · have h1 := sum_view g p v (fun v => v.fref f)
      rw [hvf] at h1
      have h2 := ht.frefs f
      show (g.s.file f).ref = ∑ q, (Function.update g.view p v q).fref f
      omega
    · by_cases hlk : l = k
      · exact absurd (hlk ▸ hlq) (hlock q)
      · rwa [hvl l hlk]
  refine ⟨htab, hi.store, fun l h hl hval => ?_, fun f l ho => ?_, fun i hi' hb => ?_⟩
  · by_cases hlk : l = k
    · rw [hlk, tab_self, ← hip] at hval
      cases hval
    · rw [tab_ne _ _ _ hlk] at h hval ⊢
      exact hi.agree.mem l h hl hval
  · by_cases hlk : l = k
    · exact absurd (hlk ▸ ho) (hopen f)
    · rw [tab_ne _ _ _ hlk]
      exact hi.agree.file f l ho
  · refine (hi.agree.node i hi' fun ⟨l, h1, h2, h3, h4⟩ => hb ⟨l, ?_⟩).congr
      (fun _ => .rfl) fun _ _ => rfl
    have hlk : l ≠ k := fun e => by
      rw [e, hr] at h1
      omega
    rw [tab_ne _ _ _ hlk]
    exact ⟨h1, h2, h3, h4⟩

/-- an inode that `p` has locked comes into memory, or leaves it -/
theorem load_step (hi : Inv sb g) (hk : g.s.lock k = some p) {v : Bool} {d : Dinode}
    (hfile : ∀ f, ¬ Opens g.s f k)
    (hnode : v = false → NodeOk sb g (g.s.inode k).inum (sb.dinode g.s.blk (g.s.inode k).inum)) :
    Inv sb (g.tab p k { g.s.inode k with valid := v, d := d } (g.view p)) := by
  have ht := hi.table
  generalize hip : ({ g.s.inode k with valid := v, d := d } : Inode) = ip
  have hfield : ∀ l, ((g.tab p k ip (g.view p)).s.inode l).dev = (g.s.inode l).dev ∧
      ((g.tab p k ip (g.view p)).s.inode l).inum = (g.s.inode l).inum ∧
      ((g.tab p k ip (g.view p)).s.inode l).ref = (g.s.inode l).ref := fun l => by
    by_cases hlk : l = k
    · rw [hlk, tab_self, ← hip]
      exact ⟨rfl, rfl, rfl⟩
    · rw [tab_ne _ _ _ hlk]
      exact ⟨rfl, rfl, rfl⟩
  have hview : (g.tab p k ip (g.view p)).view = g.view := Function.update_eq_self p g.view
  refine ⟨⟨fun l => ?_, fun l m => ?_, fun l => ?_, fun f => ?_, ht.opened, fun l q hlq =>
    (ht.lock l q hlq).tab fun e => ⟨id, rfl⟩⟩, hi.store, fun l h hl hval => ?_, fun f l ho => ?_,
      fun i hi' hb => ?_⟩
  · rw [(hfield l).1, (hfield l).2.1, (hfield l).2.2]
    exact ht.inum l
  · rw [(hfield l).2.1, (hfield l).2.2, (hfield m).2.1, (hfield m).2.2]
    exact ht.uniq l m
  · rw [(hfield l).2.2, hview]
    exact ht.refs l
  · rw [hview]
    exact ht.frefs f
  · have hl : g.s.lock l = none := hl
    have hlk : l ≠ k := fun e => by
      rw [e, hk] at hl
      cases hl
    rw [tab_ne _ _ _ hlk] at h hval ⊢
    exact hi.agree.mem l h hl hval
  · by_cases hlk : l = k
    · exact absurd (hlk ▸ ho) (hfile f)
    · rw [tab_ne _ _ _ hlk]
      exact hi.agree.file f l ho
  · by_cases hbusy : Busy g i
    · obtain ⟨l, h1, h2, h3, h4⟩ := hbusy
      by_cases hlk : l = k
      · subst hlk
        cases v with
        | true => exact absurd ⟨l, by rw [(hfield l).2.2]; exact h1, by rw [(hfield l).2.1]; exact h2,
            h3, by rw [tab_self, ← hip]⟩ hb
        | false =>
          subst h2
          exact (hnode rfl).congr (fun _ => .rfl) fun _ _ => rfl
      · exact absurd ⟨l, by rw [tab_ne _ _ _ hlk]; exact ⟨h1, h2, h3, h4⟩⟩ hb
    · exact (hi.agree.node i hi' hbusy).congr (fun _ => .rfl) fun _ _ => rfl

/-- `p` has one reference more to inode `inum`, in entry `k` -/
def Ghost.got (g : Ghost P K M) (p : P) (k : Fin K) (inum : ℕ) : Ghost P K M :=
  g.tab p k { g.s.inode k with
      dev := ROOTDEV, inum := inum, ref := (g.s.inode k).ref + 1
      valid := (g.s.inode k).valid && decide (0 < (g.s.inode k).ref) }
    { g.view p with ref := Function.update (g.view p).ref k ((g.view p).ref k + 1) }

/-- entry `k` is that of inode `inum`, or is free and there is none -/
structure Fits (g : Ghost P K M) (k : Fin K) (inum : ℕ) : Prop where
  same : 0 < (g.s.inode k).ref → (g.s.inode k).inum = inum
  only : ∀ l, 0 < (g.s.inode l).ref → (g.s.inode l).inum = inum → l = k

theorem got_used (hi : Inv sb g) {inum : ℕ} (hr : 0 < (g.s.inode k).ref)
    (he : (g.s.inode k).inum = inum) :
    g.got p k inum = g.tab p k { g.s.inode k with ref := (g.s.inode k).ref + 1 }
      { g.view p with ref := Function.update (g.view p).ref k ((g.view p).ref k + 1) } := by
  unfold Ghost.got
  rw [decide_eq_true hr, Bool.and_true, ← he, ← (hi.table.inum k hr).1]

theorem got_unused {inum : ℕ} (hr : (g.s.inode k).ref = 0) :
    g.got p k inum = g.tab p k { g.s.inode k with dev := ROOTDEV, inum := inum, ref := 1, valid := false }
      { g.view p with ref := Function.update (g.view p).ref k ((g.view p).ref k + 1) } := by
  unfold Ghost.got
  rw [hr, decide_eq_false (Nat.lt_irrefl 0), Bool.and_false]

theorem ref_le (hi : Inv sb g) (p : P) (k : Fin K) : (g.view p).ref k ≤ (g.s.inode k).ref := by
  have := Finset.single_le_sum (f := fun q => (g.view q).ref k) (fun _ _ => Nat.zero_le _)
    (Finset.mem_univ p)
  have := hi.table.refs k
  omega

theorem got_step (hi : Inv sb g) {inum : ℕ} (hlt : inum < sb.ninodes) (hf : Fits g k inum) :
    Inv sb (g.got p k inum) ∧ ∀ q, q ≠ p → Rely sb q g (g.got p k inum) := by
  by_cases hr : (g.s.inode k).ref = 0
  · rw [got_unused hr]
    have hp0 : (g.view p).ref k = 0 := by
      have := ref_le hi p k
      omega
    rw [hp0]
    refine ⟨recycle_step hi hlt hr fun l hl e => ?_, fun q hq => rely_tab hq (fun h => ?_) fun h => ?_⟩
    · rw [hf.only l hl e] at hl
      omega
    · have := hi.table.ref_pos h
      omega
    · have := hi.table.locked_ref h
      omega
  · have hr : 0 < (g.s.inode k).ref := Nat.pos_of_ne_zero hr
    rw [got_used hi hr (hf.same hr)]
    exact ⟨count_step hi (by omega) hr fun _ => Nat.succ_pos _,
      fun q hq => rely_tab hq (fun _ => ⟨rfl, rfl⟩) fun _ => ⟨rfl, rfl, rfl, rfl⟩⟩

theorem iget_gives (kit : Kit sb p L) {inum : ℕ} (hlt : inum < sb.ninodes) :
    L.Gives g (iget ROOTDEV inum) fun k g' => ∃ h, L.rely g h ∧ Inv sb h ∧ Fits h k inum ∧
      g' = h.got p k inum ∧ Inv sb g' := by
  have found : ∀ (h : Ghost P K M) l, (0 < (h.s.inode l).ref && (h.s.inode l).dev == ROOTDEV &&
      (h.s.inode l).inum == inum) = true ↔
      0 < (h.s.inode l).ref ∧ (h.s.inode l).dev = ROOTDEV ∧ (h.s.inode l).inum = inum := fun h l => by
    rw [Bool.and_eq_true, Bool.and_eq_true, decide_eq_true_iff, beq_iff_eq, beq_iff_eq, and_assoc]
  refine kit.fresh (fun h => by cases h) (fun _ h k s' hr hi hx => ?_) (fun h m hr hi hx => ?_)
  · dsimp only at hx
    cases h1 : (List.finRange K).find? fun k => 0 < (h.s.inode k).ref &&
        (h.s.inode k).dev == ROOTDEV && (h.s.inode k).inum == inum with
    | some l =>
      rw [h1] at hx
      cases hx
      have hk := List.find?_some h1
      obtain ⟨e1, e2, e3⟩ := (found h k).1 hk
      have hf : Fits h k inum :=
        ⟨fun _ => e3, fun l hl e => hi.table.uniq l k hl e1 (e.trans e3.symm)⟩
      obtain ⟨hs1, hs2⟩ := got_step (p := p) hi hlt hf
      refine ⟨h.got p k inum, ?_, hs1, hs2, h, hr, hi, hf, rfl, hs1⟩
      rw [got_used hi e1 e3]
      rfl
    | none =>
      rw [h1] at hx
      dsimp only at hx
      cases h2 : (List.finRange K).find? fun k => (h.s.inode k).ref == 0 with
      | some l =>
        rw [h2] at hx
        cases hx
        have hk := List.find?_some h2
        have e0 : (h.s.inode k).ref = 0 := beq_iff_eq.1 hk
        have hno : ∀ l, 0 < (h.s.inode l).ref → (h.s.inode l).inum ≠ inum := fun l hl e => by
          have := List.find?_eq_none.1 h1 l (List.mem_finRange l)
          exact this ((found h l).2 ⟨hl, (hi.table.inum l hl).1, e⟩)
        have hf : Fits h k inum := ⟨fun h0 => by omega, fun l hl e => absurd e (hno l hl)⟩
        obtain ⟨hs1, hs2⟩ := got_step (p := p) hi hlt hf
        refine ⟨h.got p k inum, ?_, hs1, hs2, h, hr, hi, hf, rfl, hs1⟩
        rw [got_unused e0]
        rfl
      | none =>
        rw [h2] at hx
        cases hx
  · dsimp only at hx
    split at hx
    · cases hx
    · split at hx
      · cases hx
      · cases hx
        exact kit.allow _ (.inl rfl)

/-! ## `ilock` and `iunlock` -/

theorem Inv.clean_take (hi : Inv sb g) (hp : Pinned p g k) (hl : g.s.lock k = none)
    (hv : (g.s.inode k).valid = true) : Clean sb p k (g.setLock k (some p)) := by
  have hr := hi.table.ref_pos hp
  obtain ⟨h1, h2⟩ := hi.agree.mem k hr hl hv
  refine ⟨⟨setLock_self .., hv⟩, h1, h2, ?_⟩
  refine NodeOk.congr (g := g) ?_ (fun _ => .rfl) fun _ _ => rfl
  show NodeOk sb g (g.s.inode k).inum (g.s.inode k).d
  rw [h1]
  refine hi.agree.node _ (hi.table.inum k hr).2 fun ⟨l, h3, h4, h5, _⟩ => h5 ?_
  rw [hi.table.uniq l k h3 hr h4]
  exact hl

/-- a lock that is released is one that the process no longer has -/
theorem rely_release (hr : Rely sb p g h) : Rely sb p (g.setLock k none) (h.setLock k none) := by
  have hlock : ∀ (x : Ghost P K M) l, (x.setLock k none).s.lock l = some p ↔
      l ≠ k ∧ x.s.lock l = some p := fun x l => by
    by_cases hlk : l = k
    · subst hlk
      rw [setLock_self]
      exact ⟨fun h => (nomatch h), fun h => absurd rfl h.1⟩
    · rw [setLock_ne _ _ hlk]
      exact ⟨fun h => ⟨hlk, h⟩, fun h => h.2⟩
  have hown : ∀ (x : Ghost P K M) o, Own p (x.setLock k none) o → Own p x o := by
    rintro x o (rfl | ⟨l, h1, h2, h3⟩)
    · exact .inl rfl
    · exact .inr ⟨l, ((hlock x l).1 h1).2, h2, h3⟩
  exact {
    view := hr.view
    cwd := hr.cwd
    ofile := hr.ofile
    lock := fun l => by rw [hlock, hlock, hr.lock]
    pin := hr.pin
    held := fun l hl => hr.held l ((hlock g l).1 hl).2
    unopened := fun l hl => hr.unopened l ((hlock g l).1 hl).2
    disk := fun l hl => hr.disk l ((hlock g l).1 hl).2
    own := fun b hb => hr.own b (hown g _ hb)
    new := fun b hb => hr.new b (hown h _ hb)
    file := hr.file }

theorem ilockTake_gives (kit : Kit sb p L) (hp : Pinned p g k) :
    L.Gives g (ilockTake p k) fun _ g' => ∃ h, L.rely g h ∧ Inv sb h ∧ h.s.lock k = none ∧
      g' = h.setLock k (some p) ∧ Inv sb g' := by
  have hpos : ∀ h, L.rely g h → Inv sb h → 0 < (h.s.inode k).ref := fun h hr hi =>
    hi.table.ref_pos ((kit.rely _ _ hr).pinned.2 hp)
  refine kit.fresh (fun h => by cases h) (fun _ h _ s' hr hi hx => ?_) (fun h m hr hi hx => ?_)
  · have hk := hpos h hr hi
    rw [if_neg (by omega)] at hx
    split at hx
    · rename_i hl
      cases hx
      have hs := take_step hi ((kit.rely _ _ hr).pinned.2 hp)
      exact ⟨h.setLock k (some p), rfl, hs, fun q hq => rely_setLock (by rw [hl]; exact fun h => (nomatch h))
        (fun e => hq (Option.some.inj e).symm), h, hr, hi, hl, rfl, hs⟩
    · cases hx
  · have hk := hpos h hr hi
    rw [if_neg (by omega)] at hx
    split at hx <;> cases hx

/-- the inode in entry `k` is in memory -/
def Ghost.load (sb : FsSuper) (g : Ghost P K M) (k : Fin K) : Ghost P K M :=
  { g with s := g.s.setInode k { g.s.inode k with
      valid := true
      d := if (g.s.inode k).valid then (g.s.inode k).d
        else sb.dinode g.s.blk (g.s.inode k).inum } }

theorem load_valid (h : (g.s.inode k).valid = true) : g.load sb k = g := by
  have e : g.s.setInode k { g.s.inode k with
      valid := true
      d := if (g.s.inode k).valid then (g.s.inode k).d
        else sb.dinode g.s.blk (g.s.inode k).inum } = g.s := by
    rw [if_pos h, ← h]
    unfold Fsys.setInode
    rw [Function.update_eq_self]
  unfold Ghost.load
  rw [e]

theorem load_invalid (h : (g.s.inode k).valid = false) : g.load sb k =
    g.tab p k { g.s.inode k with valid := true, d := sb.dinode g.s.blk (g.s.inode k).inum }
      (g.view p) := by
  unfold Ghost.load Ghost.tab
  rw [h, Function.update_eq_self]
  rfl

theorem ilockLoad_gives (kit : Kit sb p L) (hl : g.s.lock k = some p)
    (hc : (g.s.inode k).valid = true → Clean sb p k g) :
    L.Gives g (ilockLoad sb k) fun r g' => ∃ h, L.rely g h ∧ Inv sb h ∧ g' = h.load sb k ∧
      Inv sb g' ∧ (r = true ∧ Clean sb p k g' ∨
        r = false ∧ (sb.dinode h.s.blk (h.s.inode k).inum).type = 0) := by
  refine kit.fresh (fun h => by cases h) (fun _ h r s' hr hi hx => ?_) (fun h m hr hi hx => ?_)
  · have hrp := kit.rely _ _ hr
    have hl' := (hrp.lock k).2 hl
    have hv := (hrp.held k hl).2.2.1
    by_cases hval : (h.s.inode k).valid = true
    · rw [if_pos hval] at hx
      cases hx
      have he := @load_valid _ _ _ sb _ _ _ _ hval
      exact ⟨h, rfl, hi, fun q _ => .refl sb q h, h, hr, hi, he.symm, hi,
        .inl ⟨rfl, (hc (hv.symm.trans hval)).rely hrp⟩⟩
    · rw [if_neg hval] at hx
      have hval := Bool.eq_false_iff.2 hval
      have hnode : NodeOk sb h (h.s.inode k).inum (sb.dinode h.s.blk (h.s.inode k).inum) := by
        refine hi.agree.node _ (hi.table.locked_inum hl') fun ⟨l, h1, h2, _, h4⟩ => ?_
        rw [hi.table.uniq l k h1 (hi.table.locked_ref hl') h2, hval] at h4
        cases h4
      have hno : ∀ f, ¬ Opens h.s f k := fun f ho => by
        have := (hi.agree.file f k ho).1
        rw [hval] at this
        cases this
      have hs : Inv sb (h.load sb k) := by
        rw [load_invalid (p := p) hval]
        exact load_step hi hl' hno fun e => by cases e
      have he : (h.load sb k).s.inode k = { h.s.inode k with
          valid := true, d := sb.dinode h.s.blk (h.s.inode k).inum } := by
        rw [load_invalid (p := p) hval, tab_self]
      cases hx
      refine ⟨h.load sb k, ?_, hs, fun q hq => ?_, h, hr, hi, rfl, hs, ?_⟩
      · rw [load_invalid (p := p) hval]
        rfl
      · rw [load_invalid (p := p) hval]
        refine rely_tab hq (fun _ => ⟨rfl, rfl⟩) fun e => ?_
        rw [hl'] at e
        exact absurd (Option.some.inj e).symm hq
      · by_cases h0 : (sb.dinode h.s.blk (h.s.inode k).inum).type = 0
        · exact .inr ⟨decide_eq_false (not_not.2 h0), h0⟩
        · refine .inl ⟨decide_eq_true h0, ⟨hl', by rw [he]⟩, by rw [he]; rfl, by rw [he]; exact h0, ?_⟩
          rw [he]
          exact hnode.congr (fun _ => .rfl) fun _ _ => rfl
  · dsimp only at hx
    split at hx <;> cases hx

theorem setLock_setLock (g : Ghost P K M) (k : Fin K) (o o' : Option P) (h : g.s.lock k = o) :
    (g.setLock k o').setLock k o = g := by
  have : Function.update (Function.update g.s.lock k o') k o = g.s.lock := by
    rw [Function.update_idem, ← h, Function.update_eq_self]
  unfold Ghost.setLock Fsys.setLock
  dsimp only
  rw [this]

/-- **`ilock`**: the inode is in memory, as on disk, and well formed -/
theorem ilock_gives (kit : Kit sb p L) (hp : Pinned p g k)
    (hn : ∀ h, L.rely g h → Inv sb h → (sb.dinode h.s.blk (h.s.inode k).inum).type = 0 →
      L.allow .ilockNoType) :
    L.Gives g (ilock sb p k) fun _ g' => ∃ h, L.rely g h ∧ Inv sb h ∧ h.s.lock k = none ∧
      g' = (h.setLock k (some p)).load sb k ∧ Clean sb p k g' ∧ Inv sb g' := by
  refine (ilockTake_gives kit hp).bind fun _ g1 h1 => ?_
  obtain ⟨h0, hr0, hi0, hl0, rfl, hi1⟩ := h1
  have hp0 := (kit.rely _ _ hr0).pinned.2 hp
  refine (ilockLoad_gives kit (setLock_self ..) fun hv => hi0.clean_take hp0 hl0 hv).bind
    fun r g2 h2 => ?_
  obtain ⟨h1, hr1, hi1', rfl, hi2, hres⟩ := h2
  have hrp := kit.rely _ _ hr1
  have hl1 : h1.s.lock k = some p := (hrp.lock k).2 (setLock_self ..)
  -- what the others have done in between they could have done before
  have hback : L.rely g (h1.setLock k none) := by
    refine L.rely_trans hr0 ?_
    have := kit.lift (fun x => x.setLock k none) _ _ hr1 (rely_release hrp)
    rwa [setLock_setLock _ _ _ _ hl0] at this
  have hinv : Inv sb (h1.setLock k none) := release_step hi1' hl1 fun hv =>
    (hi0.clean_take hp0 hl0 ((hrp.held k (setLock_self ..)).2.2.1.symm.trans hv)).rely hrp
  have heq : (h1.setLock k none).setLock k (some p) = h1 := setLock_setLock _ _ _ _ hl1
  rcases hres with ⟨rfl, hc⟩ | ⟨rfl, h0⟩
  · exact .pure ⟨h1.setLock k none, hback, hinv, setLock_self .., by rw [heq], hc, hi2⟩
  · refine kit.fresh (fun h => by cases h) (fun _ _ _ _ _ _ hx => by cases hx) fun _ m _ _ hx => ?_
    cases hx
    exact hn _ hback hinv h0

theorem iunlock_gives (kit : Kit sb p L) (hc : Clean sb p k g) :
    L.Gives g (iunlock p k) fun _ g' => g' = g.setLock k none := by
  have hok : ∀ h, L.rely g h → Inv sb h → ¬ (h.s.lock k ≠ some p ∨ (h.s.inode k).ref < 1) := by
    intro h hr hi
    have hl := ((kit.rely _ _ hr).lock k).2 hc.lock
    have := hi.table.locked_ref hl
    exact fun h => h.elim (fun h => h hl) fun h => by omega
  refine kit.act (fun h => by cases h) (fun _ h _ s' hr hi hx => ?_) (fun h m hr hi hx => ?_)
  · rw [if_neg (hok h hr hi)] at hx
    cases hx
    have hrp := kit.rely _ _ hr
    have hl := (hrp.lock k).2 hc.lock
    exact ⟨fun x => x.setLock k none, rfl, release_step hi hl fun _ => hc.rely hrp,
      fun q hq => rely_setLock (by rw [hl]; exact fun e => hq (Option.some.inj e).symm)
        (fun e => (nomatch e)), rely_release hrp, rfl⟩
  · rw [if_neg (hok h hr hi)] at hx
    cases hx

end

end
end
end Xv6.FileSys
