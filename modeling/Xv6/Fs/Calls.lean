import Xv6.Fs.Names

/-!
# Files and calls, with what a process has in hand

* `file_step`   a change of one file and of the references of one process;
* `filealloc_calm`, `filedup_calm`, `fileclose_calm`, `setOpened_calm`   the acts on the file table;
* `Idle`   between calls a process has its current directory and its descriptors;
* `FsCall.code_idle`  **every call gives back what it takes, whatever the others do**.
-/

set_option linter.unusedSectionVars false

/-- an open file refers to the inode in entry `k` -/
def Xv6.File.Opens {K : ℕ} (x : File K) (k : Fin K) : Prop := x.type ≠ .none ∧ x.ip = some k

instance {K : ℕ} (x : Xv6.File K) (k : Fin K) : Decidable (x.Opens k) :=
  inferInstanceAs (Decidable (_ ∧ _))

namespace Xv6.FileSys
open Function (update update_self update_of_ne)

section
variable {P : Type} {K M : ℕ} {sb : FsSuper} {p q : P} {g g' h : Ghost P K M} {k dp : Fin K}
  {L : Logic (Fsys P K M) (FsLabel P) FsPanic (Ghost P K M)} {α : Type} {m : Hands K M}
  {held ok : Set (Fin K)} {f : Fin M}

/-- file `f` is changed, and the references of `p` -/
def Ghost.ftab [DecidableEq P] (g : Ghost P K M) (p : P) (f : Fin M) (x : File K) (v : View K M) :
    Ghost P K M := { g with s := g.s.setFile f x, view := Function.update g.view p v }

theorem setFile_opens (s : Fsys P K M) (f f' : Fin M) (x : File K) (k : Fin K) :
    FileSys.Opens (s.setFile f x) f' k ↔ if f' = f then x.Opens k else FileSys.Opens s f' k := by
  unfold FileSys.Opens Fsys.setFile
  by_cases h : f' = f
  · rw [if_pos h, h]
    dsimp only
    rw [update_self]
    rfl
  · rw [if_neg h]
    dsimp only
    rw [update_of_ne h]

theorem opens_setFile (s : Fsys P K M) (f : Fin M) (x : File K) (k : Fin K) :
    opens (s.setFile f x) k + (if FileSys.Opens s f k then 1 else 0) =
      opens s k + if x.Opens k then 1 else 0 := by
  unfold opens
  rw [← Finset.add_sum_erase _ _ (Finset.mem_univ f),
    ← Finset.add_sum_erase Finset.univ (fun f => if FileSys.Opens s f k then 1 else 0)
      (Finset.mem_univ f)]
  have e : ∑ f' ∈ Finset.univ.erase f, (if FileSys.Opens (s.setFile f x) f' k then 1 else 0) =
      ∑ f' ∈ Finset.univ.erase f, if FileSys.Opens s f' k then 1 else 0 :=
    Finset.sum_congr rfl fun f' hf => by
      simp only [setFile_opens, if_neg (Finset.ne_of_mem_erase hf)]
  have e1 : (if FileSys.Opens (s.setFile f x) f k then 1 else 0) = if x.Opens k then 1 else 0 := by
    simp only [setFile_opens, if_true]
  omega

section
variable [Fintype P] [DecidableEq P]

theorem ftab_view (g : Ghost P K M) (x : File K) (v : View K M) : (g.ftab p f x v).view p = v :=
  update_self ..

theorem ftab_view_ne (g : Ghost P K M) (x : File K) (v : View K M) (h : q ≠ p) :
    (g.ftab p f x v).view q = g.view q := update_of_ne h _ _

theorem ftab_file (g : Ghost P K M) (x : File K) (v : View K M) : (g.ftab p f x v).s.file f = x :=
  update_self ..

theorem ftab_file_ne (g : Ghost P K M) (x : File K) (v : View K M) {f' : Fin M} (h : f' ≠ f) :
    (g.ftab p f x v).s.file f' = g.s.file f' := update_of_ne h _ _

/-- what a change of file `f` by `p` has to keep -/
structure FileStep (sb : FsSuper) (p : P) (f : Fin M) (x : File K) (v : View K M) (g : Ghost P K M) :
    Prop where
  refs : ∀ k, v.ref k + (if x.Opens k then 1 else 0) =
    (g.view p).ref k + if FileSys.Opens g.s f k then 1 else 0
  fref : x.ref + (g.view p).fref f = (g.s.file f).ref + v.fref f
  frefs : ∀ f', f' ≠ f → v.fref f' = (g.view p).fref f'
  opened : x.type ≠ .none → 0 < x.ref ∧ x.ip ≠ none
  /-- the others that have the file open see no difference -/
  others : ∀ q, q ≠ p → 0 < (g.view q).fref f → x.type = (g.s.file f).type ∧
    x.ip = (g.s.file f).ip ∧ x.readable = (g.s.file f).readable ∧
    x.writable = (g.s.file f).writable ∧ ((g.view q).fref f = (g.s.file f).ref → x.ref = (g.s.file f).ref)
  lock : ∀ k, g.s.lock k = some p → Pinned p (g.ftab p f x v) k
  valid : ∀ k, x.Opens k → (g.s.inode k).valid = true ∧ (x.writable = true → (g.d k).type ≠ T_DIR)
  new : ∀ k, x.Opens k → FileSys.Opens g.s f k ∨ g.s.lock k = some p

theorem FileStep.pinned {x : File K} {v : View K M} (hs : FileStep sb p f x v g) (hq : q ≠ p)
    (h : Pinned q g k) : Pinned q (g.ftab p f x v) k := by
  unfold Pinned
  rw [ftab_view_ne _ _ _ hq]
  refine h.imp id fun ⟨f', hf', ho⟩ => ⟨f', hf', ?_⟩
  show FileSys.Opens (g.s.setFile f x) f' k
  rw [setFile_opens]
  split
  · rename_i e
    subst e
    obtain ⟨e1, e2, _⟩ := hs.others q hq hf'
    exact ⟨by rw [e1]; exact ho.1, by rw [e2]; exact ho.2⟩
  · exact ho

/-- **a change of one file** -/
theorem file_step {x : File K} {v : View K M} (hi : Inv sb g) (hs : FileStep sb p f x v g) :
    Inv sb (g.ftab p f x v) ∧ ∀ q, q ≠ p → Rely sb q g (g.ftab p f x v) := by
  have ht := hi.table
  have hopen : ∀ f' k, FileSys.Opens (g.ftab p f x v).s f' k ↔
      if f' = f then x.Opens k else FileSys.Opens g.s f' k := fun f' k => setFile_opens g.s f f' x k
  constructor
  · refine ⟨⟨ht.inum, ht.uniq, fun k => ?_, fun f' => ?_, fun f' hf' => ?_, fun k q hk => ?_⟩,
      hi.store, hi.agree.mem, fun f' k ho => ?_, fun i hlt hb => ?_⟩
    · have h1 := sum_view g p v (fun v => v.ref k)
      have h2 := ht.refs k
      have h3 := opens_setFile g.s f x k
      have h4 := hs.refs k
      show (g.s.inode k).ref = ∑ q, (update g.view p v q).ref k + opens (g.s.setFile f x) k
      omega
    · have h1 := sum_view g p v (fun v => v.fref f')
      have h2 := ht.frefs f'
      show _ = ∑ q, (update g.view p v q).fref f'
      by_cases e : f' = f
      · subst e
        rw [ftab_file]
        have := hs.fref
        omega
      · rw [ftab_file_ne _ _ _ e]
        have := hs.frefs f' e
        omega
    · by_cases e : f' = f
      · rw [e, ftab_file] at hf' ⊢
        exact hs.opened hf'
      · rw [ftab_file_ne _ _ _ e] at hf' ⊢
        exact ht.opened f' hf'
    · by_cases hq : q = p
      · subst hq
        exact hs.lock k hk
      · exact hs.pinned hq (ht.lock k q hk)
    · rw [hopen] at ho
      by_cases e : f' = f
      · rw [if_pos e] at ho
        rw [e, ftab_file]
        exact hs.valid k ho
      · rw [if_neg e] at ho
        rw [ftab_file_ne _ _ _ e]
        exact hi.agree.file f' k ho
    · exact (hi.agree.node i hlt hb).congr (fun _ => .rfl) fun _ _ => rfl
  · intro q hq
    have r := Rely.refl sb q g
    refine { r with
      view := ftab_view_ne g x v hq
      new := fun _ _ => rfl
      unopened := fun k hk hno f' ho => ?_
      file := fun f' hf' => ?_ }
    · rw [hopen] at ho
      split at ho
      · rcases hs.new k ho with h | h
        · exact hno f h
        · rw [hk] at h
          exact hq (Option.some.inj h)
      · exact hno f' ho
    · by_cases e : f' = f
      · subst e
        rw [ftab_file]
        exact hs.others q hq hf'
      · rw [ftab_file_ne _ _ _ e]
        exact ⟨rfl, rfl, rfl, rfl, fun _ => rfl⟩

theorem Grip.ftab (hg : Grip sb p held ok m g) (x : File K) {v : View K M} {m' : Hands K M}
    (h1 : m'.ref = v.ref) (h2 : m'.fref = v.fref) (h3 : m'.cwd = m.cwd) (h4 : m'.ofile = m.ofile) :
    Grip sb p held ok m' (g.ftab p f x v) := by
  refine hg.table rfl rfl rfl (fun _ _ => rfl) (fun _ _ => rfl) ?_
  unfold Ghost.hands
  rw [ftab_view]
  ext1
  · exact h1.symm
  · exact h2.symm
  · exact hg.cwd.trans h3.symm
  · exact hg.ofile.trans h4.symm

/-! ## The acts on the file table -/

end
end

namespace Hands
variable {K M : ℕ} (m : Hands K M)

/-- a reference more to a file -/
def finc (f : Fin M) : Hands K M := { m with fref := Function.update m.fref f (m.fref f + 1) }

/-- a reference less to a file -/
def fdec (f : Fin M) : Hands K M := { m with fref := Function.update m.fref f (m.fref f - 1) }

/-- another descriptor -/
def setFd (fd : Fin NOFILE) (o : Option (Fin M)) : Hands K M :=
  { m with ofile := Function.update m.ofile fd o }

theorem finc_fref (f f' : Fin M) : (m.finc f).fref f' = m.fref f' + if f' = f then 1 else 0 := by
  unfold finc
  by_cases h : f' = f
  · subst h
    rw [if_pos rfl]
    exact update_self ..
  · rw [if_neg h]
    exact update_of_ne h _ _

theorem fdec_fref (f f' : Fin M) : (m.fdec f).fref f' = m.fref f' - if f' = f then 1 else 0 := by
  unfold fdec
  by_cases h : f' = f
  · subst h
    rw [if_pos rfl]
    exact update_self ..
  · rw [if_neg h]
    exact update_of_ne h _ _

@[simp] theorem finc_fdec (f : Fin M) : (m.finc f).fdec f = m := by
  ext l
  · rfl
  · rw [fdec_fref, finc_fref]
    omega
  all_goals rfl

end Hands

section
variable {P : Type} {K M : ℕ} {sb : FsSuper} {p q : P} {g g' h : Ghost P K M} {k dp : Fin K}
  {L : Logic (Fsys P K M) (FsLabel P) FsPanic (Ghost P K M)} {α : Type} {m : Hands K M}
  {held ok : Set (Fin K)} {f : Fin M}
variable [Fintype P] [DecidableEq P]

/-- the references of `p` as in `m` -/
def Hands.view (m : Hands K M) : View K M := ⟨m.ref, m.fref⟩

theorem Grip.view (hg : Grip sb p held ok m g) : g.view p = m.view := by
  ext1
  · exact hg.ref
  · exact hg.fref

theorem argfd_calm (kit : Kit sb p L) (hg : Calm sb p held m g) (fd : Fin NOFILE) :
    L.Gives g (argfd p fd) fun r g' => r = m.ofile fd ∧ g' = g := by
  refine (kit.read _).mono fun r g' h => ?_
  obtain ⟨rfl, h', hr, _, rfl⟩ := h
  exact ⟨by rw [(hg.rely (kit.rely _ _ hr)).ofile], rfl⟩

theorem Inv.fref_other (hi : Inv sb g) (hp : (g.s.file f).ref ≤ (g.view p).fref f) (hq : q ≠ p) :
    (g.view q).fref f = 0 := by
  have h := hi.table.frefs f
  rw [← Finset.add_sum_erase _ _ (Finset.mem_univ p)] at h
  have := Finset.single_le_sum (f := fun q => (g.view q).fref f) (fun _ _ => Nat.zero_le _)
    (Finset.mem_erase.2 ⟨hq, Finset.mem_univ q⟩)
  omega

theorem Inv.fref_le (hi : Inv sb g) (p : P) (f : Fin M) : (g.view p).fref f ≤ (g.s.file f).ref := by
  have h := hi.table.frefs f
  have := Finset.single_le_sum (f := fun q => (g.view q).fref f) (fun _ _ => Nat.zero_le _)
    (Finset.mem_univ p)
  omega

/-- `p` has all references to a file that is not open yet -/
structure Fresh (p : P) (f : Fin M) (g : Ghost P K M) : Prop where
  type : (g.s.file f).type = .none
  ref : (g.view p).fref f = (g.s.file f).ref
  pos : 0 < (g.view p).fref f

theorem Fresh.rely (hf : Fresh p f g) (hr : Rely sb p g h) : Fresh p f h := by
  obtain ⟨e1, _, _, _, e5⟩ := hr.file f hf.pos
  refine ⟨e1.trans hf.type, ?_, by rw [hr.view]; exact hf.pos⟩
  rw [hr.view, e5 hf.ref]
  exact hf.ref

/-- a change of a file keeps what is locked, if a reference of the process itself holds it -/
theorem pinned_ftab {x : File K} {v : View K M} (h : 0 < v.ref k) : Pinned p (g.ftab p f x v) k :=
  .inl (by rw [ftab_view]; exact h)

theorem filealloc_calm (kit : Kit sb p L) (hg : Calm sb p held m g) (hpos : ∀ k ∈ held, 0 < m.ref k) :
    L.Gives g filealloc fun r g' => Types held g g' ∧ (r = none ∧ Calm sb p held m g' ∨
      ∃ f, r = some f ∧ Calm sb p held (m.finc f) g' ∧ Fresh p f g') := by
  refine kit.fresh (fun h => by cases h) (fun _ h r s' hr hi hx => ?_) (fun h e hr hi hx => ?_)
  · have hrp := kit.rely _ _ hr
    have hg' := hg.rely hrp
    dsimp only at hx
    split at hx
    · rename_i f hfind
      cases hx
      have hf0 := List.find?_some hfind
      have h0 : (h.s.file f).ref = 0 := beq_iff_eq.1 hf0
      have hty : (h.s.file f).type = .none := by
        by_contra hne
        have := (hi.table.opened f hne).1
        omega
      have hall : ∀ q, (h.view q).fref f = 0 := fun q => by
        have := hi.fref_le q f
        omega
      have hm0 : m.fref f = 0 := by
        rw [← hg'.fref]
        exact hall p
      have hno : ∀ k, ¬ FileSys.Opens h.s f k := fun k ho => ho.1 hty
      have hstep : FileStep sb p f { h.s.file f with ref := 1 } (m.finc f).view h := by
        refine ⟨fun k => ?_, ?_, fun f' hf' => ?_, fun hne => absurd hty hne, fun q _ hq => ?_,
          fun k hk => pinned_ftab (hpos k ((hg'.lock k).1 hk)), fun k ho => absurd hty ho.1,
          fun k ho => absurd hty ho.1⟩
        · rw [if_neg (hno k), if_neg fun ho => ho.1 hty, hg'.ref]
          rfl
        · show 1 + (h.view p).fref f = (h.s.file f).ref + (m.finc f).fref f
          rw [hall p, h0, m.finc_fref, if_pos rfl, hm0]
        · show (m.finc f).fref f' = _
          rw [m.finc_fref, if_neg hf', hg'.fref, Nat.add_zero]
        · rw [hall q] at hq
          omega
      obtain ⟨h1, h2⟩ := file_step hi hstep
      refine ⟨_, rfl, h1, h2, fun l hl => hg.types hrp l hl, .inr ⟨f, rfl, hg'.ftab _ rfl rfl rfl rfl, ?_⟩⟩
      refine ⟨by rw [ftab_file]; exact hty, ?_, ?_⟩
      · rw [ftab_file, ftab_view]
        show (m.finc f).fref f = 1
        rw [m.finc_fref, if_pos rfl, hm0]
      · rw [ftab_view]
        show 0 < (m.finc f).fref f
        rw [m.finc_fref, if_pos rfl]
        omega
    · cases hx
      exact ⟨h, rfl, hi, fun q _ => .refl sb q h, hg.types hrp, .inl ⟨rfl, hg'⟩⟩
  · dsimp only at hx
    split at hx <;> cases hx

/-- the descriptors of `p` change -/
def Ghost.setOfile (g : Ghost P K M) (p : P) (o : Fin NOFILE → Option (Fin M)) : Ghost P K M :=
  { g with s := { g.s with ofile := Function.update g.s.ofile p o } }

/-- the current directory of `p` changes -/
def Ghost.setCwd (g : Ghost P K M) (p : P) (c : Option (Fin K)) : Ghost P K M :=
  { g with s := { g.s with cwd := Function.update g.s.cwd p c } }

theorem ofile_step (hi : Inv sb g) (o : Fin NOFILE → Option (Fin M)) :
    Inv sb (g.setOfile p o) ∧ ∀ q, q ≠ p → Rely sb q g (g.setOfile p o) := by
  have ht := hi.table
  refine ⟨⟨⟨ht.inum, ht.uniq, ht.refs, ht.frefs, ht.opened, ht.lock⟩, hi.store, hi.agree.mem,
    hi.agree.file, fun i hlt hb => (hi.agree.node i hlt hb).congr (fun _ => .rfl) fun _ _ => rfl⟩,
    fun q hq => ?_⟩
  have r := Rely.refl sb q g
  exact { r with ofile := update_of_ne hq _ _, new := fun _ _ => rfl }

theorem cwd_step (hi : Inv sb g) (c : Option (Fin K)) :
    Inv sb (g.setCwd p c) ∧ ∀ q, q ≠ p → Rely sb q g (g.setCwd p c) := by
  have ht := hi.table
  refine ⟨⟨⟨ht.inum, ht.uniq, ht.refs, ht.frefs, ht.opened, ht.lock⟩, hi.store, hi.agree.mem,
    hi.agree.file, fun i hlt hb => (hi.agree.node i hlt hb).congr (fun _ => .rfl) fun _ _ => rfl⟩,
    fun q hq => ?_⟩
  have r := Rely.refl sb q g
  exact { r with cwd := update_of_ne hq _ _, new := fun _ _ => rfl }

theorem Grip.setOfile (hg : Grip sb p held ok m g) (o : Fin NOFILE → Option (Fin M)) :
    Grip sb p held ok { m with ofile := o } (g.setOfile p o) := by
  refine hg.table rfl rfl rfl (fun _ _ => rfl) (fun _ _ => rfl) ?_
  rw [← hg.hands]
  unfold Ghost.hands Ghost.setOfile
  dsimp only
  rw [update_self]

theorem Grip.setCwd (hg : Grip sb p held ok m g) (c : Option (Fin K)) :
    Grip sb p held ok { m with cwd := c } (g.setCwd p c) := by
  refine hg.table rfl rfl rfl (fun _ _ => rfl) (fun _ _ => rfl) ?_
  rw [← hg.hands]
  unfold Ghost.hands Ghost.setCwd
  dsimp only
  rw [update_self]

theorem fdalloc_calm (kit : Kit sb p L) (hg : Calm sb p held m g) (f : Fin M) :
    L.Gives g (fdalloc p f) fun r g' => Types held g g' ∧ (Fresh p f g → Fresh p f g') ∧
      (r = none ∧ Calm sb p held m g' ∨
        ∃ fd, r = some fd ∧ m.ofile fd = none ∧ Calm sb p held (m.setFd fd (some f)) g') := by
  refine kit.fresh (fun h => by cases h) (fun _ h r s' hr hi hx => ?_) (fun h e hr hi hx => ?_)
  · have hrp := kit.rely _ _ hr
    have hg' := hg.rely hrp
    split at hx
    · rename_i fd hfind
      cases hx
      have hf0 := List.find?_some hfind
      have hnone : m.ofile fd = none := by
        rw [← hg'.ofile]
        exact Option.isNone_iff_eq_none.1 hf0
      obtain ⟨h1, h2⟩ := ofile_step (p := p) hi (update (h.s.ofile p) fd (some f))
      refine ⟨_, rfl, h1, h2, fun l hl => hg.types hrp l hl, fun hf => ?_, .inr ⟨fd, rfl, hnone, ?_⟩⟩
      · have := hf.rely hrp
        exact ⟨this.type, this.ref, this.pos⟩
      · have := hg'.setOfile (update (h.s.ofile p) fd (some f))
        rw [hg'.ofile] at this ⊢
        exact this
    · cases hx
      exact ⟨h, rfl, hi, fun q _ => .refl sb q h, hg.types hrp, fun hf => hf.rely hrp, .inl ⟨rfl, hg'⟩⟩
  · split at hx <;> cases hx

theorem clearFd_calm (kit : Kit sb p L) (hg : Calm sb p held m g) (fd : Fin NOFILE) :
    L.Gives g (clearFd p fd) fun _ g' => Calm sb p held (m.setFd fd none) g' := by
  refine kit.fresh (fun h => by cases h) (fun _ h r s' hr hi hx => ?_) (fun _ _ _ _ hx => by cases hx)
  cases hx
  have hg' := hg.rely (kit.rely _ _ hr)
  obtain ⟨h1, h2⟩ := ofile_step (p := p) hi (update (h.s.ofile p) fd none)
  refine ⟨_, rfl, h1, h2, ?_⟩
  have := hg'.setOfile (update (h.s.ofile p) fd none)
  rw [hg'.ofile] at this ⊢
  exact this

theorem setCwd_calm (kit : Kit sb p L) (hg : Calm sb p held m g) (c : Option (Fin K)) :
    L.Gives g (Code.modify fun s => { s with cwd := update s.cwd p c }) fun _ g' =>
      Calm sb p held { m with cwd := c } g' := by
  refine kit.fresh (fun h => by cases h) (fun _ h r s' hr hi hx => ?_) (fun _ _ _ _ hx => by cases hx)
  cases hx
  have hg' := hg.rely (kit.rely _ _ hr)
  obtain ⟨h1, h2⟩ := cwd_step (p := p) hi c
  exact ⟨_, rfl, h1, h2, hg'.setCwd c⟩

theorem getCwd_calm (kit : Kit sb p L) (hg : Calm sb p held m g) :
    L.Gives g (getCwd p) fun k g' => m.cwd = some k ∧ g' = g := by
  refine kit.act (fun h => by cases h) (fun _ h k s' hr hi hx => ?_) (fun h e hr hi hx => ?_)
  · have hrp := kit.rely _ _ hr
    split at hx
    · rename_i hk
      cases hx
      rw [(hg.rely hrp).cwd] at hk
      exact ⟨id, rfl, hi, fun q _ => .refl sb q h, hrp, hk, rfl⟩
    · cases hx
  · split at hx
    · cases hx
    · cases hx
      exact kit.allow _ (.inr (.inl rfl))

/-- the number of references to a file changes, with those of `p` -/
theorem FileStep.count (hg : Calm sb p held m g) (hi : Inv sb g) (hpos : ∀ k ∈ held, 0 < m.ref k)
    (hp : 0 < m.fref f) (r : ℕ) (m' : Hands K M) (href : m'.ref = m.ref)
    (hn : r + m.fref f = (g.s.file f).ref + m'.fref f) (hr : 0 < r)
    (ho : ∀ f', f' ≠ f → m'.fref f' = m.fref f') :
    FileStep sb p f { g.s.file f with ref := r } m'.view g := by
  refine ⟨fun k => ?_, ?_, fun f' hf' => ?_, fun hne => ⟨hr, (hi.table.opened f hne).2⟩,
    fun q hq hqf => ⟨rfl, rfl, rfl, rfl, fun e => ?_⟩,
    fun k hk => pinned_ftab ?_, fun k hk => hi.agree.file f k hk, fun k hk => .inl hk⟩
  · rw [hg.ref, ← href]
    rfl
  · rw [hg.fref]
    exact hn
  · rw [hg.fref]
    exact ho f' hf'
  · rw [← hg.fref] at hp
    have := hi.fref_other (f := f) (p := q) (q := p) (by omega) hq.symm
    omega
  · show 0 < m'.ref k
    rw [href]
    exact hpos k ((hg.lock k).1 hk)

theorem filedup_calm (kit : Kit sb p L) (hg : Calm sb p held m g) (hpos : ∀ k ∈ held, 0 < m.ref k)
    (hp : 0 < m.fref f) :
    L.Gives g (filedup f) fun _ g' => Calm sb p held (m.finc f) g' := by
  have href : ∀ h, L.rely g h → Inv sb h → ¬ (h.s.file f).ref < 1 := fun h hr hi => by
    have h1 := hi.fref_le p f
    rw [(hg.rely (kit.rely _ _ hr)).fref] at h1
    omega
  refine kit.fresh (fun h => by cases h) (fun _ h r s' hr hi hx => ?_) (fun h e hr hi hx => ?_)
  · rw [if_neg (href h hr hi)] at hx
    cases hx
    have hg' := hg.rely (kit.rely _ _ hr)
    have hstep := FileStep.count hg' hi hpos hp ((h.s.file f).ref + 1) (m.finc f) rfl
      (by rw [m.finc_fref, if_pos rfl]; omega) (Nat.succ_pos _)
      (fun f' hf' => by rw [m.finc_fref, if_neg hf', Nat.add_zero])
    obtain ⟨h1, h2⟩ := file_step hi hstep
    exact ⟨_, rfl, h1, h2, hg'.ftab _ rfl rfl rfl rfl⟩
  · rw [if_neg (href h hr hi)] at hx
    cases hx

/-- a reference to a file is given up; with the last one that to its inode becomes one of `p` -/
theorem filecloseDrop_calm (kit : Kit sb p L) (hg : Calm sb p held m g)
    (hpos : ∀ k ∈ held, 0 < m.ref k) (hp : 0 < m.fref f) :
    L.Gives g (filecloseDrop f) fun r g' => Types held g g' ∧
      (r = none ∧ Calm sb p held (m.fdec f) g' ∨
        ∃ k, r = some k ∧ Calm sb p held ((m.fdec f).inc k) g') := by
  have hfd : ∀ f', f' ≠ f → (m.fdec f).fref f' = m.fref f' := fun f' hf' => by
    rw [m.fdec_fref, if_neg hf', Nat.sub_zero]
  have hff : (m.fdec f).fref f = m.fref f - 1 := by rw [m.fdec_fref, if_pos rfl]
  refine kit.fresh (fun h => by cases h) (fun _ h r s' hr hi hx => ?_) (fun h e hr hi hx => ?_)
  · have hrp := kit.rely _ _ hr
    have hg' := hg.rely hrp
    have hle := hi.fref_le p f
    rw [hg'.fref] at hle
    dsimp only at hx
    rw [if_neg (by omega)] at hx
    by_cases h1 : 0 < (h.s.file f).ref - 1
    · rw [if_pos h1] at hx
      cases hx
      have hstep := FileStep.count hg' hi hpos hp ((h.s.file f).ref - 1) (m.fdec f) rfl
        (by rw [hff]; omega) h1 hfd
      obtain ⟨h1, h2⟩ := file_step hi hstep
      exact ⟨_, rfl, h1, h2, fun l hl => hg.types hrp l hl, .inl ⟨rfl, hg'.ftab _ rfl rfl rfl rfl⟩⟩
    · rw [if_neg h1] at hx
      -- nobody else has the file
      have hother : ∀ q, q ≠ p → (h.view q).fref f = 0 := fun q hq =>
        hi.fref_other (by rw [hg'.fref]; omega) hq
      have hone : m.fref f = 1 ∧ (h.s.file f).ref = 1 := by omega
      have key : ∀ m' : Hands K M, (∀ k, m'.ref k = m.ref k + if FileSys.Opens h.s f k then 1 else 0) →
          m'.fref = (m.fdec f).fref →
          FileStep sb p f { h.s.file f with ref := 0, type := .none } m'.view h := by
        intro m' hm1 hm2
        refine ⟨fun k => ?_, ?_, fun f' hf' => ?_, fun hne => absurd rfl hne, fun q hq hqf => ?_,
          fun k hk => pinned_ftab ?_, fun k ho => absurd rfl ho.1, fun k ho => absurd rfl ho.1⟩
        · rw [if_neg fun ho => ho.1 rfl, hg'.ref]
          exact hm1 k
        · show 0 + (h.view p).fref f = (h.s.file f).ref + m'.fref f
          rw [hg'.fref, hm2, hff]
          omega
        · show m'.fref f' = _
          rw [hm2, hg'.fref]
          exact hfd f' hf'
        · have := hother q hq
          omega
        · show 0 < m'.ref k
          have := hpos k ((hg'.lock k).1 hk)
          rw [hm1]
          omega
      by_cases hty : (h.s.file f).type = .none
      · rw [if_pos hty] at hx
        cases hx
        have hstep := key (m.fdec f) (fun k => by rw [if_neg fun ho => ho.1 hty]; rfl) rfl
        obtain ⟨h1, h2⟩ := file_step hi hstep
        exact ⟨_, rfl, h1, h2, fun l hl => hg.types hrp l hl, .inl ⟨rfl, hg'.ftab _ rfl rfl rfl rfl⟩⟩
      · rw [if_neg hty] at hx
        cases hx
        obtain ⟨k, hk⟩ := Option.ne_none_iff_exists'.1 (hi.table.opened f hty).2
        have hstep := key ((m.fdec f).inc k) (fun l => ?_) rfl
        · obtain ⟨h1, h2⟩ := file_step hi hstep
          exact ⟨_, rfl, h1, h2, fun l hl => hg.types hrp l hl, .inr ⟨k, hk, hg'.ftab _ rfl rfl rfl rfl⟩⟩
        · rw [(m.fdec f).inc_ref]
          have : FileSys.Opens h.s f l ↔ l = k := by
            unfold FileSys.Opens
            rw [hk]
            exact ⟨fun h => (Option.some.inj h.2).symm, fun h => ⟨hty, by rw [h]⟩⟩
          simp only [this]
          rfl
  · have h1 := hi.fref_le p f
    rw [(hg.rely (kit.rely _ _ hr)).fref] at h1
    dsimp only at hx
    rw [if_neg (by omega)] at hx
    split at hx <;> cases hx

theorem fileclose_calm (kit : Kit sb p L) (hok : sb.Ok) (hg : Calm sb p held m g)
    (hpos : ∀ k ∈ held, 0 < m.ref k) (hp : 0 < m.fref f) :
    L.Gives g (fileclose sb p f) fun _ g' => Calm sb p held (m.fdec f) g' ∧ Types held g g' := by
  refine (filecloseDrop_calm kit hg hpos hp).bind fun r g1 h1 => ?_
  obtain ⟨ht1, ⟨rfl, hg1⟩ | ⟨k, rfl, hg1⟩⟩ := h1
  · exact .pure ⟨hg1, ht1⟩
  · refine inOp_gives kit (fun _ _ o l h => ⟨h.1.log o l, h.2⟩) fun o l => ?_
    refine (iput_calm kit hok (hg1.log o l) ((m.fdec f).inc_pos k) fun hk => ?_).mono fun _ g2 h2 => ?_
    · have : 0 < m.ref k := hpos k hk
      rw [(m.fdec f).inc_ref, if_pos rfl]
      show 1 < m.ref k + 1
      omega
    · rw [(m.fdec f).inc_dec] at h2
      exact ⟨h2.1, ht1.trans h2.2⟩

/-- what `sys_open` sets makes the file writable -/
def Writable (omode : BitVec 32) : Bool := omode &&& O_WRONLY ≠ 0 || omode &&& O_RDWR ≠ 0

/-- `sys_open` fills in a new file: the reference of `p` to the inode becomes one of the file -/
theorem setOpened_calm (kit : Kit sb p L) {ip : Fin K} (hg : Calm sb p held m g) (hk : ip ∈ held)
    (hf : Fresh p f g) (hp : 0 < m.ref ip) {d : Dinode} (hdt : d.type = (g.d ip).type)
    {omode : BitVec 32}
    (hdir : L.labels (some (.opened p d.type omode)) → Writable omode = true → d.type ≠ T_DIR) :
    L.Gives g (setOpened p f ip d omode) fun _ g' => Calm sb p held (m.dec ip) g' ∧
      Types held g g' := by
  refine kit.fresh (fun h => by cases h) (fun hl h r s' hr hi hx => ?_) (fun _ _ _ _ hx => by cases hx)
  cases hx
  have hrp := kit.rely _ _ hr
  have hg' := hg.rely hrp
  have hf' := hf.rely hrp
  have hd : h.d ip = g.d ip := (hrp.held ip (hg.clean ip hk).lock).2.2.2
  have hno : ∀ k, ¬ FileSys.Opens h.s f k := fun k ho => ho.1 hf'.type
  have hty : ∀ c : Prop, [Decidable c] → (if c then FileType.device else FileType.inode) ≠ .none :=
    fun c _ => by split <;> exact fun h => (nomatch h)
  generalize hx : ({ h.s.file f with
      type := if d.type = T_DEVICE then .device else .inode
      off := if d.type = T_DEVICE then (h.s.file f).off else 0
      major := if d.type = T_DEVICE then d.major else (h.s.file f).major
      ip := some ip
      readable := omode &&& O_WRONLY = 0
      writable := omode &&& O_WRONLY ≠ 0 || omode &&& O_RDWR ≠ 0 } : File K) = x
  have hopen : ∀ k, x.Opens k ↔ k = ip := fun k => by
    rw [← hx]
    exact ⟨fun ho => (Option.some.inj ho.2).symm, fun e => ⟨hty _, by rw [e]⟩⟩
  have hdec : ∀ k, (m.dec ip).ref k + (if k = ip then 1 else 0) = m.ref k := fun k => by
    rw [m.dec_ref]
    split
    · rename_i e
      rw [e]
      omega
    · rfl
  have hxr : x.ref = (h.s.file f).ref := by rw [← hx]
  have hfpos : 0 < (h.s.file f).ref := by
    rw [← hf'.ref]
    exact hf'.pos
  have hstep : FileStep sb p f x (m.dec ip).view h := by
    refine ⟨fun k => ?_, ?_, fun f' hf' => ?_, fun _ => ⟨by rw [hxr]; exact hfpos, by rw [← hx]; exact fun h => (nomatch h)⟩,
      fun q hq hqf => ?_, fun k hk' => ?_, fun k ho => ?_, fun k ho => .inr ?_⟩
    · rw [if_neg (hno k), hg'.ref]
      simp only [hopen k]
      exact hdec k
    · show x.ref + _ = _ + m.fref f
      rw [hxr, hg'.fref]
    · rw [hg'.fref]
      rfl
    · have := hi.fref_other (f := f) (p := p) (by rw [hf'.ref]) hq
      omega
    · -- the inode is held by the file from now on
      rcases hi.table.lock k p hk' with hkp | ⟨f', hf1, ho⟩
      · by_cases e : k = ip
        · refine .inr ⟨f, ?_, ?_⟩
          · rw [ftab_view]
            show 0 < m.fref f
            rw [← hg'.fref]
            exact hf'.pos
          · show FileSys.Opens (h.s.setFile f x) f k
            rw [setFile_opens, if_pos rfl]
            exact (hopen k).2 e
        · refine pinned_ftab ?_
          show 0 < (m.dec ip).ref k
          rw [m.dec_ref, if_neg e, Nat.sub_zero, ← hg'.ref]
          exact hkp
      · refine .inr ⟨f', ?_, ?_⟩
        · rw [ftab_view]
          show 0 < m.fref f'
          rw [← hg'.fref]
          exact hf1
        · have hne : f' ≠ f := fun e => ho.1 (by rw [e]; exact hf'.type)
          show FileSys.Opens (h.s.setFile f x) f' k
          rw [setFile_opens, if_neg hne]
          exact ho
    · rw [(hopen k).1 ho, hd, ← hdt]
      refine ⟨(hg'.clean ip hk).valid, fun hw => hdir hl ?_⟩
      rw [← hx] at hw
      exact hw
    · rw [(hopen k).1 ho]
      exact (hg'.clean ip hk).lock
  obtain ⟨h1, h2⟩ := file_step hi hstep
  refine ⟨h.ftab p f x (m.dec ip).view, ?_, h1, h2, hg'.ftab _ rfl rfl rfl rfl, fun l hl => hg.types hrp l hl⟩
  rw [← hx]
  rfl

/-! ## Reading and writing a file -/

/-- `p` has file `f` open, which is that of entry `k`, and if `w` for writing -/
structure Using (p : P) (f : Fin M) (k : Fin K) (w : Bool) (g : Ghost P K M) : Prop where
  pos : 0 < (g.view p).fref f
  opens : FileSys.Opens g.s f k
  writable : w = true → (g.s.file f).writable = true

variable {w : Bool}

theorem Using.rely (hu : Using p f k w g) (hr : Rely sb p g h) : Using p f k w h :=
  ⟨by rw [hr.view]; exact hu.pos, (hr.opens hu.pos).2 hu.opens, fun e => by
    rw [(hr.file f hu.pos).2.2.2.1]
    exact hu.writable e⟩

theorem Using.same (hu : Using p f k w g) (h1 : g'.s.file = g.s.file) (h2 : g'.view = g.view) :
    Using p f k w g' :=
  ⟨by rw [h2]; exact hu.pos, by unfold FileSys.Opens; rw [h1]; exact hu.opens, by
    rw [h1]
    exact hu.writable⟩

theorem Using.pinned (hu : Using p f k w g) : Pinned p g k := .inr ⟨f, hu.pos, hu.opens⟩

theorem Using.type (hu : Using p f k true g) (hi : Inv sb g) : (g.d k).type ≠ T_DIR :=
  (hi.agree.file f k hu.opens).2 (hu.writable rfl)

theorem fileIp_gives (kit : Kit sb p L) (hp : 0 < (g.view p).fref f) (hty : (g.s.file f).type ≠ .none)
    (hw : w = true → (g.s.file f).writable = true) :
    L.Gives g (fileIp f) fun k g' => g' = g ∧ Using p f k w g := by
  refine kit.act (fun h => by cases h) (fun _ h k s' hr hi hx => ?_) (fun h e hr hi hx => ?_)
  · have hrp := kit.rely _ _ hr
    split at hx
    · rename_i hk
      cases hx
      rw [(hrp.file f hp).2.1] at hk
      exact ⟨id, rfl, hi, fun q _ => .refl sb q h, hrp, rfl, hp, ⟨hty, hk⟩, hw⟩
    · cases hx
  · split at hx
    · cases hx
    · cases hx
      exact kit.allow _ (.inr (.inl rfl))

theorem off_step (hi : Inv sb g) (p : P) (f : Fin M) (o : BitVec 32) :
    Inv sb (g.ftab p f { g.s.file f with off := o } (g.view p)) ∧
      ∀ q, q ≠ p → Rely sb q g (g.ftab p f { g.s.file f with off := o } (g.view p)) := by
  refine file_step hi ⟨fun k => rfl, rfl, fun _ _ => rfl, hi.table.opened f,
    fun _ _ _ => ⟨rfl, rfl, rfl, rfl, fun _ => rfl⟩, fun k hk => ?_, fun k ho => hi.agree.file f k ho,
    fun k ho => .inl ho⟩
  refine (hi.table.lock k p hk).imp (fun h => by rw [ftab_view]; exact h) ?_
  rintro ⟨f', hf', ho⟩
  refine ⟨f', by rw [ftab_view]; exact hf', ?_⟩
  show FileSys.Opens (g.s.setFile f _) f' k
  rw [setFile_opens]
  split
  · rename_i e
    subst e
    exact ho
  · exact ho

theorem off_calm (hg : Calm sb p held m g) (o : BitVec 32) :
    Calm sb p held m (g.ftab p f { g.s.file f with off := o } (g.view p)) := by
  rw [hg.view]
  exact hg.ftab _ rfl rfl rfl rfl

theorem off_using (hu : Using p f k w g) (o : BitVec 32) :
    Using p f k w (g.ftab p f { g.s.file f with off := o } (g.view p)) :=
  ⟨by rw [ftab_view]; exact hu.pos, by
    show FileSys.Opens (g.s.setFile f _) f k
    rw [setFile_opens, if_pos rfl]
    exact hu.opens, by
    rw [ftab_file]
    exact hu.writable⟩

theorem advance_calm (kit : Kit sb p L) (hg : Calm sb p held m g) (hu : Using p f k w g) (i n1 : ℕ)
    (off : BitVec 32) (r : ℤ) :
    L.Gives g (advance p f i n1 off r) fun _ g' => Calm sb p held m g' ∧ Using p f k w g' := by
  refine kit.fresh (fun h => by cases h) (fun _ h _ s' hr hi hx => ?_) (fun _ _ _ _ hx => by cases hx)
  cases hx
  have hrp := kit.rely _ _ hr
  by_cases h0 : r > 0
  · rw [if_pos h0]
    obtain ⟨h1, h2⟩ := off_step hi p f ((h.s.file f).off + BitVec.ofInt 32 r)
    exact ⟨_, rfl, h1, h2, off_calm (hg.rely hrp) _, off_using (hu.rely hrp) _⟩
  · rw [if_neg h0]
    exact ⟨h, rfl, hi, fun q _ => .refl sb q h, hg.rely hrp, hu.rely hrp⟩

theorem Using.log (hu : Using p f k w g) (o : ℕ) (l : List ℕ) : Using p f k w (g.log o l) :=
  hu.same rfl rfl

theorem writeChunk_calm (lax : Lax sb p L) (hok : sb.Ok) (src : ℕ → Option Byte) {i n1 : ℕ}
    (hn : n1 ≤ writeMax) (hg : Calm sb p ∅ m g) (hp : 0 < (g.view p).fref f)
    (hty : (g.s.file f).type ≠ .none) (hw : (g.s.file f).writable = true) :
    L.Gives g (writeChunk sb p f src i n1) fun _ g' => Calm sb p ∅ m g' ∧ ∃ ip, Using p f ip true g' := by
  have kit := lax.toKit
  refine (fileIp_gives (w := true) kit hp hty fun _ => hw).bind fun ip g1 h1 => ?_
  obtain ⟨rfl, hu⟩ := h1
  refine (ilock_calm kit lax.noType hg hu.pinned).bind fun _ g2 h2 => ?_
  obtain ⟨hk2, hg2, _, _, _, hi2, h', hr', e1, e2⟩ := h2
  have hu2 : Using p f ip true g2 := (hu.rely (kit.rely _ _ hr')).same e1 e2
  refine (kit.read _).bind fun off g3 h3 => ?_
  obtain ⟨rfl, _⟩ := h3
  refine (writei_file kit hok hg2 (.inl rfl) (hu2.type hi2) (lt_of_le_of_lt hn (by decide))).bind
    fun r g4 h4 => ?_
  obtain ⟨hg4, _, hloc⟩ := h4
  refine (advance_calm kit hg4 (hu2.same hloc.file hloc.view) _ _ _ _).bind fun _ g5 h5 => ?_
  refine (iunlock_gives kit (h5.1.clean ip (.inl rfl))).bind fun _ g6 e6 => ?_
  subst e6
  exact .pure ⟨(h5.1.mono (Set.subset_insert ip ∅)).release hk2 hk2, ip, h5.2.same rfl rfl⟩

theorem filewriteLoop_calm (lax : Lax sb p L) (hok : sb.Ok) (src : ℕ → Option Byte) (n fuel i : ℕ)
    (hg : Calm sb p ∅ m g) (hp : 0 < (g.view p).fref f) (hty : (g.s.file f).type ≠ .none)
    (hw : (g.s.file f).writable = true) :
    L.Gives g (filewriteLoop sb p f src n fuel i) fun _ g' => Calm sb p ∅ m g' := by
  induction fuel generalizing g i with
  | zero => exact .pure hg
  | succ fuel ih =>
    unfold filewriteLoop
    refine .ite (fun _ => ?_) fun _ => .pure hg
    refine Logic.Gives.bind (inOp_gives lax.toKit
      (R := fun _ g' => Calm sb p ∅ m g' ∧ ∃ ip, Using p f ip true g')
      (fun _ _ o l h => ⟨h.1.log o l, h.2.imp fun _ h => h.log o l⟩) fun o l => ?_) fun r g1 h1 => ?_
    · exact writeChunk_calm lax hok src (Nat.min_le_right _ _) (hg.log o l) hp hty hw
    · obtain ⟨hg1, ip, hu⟩ := h1
      exact .ite (fun _ => .pure hg1) fun _ => ih _ hg1 hu.pos hu.opens.1 (hu.writable rfl)

theorem filewriteInode_calm (lax : Lax sb p L) (hok : sb.Ok) (src : ℕ → Option Byte) (n : CInt)
    (hg : Calm sb p ∅ m g) (hp : 0 < (g.view p).fref f) (hty : (g.s.file f).type ≠ .none)
    (hw : (g.s.file f).writable = true) :
    L.Gives g (filewriteInode sb p f src n) fun _ g' => Calm sb p ∅ m g' := by
  refine (filewriteLoop_calm lax hok src _ _ 0 hg hp hty hw).bind fun i g1 hg1 => ?_
  refine lax.act (fun h => by cases h) (fun _ h a s' hr hi hx => ?_) (fun _ _ _ _ hx => by cases hx)
  cases hx
  exact ⟨id, rfl, hi, fun q _ => .refl sb q h, lax.rely _ _ hr, hg1⟩

theorem filereadInode_calm (lax : Lax sb p L) (dst : ℕ → Option Unit) (n : CInt)
    (hg : Calm sb p ∅ m g) (hp : 0 < (g.view p).fref f) (hty : (g.s.file f).type ≠ .none) :
    L.Gives g (filereadInode sb p f dst n) fun _ g' => Calm sb p ∅ m g' := by
  have kit := lax.toKit
  refine (fileIp_gives (w := false) kit hp hty fun h => (nomatch h)).bind fun ip g1 h1 => ?_
  obtain ⟨rfl, hu⟩ := h1
  refine (ilock_calm kit lax.noType hg hu.pinned).bind fun _ g2 h2 => ?_
  obtain ⟨hk2, hg2, _⟩ := h2
  refine (kit.read _).bind fun off g3 h3 => ?_
  obtain ⟨rfl, _⟩ := h3
  refine (readi_gives kit (hg2.clean ip (.inl rfl)).full dst _ n.isLt).bind fun r g4 h4 => ?_
  obtain ⟨rfl, _⟩ := h4
  obtain ⟨r, x⟩ := r
  have fin : ∀ {g'}, Calm sb p (insert ip ∅) m g' → L.Gives g' (do
      iunlock p ip
      return (r, x) : FsM P K M (ℤ × List Byte)) fun _ g'' => Calm sb p ∅ m g'' := fun hg' =>
    (iunlock_calm kit hg' hk2).bind fun _ g5 h5 => .pure h5.1
  refine .ite (fun _ => ?_) fun _ => fin hg2
  refine Logic.Gives.bind (Q := fun _ g' => Calm sb p (insert ip ∅) m g') ?_ fun _ g5 hg5 => fin hg5
  refine kit.fresh (fun h => by cases h) (fun _ h _ s' hr hi hx => ?_) (fun _ _ _ _ hx => by cases hx)
  cases hx
  obtain ⟨h1, h2⟩ := off_step hi p f ((h.s.file f).off + BitVec.ofInt 32 r)
  exact ⟨_, rfl, h1, h2, off_calm (hg2.rely (kit.rely _ _ hr)) _⟩

end

/-! ## Calls -/

/-- the references are those of the current directory and of the descriptors -/
structure Hands.Idle {K M : ℕ} (m : Hands K M) : Prop where
  ref : ∀ k, m.ref k = if m.cwd = some k then 1 else 0
  fref : ∀ f, m.fref f = ∑ fd, if m.ofile fd = some f then 1 else 0

namespace Hands.Idle
variable {K M : ℕ} {m : Hands K M}

theorem cwd_pos (h : m.Idle) (k : Fin K) (hk : m.cwd = some k) : 0 < m.ref k := by
  rw [h.ref, if_pos hk]
  exact Nat.one_pos

theorem fd_pos (h : m.Idle) {fd : Fin NOFILE} {f : Fin M} (hf : m.ofile fd = some f) :
    0 < m.fref f := by
  rw [h.fref]
  have := Finset.single_le_sum (f := fun fd => if m.ofile fd = some f then 1 else 0)
    (fun _ _ => Nat.zero_le _) (Finset.mem_univ fd)
  simp only [hf, if_true] at this
  omega

/-- how the number of descriptors of a file changes with one of them -/
theorem count_setFd (m : Hands K M) (fd : Fin NOFILE) (o : Option (Fin M)) (f : Fin M) :
    (∑ fd', if (m.setFd fd o).ofile fd' = some f then 1 else 0) + (if m.ofile fd = some f then 1 else 0) =
      (∑ fd', if m.ofile fd' = some f then 1 else 0) + if o = some f then 1 else 0 := by
  rw [← Finset.add_sum_erase _ _ (Finset.mem_univ fd),
    ← Finset.add_sum_erase Finset.univ (fun fd' => if m.ofile fd' = some f then 1 else 0)
      (Finset.mem_univ fd)]
  have e : ∑ fd' ∈ Finset.univ.erase fd, (if (m.setFd fd o).ofile fd' = some f then 1 else 0) =
      ∑ fd' ∈ Finset.univ.erase fd, if m.ofile fd' = some f then 1 else 0 :=
    Finset.sum_congr rfl fun fd' hf => by
      rw [show (m.setFd fd o).ofile fd' = m.ofile fd' from
        update_of_ne (Finset.ne_of_mem_erase hf) _ _]
  have e1 : (m.setFd fd o).ofile fd = o := update_self ..
  rw [e, e1]
  omega

theorem add (h : m.Idle) {fd : Fin NOFILE} {f : Fin M} (hf : m.ofile fd = none) :
    ((m.setFd fd (some f)).finc f).Idle := by
  refine ⟨h.ref, fun f' => ?_⟩
  have := count_setFd m fd (some f) f'
  rw [hf, if_neg (fun h => (nomatch h)), Nat.add_zero] at this
  rw [finc_fref]
  show m.fref f' + _ = ∑ fd', if (m.setFd fd (some f)).ofile fd' = some f' then 1 else 0
  rw [h.fref f', this]
  simp only [Option.some.injEq, eq_comm]

theorem remove (h : m.Idle) {fd : Fin NOFILE} {f : Fin M} (hf : m.ofile fd = some f) :
    ((m.setFd fd none).fdec f).Idle := by
  refine ⟨h.ref, fun f' => ?_⟩
  have := count_setFd m fd none f'
  simp only [hf, Option.some.injEq, reduceCtorEq, if_false, Nat.add_zero] at this
  rw [fdec_fref]
  show m.fref f' - _ = ∑ fd', if (m.setFd fd none).ofile fd' = some f' then 1 else 0
  rw [h.fref f']
  by_cases e : f' = f
  · rw [if_pos e]
    rw [if_pos e.symm] at this
    omega
  · rw [if_neg e]
    rw [if_neg fun h => e h.symm] at this
    omega

theorem chdir (h : m.Idle) {old ip : Fin K} (ho : m.cwd = some old) :
    ({ (m.inc ip).dec old with cwd := some ip } : Hands K M).Idle := by
  refine ⟨fun k => ?_, h.fref⟩
  show ((m.inc ip).dec old).ref k = if some ip = some k then 1 else 0
  rw [dec_ref, inc_ref, h.ref, ho]
  simp only [Option.some.injEq, eq_comm (b := k)]
  omega

end Hands.Idle

section
variable {P : Type} {K M : ℕ} {sb : FsSuper} {p q : P} {g g' h : Ghost P K M} {k dp : Fin K}
  {L : Logic (Fsys P K M) (FsLabel P) FsPanic (Ghost P K M)} {α : Type} {m : Hands K M}
  {held ok : Set (Fin K)} {f : Fin M} {w : Bool}
variable [Fintype P] [DecidableEq P]

/-- process `p` is between two calls -/
def Idle (sb : FsSuper) (p : P) (g : Ghost P K M) : Prop := ∃ m : Hands K M, m.Idle ∧ Calm sb p ∅ m g

/-- a logic for calls: if a directory may be opened for writing, nobody else acts -/
structure Crowd (sb : FsSuper) (p : P) (L : Logic (Fsys P K M) (FsLabel P) FsPanic (Ghost P K M)) :
    Prop extends Lax sb p L where
  opened : ∀ omode, L.labels (some (.opened p T_DIR omode)) → Writable omode = true → Alone L

theorem openFile_calm (cr : Crowd sb p L) (hok : sb.Ok) (omode : BitVec 32) {ip : Fin K} (hm : m.Idle)
    (hg : Calm sb p (insert ip ∅) (m.inc ip) g)
    (hdir : Alone L → Writable omode = true → (g.d ip).type ≠ T_DIR) :
    L.Gives g (openFile sb p ip omode) fun _ g' => Idle sb p g' := by
  have kit := cr.toKit
  have giveUp : ∀ {g'}, Calm sb p (insert ip ∅) (m.inc ip) g' → L.Gives g' (do
      iunlockput sb p ip
      return -1 : FsM P K M ℤ) fun _ g'' => Idle sb p g'' := fun hg' =>
    (giveLast_calm kit hok hg').bind fun _ g5 h5 => .pure ⟨m, hm, h5⟩
  have hpos : ∀ k ∈ insert ip (∅ : Set (Fin K)), 0 < (m.inc ip).ref k := by
    rintro k (rfl | h)
    · exact m.inc_pos k
    · exact h.elim
  refine (fields_gives kit (hg.clean ip (.inl rfl)).lock).bind fun d g1 e => ?_
  obtain ⟨rfl, rfl⟩ := e
  refine .ite (fun _ => giveUp hg) fun _ => ?_
  refine (filealloc_calm kit hg hpos).bind fun r g2 h2 => ?_
  obtain ⟨ht2, ⟨rfl, hg2⟩ | ⟨f, rfl, hg2, hf2⟩⟩ := h2
  · exact giveUp hg2
  dsimp only
  refine (fdalloc_calm kit hg2 f).bind fun r g3 h3 => ?_
  obtain ⟨ht3, hf3, ⟨rfl, hg3⟩ | ⟨fd, rfl, hnone, hg3⟩⟩ := h3
  · refine (fileclose_calm kit hok hg3 hpos ?_).bind fun _ g4 h4 => ?_
    · rw [Hands.finc_fref, if_pos rfl]
      omega
    · rw [Hands.finc_fdec] at h4
      exact giveUp h4.1
  dsimp only
  have hty : (g1.d ip).type = (g3.d ip).type := ((ht2.trans ht3) ip (.inl rfl)).symm
  have hip : 0 < (((m.inc ip).finc f).setFd fd (some f)).ref ip := m.inc_pos ip
  refine (setOpened_calm kit hg3 (.inl rfl) (hf3 hf2) hip hty fun hl hw e => ?_).bind fun _ g4 h4 => ?_
  · rw [e] at hl
    exact hdir (cr.opened omode hl hw) hw e
  have fin : ∀ {g'}, Calm sb p (insert ip ∅) ((((m.inc ip).finc f).setFd fd (some f)).dec ip) g' →
      L.Gives g' (do
        iunlock p ip
        return (fd.val : ℤ) : FsM P K M ℤ) fun _ g'' => Idle sb p g'' := fun hg' => by
    refine (iunlock_calm kit hg' fun h => h.elim).bind fun _ g6 h6 => .pure ⟨_, ?_, h6.1⟩
    have e : (((m.inc ip).finc f).setFd fd (some f)).dec ip = (m.setFd fd (some f)).finc f := by
      have e1 : ((m.inc ip).dec ip).ref = m.ref := by rw [m.inc_dec]
      ext1
      · exact e1
      all_goals rfl
    rw [e]
    exact hm.add hnone
  refine .ite (fun _ => ?_) fun _ => fin h4.1
  exact (itrunc_calm kit hok h4.1 (.inl rfl)).bind fun _ g5 h5 => fin h5.1

theorem sysOpen_idle (cr : Crowd sb p L) (hok : sb.Ok) (path : List Byte) (omode : BitVec 32)
    (hg : Idle sb p g) : L.Gives g (sysOpen sb p path omode) fun _ g' => Idle sb p g' := by
  have kit := cr.toKit
  obtain ⟨m, hm, hg⟩ := hg
  refine .ite (fun _ => ?_) fun _ => ?_
  · refine (create_calm cr.toLax hok path T_FILE 0 0 hg hm.cwd_pos).bind fun r g1 h1 => ?_
    rcases h1 with ⟨rfl, hg1⟩ | ⟨ip, rfl, hg1, hty⟩
    · exact .pure ⟨m, hm, hg1⟩
    · exact openFile_calm cr hok omode hm hg1 fun al _ => hty al rfl
  · refine (namei_calm cr.toLax hok path hg hm.cwd_pos).bind fun r g1 h1 => ?_
    rcases h1 with ⟨rfl, hg1⟩ | ⟨ip, rfl, hg1⟩
    · exact .pure ⟨m, hm, hg1⟩
    dsimp only
    refine (ilock_calm kit cr.noType hg1 (.inl (by rw [hg1.ref]; exact m.inc_pos ip))).bind
      fun _ g2 h2 => ?_
    obtain ⟨_, hg2, _⟩ := h2
    refine (fields_gives kit (hg2.clean ip (.inl rfl)).lock).bind fun d g3 e => ?_
    obtain ⟨rfl, rfl⟩ := e
    refine .ite (fun _ => ?_) fun hno => openFile_calm cr hok omode hm hg2 fun _ hw hty => ?_
    · exact (giveLast_calm kit hok hg2).bind fun _ g4 h4 => .pure ⟨m, hm, h4⟩
    · have e : omode = O_RDONLY := by
        by_contra hne
        exact hno ⟨hty, hne⟩
      rw [e] at hw
      exact absurd hw (by decide)

theorem sysMknodType_idle (cr : Crowd sb p L) (hok : sb.Ok) (path : List Byte)
    (type major minor : BitVec 16) (hg : Idle sb p g) :
    L.Gives g (sysMknodType sb p path type major minor) fun _ g' => Idle sb p g' := by
  obtain ⟨m, hm, hg⟩ := hg
  refine (create_calm cr.toLax hok path type major minor hg hm.cwd_pos).bind fun r g1 h1 => ?_
  rcases h1 with ⟨rfl, hg1⟩ | ⟨ip, rfl, hg1, _⟩
  · exact .pure ⟨m, hm, hg1⟩
  · exact (giveLast_calm cr.toKit hok hg1).bind fun _ g2 h2 => .pure ⟨m, hm, h2⟩

theorem sysChdir_idle (cr : Crowd sb p L) (hok : sb.Ok) (path : List Byte) (hg : Idle sb p g) :
    L.Gives g (sysChdir sb p path) fun _ g' => Idle sb p g' := by
  have kit := cr.toKit
  obtain ⟨m, hm, hg⟩ := hg
  refine (namei_calm cr.toLax hok path hg hm.cwd_pos).bind fun r g1 h1 => ?_
  rcases h1 with ⟨rfl, hg1⟩ | ⟨ip, rfl, hg1⟩
  · exact .pure ⟨m, hm, hg1⟩
  dsimp only
  refine (ilock_calm kit cr.noType hg1 (.inl (by rw [hg1.ref]; exact m.inc_pos ip))).bind
    fun _ g2 h2 => ?_
  obtain ⟨hk2, hg2, _⟩ := h2
  refine (fields_gives kit (hg2.clean ip (.inl rfl)).lock).bind fun d g3 e => ?_
  obtain ⟨rfl, rfl⟩ := e
  refine .ite (fun _ => ?_) fun _ => ?_
  · exact (giveLast_calm kit hok hg2).bind fun _ g4 h4 => .pure ⟨m, hm, h4⟩
  refine (iunlock_calm kit hg2 hk2).bind fun _ g4 h4 => ?_
  refine (getCwd_calm kit h4.1).bind fun old g5 h5 => ?_
  obtain ⟨ho, rfl⟩ := h5
  have ho : m.cwd = some old := ho
  refine (iput_calm kit hok h4.1 ?_ fun h => h.elim).bind fun _ g6 h6 => ?_
  · exact lt_of_lt_of_le (hm.cwd_pos old ho) (m.le_inc ip old)
  · exact (setCwd_calm kit h6.1 (some ip)).bind fun _ g7 h7 => .pure ⟨_, hm.chdir ho, h7⟩

theorem sysClose_idle (cr : Crowd sb p L) (hok : sb.Ok) (fd : Fin NOFILE) (hg : Idle sb p g) :
    L.Gives g (sysClose sb p fd) fun _ g' => Idle sb p g' := by
  have kit := cr.toKit
  obtain ⟨m, hm, hg⟩ := hg
  refine (argfd_calm kit hg fd).bind fun r g1 h1 => ?_
  obtain ⟨rfl, rfl⟩ := h1
  cases hf : m.ofile fd with
  | none => exact .pure ⟨m, hm, hg⟩
  | some f =>
    refine (clearFd_calm kit hg fd).bind fun _ g2 hg2 => ?_
    refine (fileclose_calm kit hok hg2 (fun _ h => h.elim) (hm.fd_pos hf)).bind fun _ g3 h3 => ?_
    exact .pure ⟨_, hm.remove hf, h3.1⟩

theorem sysDup_idle (cr : Crowd sb p L) (fd : Fin NOFILE) (hg : Idle sb p g) :
    L.Gives g (sysDup p fd) fun _ g' => Idle sb p g' := by
  have kit := cr.toKit
  obtain ⟨m, hm, hg⟩ := hg
  refine (argfd_calm kit hg fd).bind fun r g1 h1 => ?_
  obtain ⟨rfl, rfl⟩ := h1
  cases hf : m.ofile fd with
  | none => exact .pure ⟨m, hm, hg⟩
  | some f =>
    refine (fdalloc_calm kit hg f).bind fun r g2 h2 => ?_
    obtain ⟨_, _, ⟨rfl, hg2⟩ | ⟨fd', rfl, hnone, hg2⟩⟩ := h2
    · exact .pure ⟨m, hm, hg2⟩
    · refine (filedup_calm kit hg2 (fun _ h => h.elim) (hm.fd_pos hf)).bind fun _ g3 h3 => ?_
      exact .pure ⟨_, hm.add hnone, h3⟩

theorem readFile_gives (kit : Kit sb p L) (hp : 0 < (g.view p).fref f) :
    L.Gives g (Code.read fun s : Fsys P K M => s.file f) fun x g' => g' = g ∧
      x.type = (g.s.file f).type ∧ x.writable = (g.s.file f).writable := by
  refine (kit.read _).mono fun x g' h => ?_
  obtain ⟨rfl, h', hr, _, rfl⟩ := h
  obtain ⟨e1, _, _, e4, _⟩ := (kit.rely _ _ hr).file f hp
  exact ⟨rfl, e1, e4⟩

theorem sysWrite_idle (cr : Crowd sb p L) (hok : sb.Ok) (fd : Fin NOFILE) (src : ℕ → Option Byte)
    (n : CInt) (hg : Idle sb p g) : L.Gives g (sysWrite sb p fd src n) fun _ g' => Idle sb p g' := by
  have kit := cr.toKit
  obtain ⟨m, hm, hg⟩ := hg
  refine (argfd_calm kit hg fd).bind fun r g1 h1 => ?_
  obtain ⟨rfl, rfl⟩ := h1
  cases hf : m.ofile fd with
  | none => exact .pure ⟨m, hm, hg⟩
  | some f =>
    have hp : 0 < (g1.view p).fref f := by
      rw [hg.fref]
      exact hm.fd_pos hf
    refine (readFile_gives kit hp).bind fun x g2 h2 => ?_
    obtain ⟨rfl, e1, e2⟩ := h2
    refine .ite (fun _ => .pure ⟨m, hm, hg⟩) fun hw => ?_
    refine .ite (fun hty => ?_) fun _ => .pure ⟨m, hm, hg⟩
    refine (filewriteInode_calm cr.toLax hok src n hg hp ?_ ?_).mono fun _ g3 h3 => ⟨m, hm, h3⟩
    · rw [← e1, hty]
      exact fun h => (nomatch h)
    · rw [← e2]
      exact Bool.eq_true_of_not_eq_false hw

theorem sysRead_idle (cr : Crowd sb p L) (fd : Fin NOFILE) (dst : ℕ → Option Unit) (n : CInt)
    (hg : Idle sb p g) : L.Gives g (sysRead sb p fd dst n) fun _ g' => Idle sb p g' := by
  have kit := cr.toKit
  obtain ⟨m, hm, hg⟩ := hg
  refine (argfd_calm kit hg fd).bind fun r g1 h1 => ?_
  obtain ⟨rfl, rfl⟩ := h1
  cases hf : m.ofile fd with
  | none => exact .pure ⟨m, hm, hg⟩
  | some f =>
    have hp : 0 < (g1.view p).fref f := by
      rw [hg.fref]
      exact hm.fd_pos hf
    refine (readFile_gives kit hp).bind fun x g2 h2 => ?_
    obtain ⟨rfl, e1, e2⟩ := h2
    refine .ite (fun _ => .pure ⟨m, hm, hg⟩) fun _ => ?_
    refine .ite (fun hty => ?_) fun _ => .pure ⟨m, hm, hg⟩
    refine (filereadInode_calm cr.toLax dst n hg hp ?_).bind fun _ g3 h3 => .pure ⟨m, hm, h3⟩
    rw [← e1, hty]
    exact fun h => (nomatch h)

theorem Idle.log (hg : Idle sb p g) (o : ℕ) (l : List ℕ) : Idle sb p (g.log o l) := by
  obtain ⟨m, hm, hg⟩ := hg
  exact ⟨m, hm, hg.log o l⟩

/-- a call in a transaction -/
theorem inOp_idle (kit : Kit sb p L) {c : FsM P K M α} (hg : Idle sb p g)
    (hc : ∀ {g}, Idle sb p g → L.Gives g c fun _ g' => Idle sb p g') :
    L.Gives g (inOp c) fun _ g' => Idle sb p g' :=
  inOp_gives kit (fun _ _ o l h => h.log o l) fun o l => hc (hg.log o l)

/-- **every call gives back what it takes** -/
theorem FsCall.code_idle (cr : Crowd sb p L) (hok : sb.Ok) (c : FsCall) (hg : Idle sb p g) :
    L.Gives g (c.code sb p) fun _ g' => Idle sb p g' := by
  have kit := cr.toKit
  cases c with
  | link old new =>
    refine inOp_idle kit hg fun ⟨m, hm, hg⟩ => ?_
    exact (sysLink_calm cr.toLax hok old new hg hm.cwd_pos).mono fun _ g' h => ⟨m, hm, h⟩
  | unlink path =>
    refine inOp_idle kit hg fun ⟨m, hm, hg⟩ => ?_
    exact (sysUnlink_calm cr.toLax hok path hg hm.cwd_pos).mono fun _ g' h => ⟨m, hm, h⟩
  | openAt path omode => exact inOp_idle kit hg (sysOpen_idle cr hok path omode)
  | mkdir path => exact inOp_idle kit hg (sysMknodType_idle cr hok path _ _ _)
  | mknod path major minor => exact inOp_idle kit hg (sysMknodType_idle cr hok path _ _ _)
  | chdir path => exact inOp_idle kit hg (sysChdir_idle cr hok path)
  | close fd => exact sysClose_idle cr hok fd hg
  | dup fd => exact sysDup_idle cr fd hg
  | write fd src n => exact sysWrite_idle cr hok fd src n hg
  | read fd dst n => exact sysRead_idle cr fd dst n hg

theorem exitLoop_idle (cr : Crowd sb p L) (hok : sb.Ok) (fds : List (Fin NOFILE)) (hg : Idle sb p g) :
    L.Gives g (exitLoop sb p fds) fun _ g' => Idle sb p g' := by
  have kit := cr.toKit
  induction fds generalizing g with
  | nil => exact .pure hg
  | cons fd fds ih =>
    obtain ⟨m, hm, hg⟩ := hg
    refine (argfd_calm kit hg fd).bind fun r g1 h1 => ?_
    obtain ⟨rfl, rfl⟩ := h1
    cases hf : m.ofile fd with
    | none => exact ih ⟨m, hm, hg⟩
    | some f =>
      refine (fileclose_calm kit hok hg (fun _ h => h.elim) (hm.fd_pos hf)).bind fun _ g2 h2 => ?_
      exact (clearFd_calm kit h2.1 fd).bind fun _ g3 h3 => ih ⟨_, hm.remove hf, h3⟩

theorem exitFiles_idle (cr : Crowd sb p L) (hok : sb.Ok) (hg : Idle sb p g) :
    L.Gives g (exitFiles sb p) fun _ g' => Idle sb p g' := by
  have kit := cr.toKit
  refine (exitLoop_idle cr hok _ hg).bind fun _ g1 h1 => ?_
  obtain ⟨m, hm, hg1⟩ := h1
  refine Logic.Gives.bind (inOp_gives kit (R := fun _ g' => ∃ k, m.cwd = some k ∧ Calm sb p ∅ (m.dec k) g')
    (fun _ _ o l ⟨k, hk, h⟩ => ⟨k, hk, h.log o l⟩) fun o l => ?_) ?_
  · refine (getCwd_calm kit (hg1.log o l)).bind fun k g2 h2 => ?_
    obtain ⟨hk, rfl⟩ := h2
    exact (iput_calm kit hok (hg1.log o l) (hm.cwd_pos k hk) fun h => h.elim).mono fun _ _ h => ⟨k, hk, h.1⟩
  rintro _ g3 ⟨k, hk, hg3⟩
  have hidle : ({ m.dec k with cwd := none } : Hands K M).Idle := by
    refine ⟨fun l => ?_, hm.fref⟩
    show (m.dec k).ref l = if none = some l then 1 else 0
    rw [m.dec_ref, hm.ref, hk]
    simp only [Option.some.injEq, eq_comm (b := l), reduceCtorEq, if_false]
    omega
  exact (setCwd_calm kit hg3 none).mono fun _ g4 h4 => ⟨_, hidle, h4⟩

end
end Xv6.FileSys
