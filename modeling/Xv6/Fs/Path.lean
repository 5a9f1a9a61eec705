import Xv6.Fs.Map

/-!
# Paths

* `components`   the elements of a path;
* `elems_eq`   **iterating `skipelem` gives the components**;
* `resolve`   the lookups along a path, in the tree that is on the disk;
* `AtRest.namex`   the walk of `namex`, and why it panics;
* `path_resolution_iff`   **when `namei` and `nameiparent` follow the components, and leave no reference**.
-/

set_option linter.unusedSectionVars false

namespace Xv6.FileSys

/-! ## Components -/

/-- the elements of a path that are not empty, each cut to `DIRSIZ` bytes -/
def components (path : List Byte) : List (List Byte) :=
  ((path.splitOn slash).filter (· ≠ [])).map (·.take DIRSIZ)

theorem components_slash (path : List Byte) : components (slash :: path) = components path := by
  unfold components List.splitOn
  rw [List.splitOnP_cons_eq_if_modifyHead, if_pos (by decide), List.filter_cons_of_neg (by decide)]

theorem components_dropWhile (path : List Byte) :
    components (path.dropWhile (· == slash)) = components path := by
  induction path with
  | nil => rfl
  | cons c t ih =>
    by_cases hc : c = slash
    · rw [List.dropWhile_cons_of_pos (by simpa using hc), hc, components_slash]
      exact ih
    · rw [List.dropWhile_cons_of_neg (by simpa using hc)]

theorem components_elem {c : Byte} (hc : c ≠ slash) (t : List Byte) :
    components (c :: t) = ((c :: t).takeWhile (· != slash)).take DIRSIZ ::
      components ((c :: t).dropWhile (· != slash)) := by
  have hno : ∀ x ∈ (c :: t).takeWhile (· != slash), (x == slash) = false := fun x hx => by
    have := List.all_takeWhile (l := c :: t) (p := (· != slash))
    simpa using List.all_eq_true.1 this x hx
  have hne : (c :: t).takeWhile (· != slash) ≠ [] := by
    rw [List.takeWhile_cons_of_pos (by simpa using hc)]
    exact List.cons_ne_nil _ _
  have hsep := List.head?_dropWhile_not (· != slash) (c :: t)
  have happ := (List.takeWhile_append_dropWhile (p := (· != slash)) (l := c :: t)).symm
  generalize (c :: t).takeWhile (· != slash) = e at hno hne happ ⊢
  generalize (c :: t).dropWhile (· != slash) = r at happ hsep ⊢
  rw [happ]
  cases r with
  | nil =>
    unfold components List.splitOn
    rw [List.append_nil, List.splitOnP_eq_singleton hno, List.filter_cons_of_pos (by simpa using hne)]
    rfl
  | cons d u =>
    have hd : d = slash := by simpa using hsep
    rw [hd, components_slash]
    unfold components List.splitOn
    rw [List.splitOnP_append_cons_of_forall_mem hno slash (by decide),
      List.filter_cons_of_pos (by simpa using hne), List.map_cons]

theorem components_skipelem (path : List Byte) :
    components path = match skipelem path with
      | none => []
      | some (name, rest) => name :: components rest := by
  rw [← components_dropWhile path]
  unfold skipelem
  cases hp : path.dropWhile (· == slash) with
  | nil => rfl
  | cons c t =>
    have hc : c ≠ slash := fun h => by
      have := List.head?_dropWhile_not (· == slash) path
      rw [hp] at this
      simp [h] at this
    dsimp only
    rw [if_neg (List.cons_ne_nil c t), components_elem hc]
    dsimp only
    rw [components_dropWhile]

theorem components_rest {path name rest : List Byte} (h : skipelem path = some (name, rest)) :
    components rest = [] ↔ rest = [] := by
  refine ⟨fun h0 => ?_, fun h0 => by rw [h0]; rfl⟩
  have hd : ∃ l : List Byte, rest = l.dropWhile (· == slash) := by
    unfold skipelem at h
    dsimp only at h
    split at h
    · cases h
    · exact ⟨_, (Prod.mk.inj (Option.some.inj h)).2.symm⟩
  obtain ⟨l, rfl⟩ := hd
  rw [components_skipelem] at h0
  unfold skipelem at h0
  by_contra hne
  rw [List.dropWhile_idempotent, if_neg hne] at h0
  cases h0

section
variable (sb : FsSuper) (blk : ℕ → Block)

/-- what directory `i` has under a name -/
def look (i : ℕ) (name : List Byte) : Option ℕ := (sb.dinode blk i).dict blk (nameKey (cstr name))

/-- the lookups along components, from inode `i` on -/
def resolve : ℕ → List (List Byte) → Option ℕ
  | i, [] => some i
  | i, x :: xs =>
    if (sb.dinode blk i).type = T_DIR then (look sb blk i x).bind fun j => resolve j xs else none

/-- all but the last component are looked up; that must give a directory -/
def resolveParent (i : ℕ) (xs : List (List Byte)) : Option (ℕ × List Byte) :=
  xs.getLast?.bind fun x => (resolve sb blk i xs.dropLast).bind fun j =>
    if (sb.dinode blk j).type = T_DIR then some (j, x) else none

theorem resolveParent_cons (i : ℕ) (x : List Byte) {xs : List (List Byte)} (hxs : xs ≠ []) :
    resolveParent sb blk i (x :: xs) =
      if (sb.dinode blk i).type = T_DIR then (look sb blk i x).bind fun j => resolveParent sb blk j xs
      else none := by
  obtain ⟨y, ys, rfl⟩ := List.exists_cons_of_ne_nil hxs
  unfold resolveParent
  rw [List.getLast?_cons_cons, List.dropLast_cons_cons, resolve]
  split
  · cases look sb blk i x with
    | none => cases (y :: ys).getLast? <;> rfl
    | some j => rfl
  · cases (y :: ys).getLast? <;> rfl

/-- what `namex` is after: the inode, and the last name taken -/
def resolveNamed (parent : Bool) (i : ℕ) (name : List Byte) (xs : List (List Byte)) :
    Option (ℕ × List Byte) :=
  if parent then resolveParent sb blk i xs
  else (resolve sb blk i xs).map fun j => (j, xs.getLast?.getD name)

theorem resolveNamed_cons (parent : Bool) (i : ℕ) (name x : List Byte) (xs : List (List Byte)) :
    resolveNamed sb blk parent i name (x :: xs) =
      if (sb.dinode blk i).type = T_DIR then
        if parent ∧ xs = [] then some (i, x)
        else (look sb blk i x).bind fun j => resolveNamed sb blk parent j x xs
      else none := by
  unfold resolveNamed
  cases parent with
  | true =>
    by_cases hxs : xs = []
    · rw [hxs]
      rfl
    · have hno : ¬ (true = true ∧ xs = []) := fun h => hxs h.2
      rw [if_pos rfl, resolveParent_cons sb blk i x hxs, if_neg hno]
      rfl
  | false =>
    have hno : ¬ (false = true ∧ xs = []) := fun h => Bool.false_ne_true h.1
    rw [if_neg Bool.false_ne_true, resolve, List.getLast?_cons, if_neg hno]
    split
    · cases look sb blk i x <;> rfl
    · rfl

end

/-- inode `j` has the same fields and bytes -/
def SameNode (sb : FsSuper) (blk blk' : ℕ → Block) (j : ℕ) : Prop :=
  sb.dinode blk' j = sb.dinode blk j ∧ ∀ o < (sb.dinode blk j).size.toNat,
    (sb.dinode blk' j).content blk' o = (sb.dinode blk j).content blk o

theorem SameNode.refl (sb : FsSuper) (blk : ℕ → Block) (j : ℕ) : SameNode sb blk blk j :=
  ⟨rfl, fun _ _ => rfl⟩

theorem SameNode.trans {sb : FsSuper} {blk blk' blk'' : ℕ → Block} {j : ℕ} (h : SameNode sb blk blk' j)
    (h' : SameNode sb blk' blk'' j) : SameNode sb blk blk'' j :=
  ⟨h'.1.trans h.1, fun o ho => (h'.2 o (by rw [h.1]; exact ho)).trans (h.2 o ho)⟩

theorem SameNode.dict {sb : FsSuper} {blk blk' : ℕ → Block} {j : ℕ} (h : SameNode sb blk blk' j) :
    (sb.dinode blk' j).dict blk' = (sb.dinode blk j).dict blk := by
  unfold Dinode.dict
  rw [show (sb.dinode blk' j).entries = (sb.dinode blk j).entries by rw [h.1]]
  refine Slots.get_of_eq fun n hn => congrArg (fun x => (Dirent.load x).binding) ?_
  refine List.map_congr_left fun i hi => h.2 _ ?_
  have := List.mem_range.1 hi
  unfold Dinode.entries at hn
  omega

/-- the inodes that are allocated are as they were -/
def Older (sb : FsSuper) (blk blk' : ℕ → Block) : Prop :=
  ∀ j < sb.ninodes, (sb.dinode blk' j).type ≠ 0 → SameNode sb blk blk' j

theorem Older.refl (sb : FsSuper) (blk : ℕ → Block) : Older sb blk blk := fun j _ _ => .refl sb blk j

theorem Older.trans {sb : FsSuper} {blk blk' blk'' : ℕ → Block} (h : Older sb blk blk')
    (h' : Older sb blk' blk'') : Older sb blk blk'' := fun j hj ht => by
  have h2 := h' j hj ht
  exact (h j hj (by rw [← h2.1]; exact ht)).trans h2

section
variable {P : Type} [DecidableEq P] [Fintype P] {K M : ℕ} {sb : FsSuper} {p : P} {k : Fin K}
  {g g' : Ghost P K M}

/-! ## `iput`, when nothing is locked -/

/-- a reference to the inode in entry `k` is given back, and the inode is freed if it was the last one -/
structure Dropped (sb : FsSuper) (p : P) (k : Fin K) (g g' : Ghost P K M) : Prop where
  inv : Inv sb g'
  lock : ∀ l, g'.s.lock l = none
  hands : g'.hands p = (g.hands p).dec k
  ref : ∀ l, (g'.s.inode l).ref = (g.s.inode l).ref - if l = k then 1 else 0
  inum : ∀ l, g'.inum l = g.inum l
  file : g'.s.file = g.s.file
  kept : ¬ Last g k → g'.s.blk = g.s.blk
  gone : Last g k → (sb.dinode g'.s.blk (g.inum k)).type = 0
  others : ∀ j < sb.ninodes, j ≠ g.inum k → SameNode sb g.s.blk g'.s.blk j

theorem Dropped.older (h : Dropped sb p k g g') : Older sb g.s.blk g'.s.blk := fun j hj ht => by
  by_cases hjk : j = g.inum k
  · by_cases hl : Last g k
    · exact absurd (hjk ▸ h.gone hl) ht
    · rw [h.kept hl]
      exact .refl ..
  · exact h.others j hj hjk

theorem put_ref (g : Ghost P K M) (k l : Fin K) :
    ((g.put p k).s.inode l).ref = (g.s.inode l).ref - if l = k then 1 else 0 := by
  unfold Ghost.put
  by_cases h : l = k
  · rw [if_pos h, h, tab_self]
  · rw [if_neg h, tab_ne _ _ _ h]
    rfl

theorem put_hands (g : Ghost P K M) (k : Fin K) : (g.put p k).hands p = (g.hands p).dec k := by
  unfold Ghost.hands Hands.dec Ghost.put
  rw [tab_view]
  rfl

theorem put_inum (g : Ghost P K M) (k l : Fin K) : (g.put p k).inum l = g.inum l := by
  rw [Ghost.inum, put_counted g l]

theorem Freed.dropped (hok : sb.Ok) (hi : Inv sb g) (hno : ∀ l, g.s.lock l = none)
    (hp : 0 < (g.view p).ref k) (hlast : Last g k) (hi' : Inv sb g')
    (hf : Freed sb (alone sb p) p k (g.setLock k (some p)) g') : Dropped sb p k g g' := by
  obtain ⟨g2, lg, h3, h4, h5, he, rfl, hi3, rfl, hi4, rfl, hi5, rfl⟩ := hf
  have hg0 := take_step hi (.inl hp)
  have hlt : (g.setLock k (some p)).inum k < sb.ninodes := (hi.table.inum k (hi.table.ref_pos (.inl hp))).2
  have hloc := he.loc.trans (sync_local (L := alone sb p) hok (he.has hlt) { g2.d k with type := 0 } lg)
  have hlock : ∀ l ≠ k, (g.setLock k (some p)).s.lock l = none := fun l hl => (setLock_ne g _ hl).trans (hno l)
  have hdisk := @sync_disk _ _ _ sb k _ g2 { g2.d k with type := 0 } lg
  rw [he.loc.inum k] at hdisk
  generalize g2.sync sb k { g2.d k with type := 0 } lg = g3 at hloc hdisk hi' ⊢
  refine ⟨hi', fun l => ?_, ?_, fun l => ?_, fun l => ?_, hloc.file, fun h => absurd hlast h,
    fun _ => ?_, fun j hj hne => ?_⟩
  · by_cases hl : l = k
    · rw [hl]
      exact setLock_self ..
    · exact (setLock_ne (g3.unload p k) none hl).trans (by
        show g3.s.lock l = none
        rw [hloc.lock]
        exact hlock l hl)
  · rw [put_hands]
    congr 1
    unfold Ghost.hands
    rw [show ((g3.unload p k).setLock k none).view p = g.view p by
      show (g3.unload p k).view p = _
      unfold Ghost.unload
      rw [tab_view, hloc.view]
      rfl]
    show (⟨(g.view p).ref, (g.view p).fref, g3.s.cwd p, g3.s.ofile p⟩ : Hands K M) = _
    rw [hloc.cwd, hloc.ofile]
    rfl
  · rw [put_ref]
    congr 1
    show ((g3.unload p k).s.inode l).ref = _
    by_cases hl : l = k
    · rw [hl, Ghost.unload, tab_self]
      exact hloc.ref k
    · rw [unload_ne _ hl]
      exact hloc.ref l
  · rw [put_inum]
    show (g3.unload p k).inum l = _
    rw [unload_inum]
    exact hloc.inum l
  · exact congrArg Dinode.type hdisk
  · have hbusy : ¬ Busy (g.setLock k (some p)) j := by
      rintro ⟨l, _, h2, h3, _⟩
      by_cases hl : l = k
      · exact hne (h2.symm.trans (congrArg (fun x => (g.s.inode x).inum) hl))
      · exact h3 (hlock l hl)
    exact (hloc.othersKept hg0).2 j hj hne hbusy

/-- code that waits for nothing, in which only excluded panics occur and that of the log -/
abbrev Steady {α : Type} (c : FsM P K M α) : Prop := c.Quiet fun m => Excluded m ∨ m = .logTooBig

theorem logWrite_steady (sb : FsSuper) {α : Type} {x : Fsys P K M → Reply FsPanic (α × Fsys P K M)}
    {l : Option (FsLabel P)} (h : ∀ s, (∃ b y a, x s = s.logWrite sb b y a) ∨ ∃ m, x s = .panic m ∧ Excluded m) :
    Steady (Code.act l x .done : FsM P K M α) := by
  refine ⟨fun s => ?_, fun _ => trivial⟩
  obtain ⟨b, y, a, e⟩ | ⟨m, e, hm⟩ := h s
  · rw [e]
    by_cases hf : s.LogFull sb
    · rw [Fsys.logWrite, if_pos hf]
      exact .inr rfl
    · rw [Fsys.logWrite, if_neg hf]
      trivial
  · rw [e]
    exact .inl hm

theorem iupdate_steady (sb : FsSuper) (k : Fin K) : Steady (iupdate sb k : FsM P K M Unit) :=
  logWrite_steady sb fun _ => .inl ⟨_, _, _, rfl⟩

theorem bfree_steady (sb : FsSuper) (b : ℕ) : Steady (bfree sb b : FsM P K M Unit) :=
  logWrite_steady sb fun s => by
    dsimp only
    split
    · exact .inl ⟨_, _, _, rfl⟩
    · exact .inr ⟨_, rfl, by unfold Excluded Tolerated; decide⟩

theorem itruncDirect_steady (sb : FsSuper) (k : Fin K) (n i : ℕ) :
    Steady (itruncDirect sb k n i : FsM P K M Unit) := by
  induction n generalizing i with
  | zero => exact .pure ()
  | succ n ih =>
    refine .bind (.read _) fun d => ?_
    split
    · exact .bind (bfree_steady sb _) fun _ => .bind (.modify _) fun _ => ih _
    · exact ih _

theorem itruncIndirect_steady (sb : FsSuper) (b n j : ℕ) :
    Steady (itruncIndirect sb b n j : FsM P K M Unit) := by
  induction n generalizing j with
  | zero => exact .pure ()
  | succ n ih =>
    refine .bind (.read _) fun a => ?_
    split
    · exact .bind (bfree_steady sb _) fun _ => ih _
    · exact ih _

theorem itrunc_steady (sb : FsSuper) (k : Fin K) : Steady (itrunc sb k : FsM P K M Unit) := by
  refine .bind (itruncDirect_steady sb k _ _) fun _ => .bind (.read _) fun d => ?_
  split
  · exact .bind (itruncIndirect_steady sb _ _ _) fun _ => .bind (bfree_steady sb _) fun _ =>
      .bind (.modify _) fun _ => .bind (.modify _) fun _ => iupdate_steady sb k
  · exact .bind (.modify _) fun _ => iupdate_steady sb k

/-- `iput` alone: its only panic is that of the log, when the inode is freed -/
theorem Inv.iput (hok : sb.Ok) (hi : Inv sb g) (hno : ∀ l, g.s.lock l = none)
    (hp : 0 < (g.view p).ref k) :
    (iput sb p k).Outcome g.s (fun _ s' => ∃ g', g'.s = s' ∧ Dropped sb p k g g')
      fun e => e = .logTooBig ∧ Last g k := by
  have hnone : ∀ l, g.s.lock l ≠ some p := fun l => by
    rw [hno l]
    exact fun h => (nomatch h)
  have ends : (FileSys.iput sb p k).Outcome g.s (fun _ _ => True)
      fun e => (Excluded e ∨ e = .logTooBig) ∧ Last g k := by
    by_cases hl : Last g k
    · refine .bind (Q := fun _ _ => True) (.of_yields (.act
        (r := (true, g.s.setLock k (some p))) ?_ trivial)) fun r s _ => ?_
      · exact (if_pos hl).trans (if_pos (hno k))
      · have hq : Steady (if r = true then (do
            itrunc sb k
            setFields k fun d => { d with type := 0 }
            iupdate sb k
            Code.modify fun s => s.setInode k { s.inode k with valid := false }
            Code.modify fun s => s.setLock k none
            Code.modify fun s => s.setInode k { s.inode k with ref := (s.inode k).ref - 1 }) else pure () :
              FsM P K M Unit) := by
          refine .ite (.bind (itrunc_steady sb k) fun _ => ?_) (.pure ())
          exact .bind (.modify _) fun _ => .bind (iupdate_steady sb k) fun _ => .bind (.modify _) fun _ =>
            .bind (.modify _) fun _ => .modify _
        exact (hq.outcome s).mono (fun _ _ h => h) fun _ h => ⟨h, hl⟩
    · refine .bind (Q := fun r _ => r = false) (.of_yields (.act (r := (false,
        g.s.setInode k { g.s.inode k with ref := (g.s.inode k).ref - 1 })) (if_neg hl) rfl)) ?_
      rintro _ s rfl
      exact .pure trivial
  refine (hi.outcome (iput_gives (alone_crowd sb p).toKit hok hp fun h => absurd h (hnone k)) ends).mono ?_
    fun e h => ⟨h.1.1.resolve_left h.2, h.1.2⟩
  rintro _ _ ⟨g', rfl, hi', -, h, rfl, -, ⟨hlast, rfl⟩ | ⟨hlast, -, hf⟩⟩
  · exact ⟨_, rfl, hi', hno, put_hands .., put_ref _ k, put_inum _ k, rfl, fun _ => rfl,
      fun h => absurd h hlast, fun j _ _ => .refl ..⟩
  · exact ⟨g', rfl, hf.dropped hok hi hno hp hlast hi'⟩

/-! ## Walking through the tree -/

/-- there are references to inode `j` -/
def InUse (s : Fsys P K M) (j : ℕ) : Prop := ∃ k, 0 < (s.inode k).ref ∧ (s.inode k).inum = j

/-- inode `j` is allocated, and it has links or is in use -/
def Lasting (sb : FsSuper) (s : Fsys P K M) (j : ℕ) : Prop :=
  (sb.dinode s.blk j).type ≠ 0 ∧ ((sb.dinode s.blk j).nlink ≠ 0 ∨ InUse s j)

/-- every inode that is allocated has links or is in use -/
def NoOrphans (sb : FsSuper) (s : Fsys P K M) : Prop :=
  ∀ j < sb.ninodes, (sb.dinode s.blk j).type ≠ 0 → Lasting sb s j

/-- the root, the current directories and what is named in a directory are allocated, and have links or
are in use -/
structure Sound (sb : FsSuper) (s : Fsys P K M) : Prop where
  root : Lasting sb s ROOTINO
  cwd : ∀ q k, s.cwd q = some k → Lasting sb s (s.inode k).inum
  names : ∀ i < sb.ninodes, (sb.dinode s.blk i).type = T_DIR → ∀ x j,
    (sb.dinode s.blk i).dict s.blk x = some j → Lasting sb s j

/-- on the way from state `s0`, with the references `m` instead of `m0`, and the inode `held` locked -/
structure Walk (sb : FsSuper) (p : P) (s0 : Fsys P K M) (m0 : Hands K M) (held : Option (Fin K))
    (m : Hands K M) (g : Ghost P K M) : Prop where
  inv : Inv sb g
  lock : ∀ l, g.s.lock l = if held = some l then some p else none
  hands : g.hands p = m
  le : ∀ l, m0.ref l ≤ m.ref l
  ref : ∀ l, (g.s.inode l).ref + m0.ref l = (s0.inode l).ref + m.ref l
  inum : ∀ l, 0 < (s0.inode l).ref → g.inum l = (s0.inode l).inum
  file : g.s.file = s0.file
  older : Older sb s0.blk g.s.blk
  same : Sound sb s0 ∨ NoOrphans sb s0 → g.s.blk = s0.blk

namespace Walk
variable {s0 : Fsys P K M} {m0 m : Hands K M} {held : Option (Fin K)}

theorem view (hw : Walk sb p s0 m0 held m g) : (g.view p).ref = m.ref := congrArg Hands.ref hw.hands

theorem ref_pos (hw : Walk sb p s0 m0 held m g) {l : Fin K} (h : 0 < (s0.inode l).ref) :
    0 < (g.s.inode l).ref := by
  have h1 := hw.le l
  have h2 := hw.ref l
  omega

theorem unlocked (hw : Walk sb p s0 m0 none m g) (l : Fin K) : g.s.lock l = none :=
  (hw.lock l).trans (if_neg fun h => (nomatch h))

theorem got (hw : Walk sb p s0 m0 held m g) {i : ℕ} (hf : Fits g k i) (hi : Inv sb (g.got p k i)) :
    Walk sb p s0 m0 held (m.inc k) (g.got p k i) := by
  refine ⟨hi, hw.lock, ?_, fun l => (hw.le l).trans (m.le_inc k l), fun l => ?_, fun l hl => ?_, hw.file,
    hw.older, hw.same⟩
  · rw [← hw.hands]
    unfold Ghost.hands Hands.inc Ghost.got
    rw [tab_view]
    rfl
  · have := hw.ref l
    rw [m.inc_ref]
    unfold Ghost.got
    by_cases h : l = k
    · rw [h, tab_self, if_pos rfl]
      show (g.s.inode k).ref + 1 + _ = _
      rw [h] at this
      omega
    · rw [tab_ne _ _ _ h, if_neg h]
      exact this
  · rw [Ghost.inum, got_counted hw.inv hf (hw.ref_pos hl)]
    exact hw.inum l hl

theorem load (hw : Walk sb p s0 m0 none m g)
    (hi : Inv sb ((g.setLock k (some p)).load sb k)) :
    Walk sb p s0 m0 (some k) m ((g.setLock k (some p)).load sb k) := by
  refine ⟨hi, fun l => ?_, hw.hands, hw.le, fun l => ?_, fun l hl => ?_, hw.file, hw.older, hw.same⟩
  · by_cases h : l = k
    · rw [h, if_pos rfl]
      exact setLock_self ..
    · rw [if_neg fun e => h (Option.some.inj e).symm]
      exact (setLock_ne g _ h).trans (hw.unlocked l)
  · by_cases h : l = k
    · rw [h]
      show (Function.update g.s.inode k _ k).ref + _ = _
      rw [Function.update_self]
      exact hw.ref k
    · rw [load_ne _ h]
      exact hw.ref l
  · rw [load_inum]
    exact hw.inum l hl

theorem unlock (hw : Walk sb p s0 m0 (some k) m g) (hi : Inv sb (g.setLock k none)) :
    Walk sb p s0 m0 none m (g.setLock k none) := by
  refine ⟨hi, fun l => ?_, hw.hands, hw.le, hw.ref, hw.inum, hw.file, hw.older, hw.same⟩
  rw [if_neg fun e => (nomatch e)]
  by_cases h : l = k
  · rw [h]
    exact setLock_self ..
  · refine (setLock_ne g _ h).trans ((hw.lock l).trans (if_neg ?_))
    exact fun e => h (Option.some.inj e).symm

/-- if every inode has links or is in use, the walk frees none -/
theorem notLast (hw : Walk sb p s0 m0 none m g) (hlt : m0.ref k < m.ref k) (hn : NoOrphans sb s0) :
    ¬ Last g k := by
  rintro ⟨h1, h2, h3⟩
  have href := hw.ref k
  have hmem := hw.inv.agree.mem k (by omega) (hw.unlocked k) h2
  rw [hw.same (.inr hn)] at hmem
  have hlast := hn _ (hw.inv.table.inum k (by omega)).2 (by rw [← hmem.1]; exact hmem.2)
  rcases hlast.2 with h | ⟨l, hl, e⟩
  · exact h (hmem.1 ▸ h3)
  · have := hw.inv.table.uniq l k (hw.ref_pos hl) (by omega) ((hw.inum l hl).trans e)
    subst this
    omega

theorem drop (hw : Walk sb p s0 m0 none m g) (hlt : m0.ref k < m.ref k) (hd : Dropped sb p k g g')
    (hfine : Sound sb s0 → ¬ Last g k) : Walk sb p s0 m0 none (m.dec k) g' := by
  refine ⟨hd.inv, fun l => (hd.lock l).trans (if_neg fun e => (nomatch e)).symm, by rw [hd.hands, hw.hands],
    fun l => ?_, fun l => ?_, fun l hl => ?_, hd.file.trans hw.file, hw.older.trans hd.older, fun hs => ?_⟩
  · rw [m.dec_ref]
    have := hw.le l
    split
    · subst l
      omega
    · omega
  · rw [hd.ref, m.dec_ref]
    have h1 := hw.ref l
    have h2 := hw.le l
    split
    · subst l
      omega
    · omega
  · rw [hd.inum]
    exact hw.inum l hl
  · rw [hd.kept (hs.elim hfine (hw.notLast hlt)), hw.same hs]

/-- an inode is freed on the way, and the log has no room for it -/
def Bursts (sb : FsSuper) (s0 : Fsys P K M) (e : FsPanic) : Prop :=
  e = .logTooBig ∧ ¬ Sound sb s0 ∧ ¬ NoOrphans sb s0

/-- why a walk cannot go on: at most one entry of the inode table is free, or the names are not sound -/
def Stuck (sb : FsSuper) (s0 : Fsys P K M) (e : FsPanic) : Prop :=
  e = .igetNoInodes ∧ (∀ k l, (s0.inode k).ref = 0 → (s0.inode l).ref = 0 → k = l) ∨
    e = .ilockNoType ∧ ¬ Sound sb s0 ∨ Bursts sb s0 e

/-- it cannot go on, and that is so because `X` fails -/
def Fails (sb : FsSuper) (s0 : Fsys P K M) (X : Prop) (e : FsPanic) : Prop :=
  Stuck sb s0 e ∧ (NoOrphans sb s0 → ¬ X)

theorem Bursts.fails {X : Prop} {e : FsPanic} (h : Bursts sb s0 e) : Fails sb s0 X e :=
  ⟨.inr (.inr h), fun hn => absurd hn h.2.2⟩

theorem ilock (hw : Walk sb p s0 m0 none m g) (hp : 0 < m.ref k)
    (hfine : Sound sb s0 → (sb.dinode s0.blk (g.inum k)).type ≠ 0) :
    (ilock sb p k).Outcome g.s (fun _ s' => ∃ g', g'.s = s' ∧ Walk sb p s0 m0 (some k) m g' ∧
      Clean sb p k g' ∧ g'.inum k = g.inum k)
      (Fails sb s0 ((sb.dinode s0.blk (g.inum k)).type ≠ 0)) := by
  have hpin : Pinned p g k := .inl (by rw [hw.view]; exact hp)
  have hpos := hw.inv.table.ref_pos hpin
  have ends : (FileSys.ilock sb p k).Outcome g.s (fun _ _ => True) fun e =>
      e = .ilockNoType ∧ (sb.dinode g.s.blk (g.inum k)).type = 0 := by
    refine .bind (Q := fun _ s' => s' = g.s.setLock k (some p)) (.of_yields (.act (r := ((), _)) ?_ rfl)) ?_
    · rw [if_neg (by omega), if_pos (hw.unlocked k)]
      rfl
    rintro _ _ rfl
    refine .bind (Q := fun b _ => b = false → (sb.dinode g.s.blk (g.inum k)).type = 0)
      (.of_yields ?_) fun b s' hb => ?_
    · by_cases hv : (g.s.inode k).valid = true
      · exact .act (r := (true, _)) (if_pos hv) fun h => (nomatch h)
      · exact .act (r := (decide ((sb.dinode g.s.blk (g.inum k)).type ≠ 0), _)) (if_neg hv) fun h => by
          simpa using h
    · cases b with
      | true => exact .pure trivial
      | false => exact .act ⟨rfl, hb rfl⟩
  refine (hw.inv.outcome (ilock_gives (alone_crowd sb p).toKit hpin fun _ _ _ _ => .inr (.inl rfl)) ends).mono
    (fun _ _ h => ?_) fun e h => ⟨.inr (.inl ⟨h.1.1, fun hs => hfine hs ?_⟩), fun hn => not_not.2 ?_⟩
  rotate_left
  · rw [← hw.same (.inl hs)]
    exact h.1.2
  · rw [← hw.same (.inr hn)]
    exact h.1.2
  obtain ⟨g', rfl, hi', h, rfl, -, -, rfl, hc, -⟩ := h
  exact ⟨_, rfl, hw.load hi', hc, load_inum _ k⟩

theorem iunlock (hw : Walk sb p s0 m0 (some k) m g) (hc : Clean sb p k g) :
    (iunlock p k).Yields g.s fun _ s' => ∃ g', g'.s = s' ∧ Walk sb p s0 m0 none m g' ∧
      g' = g.setLock k none := by
  have hpos := hw.inv.table.locked_ref hc.lock
  have ends : (FileSys.iunlock p k).Outcome g.s (fun _ _ => True) Excluded := by
    refine .of_yields (.act (r := ((), _)) (if_neg ?_) trivial)
    rw [hc.lock, not_or]
    exact ⟨not_not.2 rfl, by omega⟩
  refine ((hw.inv.outcome (iunlock_gives (alone_crowd sb p).toKit hc) ends).mono (fun _ _ h => h)
    fun _ h => absurd h.1 h.2).yields.mono ?_
  rintro _ _ ⟨g', rfl, hi', rfl⟩
  exact ⟨_, rfl, hw.unlock hi', rfl⟩

theorem iput (hok : sb.Ok) (hw : Walk sb p s0 m0 none m g) (hlt : m0.ref k < m.ref k)
    (hfine : Sound sb s0 → ¬ Last g k) :
    (iput sb p k).Outcome g.s (fun _ s' => ∃ g', g'.s = s' ∧ Walk sb p s0 m0 none (m.dec k) g' ∧
      g'.inum = g.inum) (Bursts sb s0) := by
  refine (hw.inv.iput hok hw.unlocked (by rw [hw.view]; omega)).mono ?_
    fun e h => ⟨h.1, fun hs => hfine hs h.2, fun hn => hw.notLast hlt hn h.2⟩
  rintro _ _ ⟨g', rfl, hd⟩
  exact ⟨g', rfl, hw.drop hlt hd hfine, funext hd.inum⟩

/-- what may be said of the inode that the walk is at -/
structure Fine (sb : FsSuper) (s0 : Fsys P K M) (k : Fin K) (g : Ghost P K M) : Prop where
  type : (sb.dinode s0.blk (g.inum k)).type ≠ 0
  links : (sb.dinode s0.blk (g.inum k)).nlink ≠ 0 ∨ 0 < (s0.inode k).ref

theorem fine_of_lasting (hw : Walk sb p s0 m0 held m g) (hpos : 0 < (g.s.inode k).ref)
    (h : Lasting sb s0 (g.inum k)) : Fine sb s0 k g := by
  refine ⟨h.1, h.2.imp_right fun ⟨l, hl, e⟩ => ?_⟩
  have := hw.inv.table.uniq l k (hw.ref_pos hl) hpos ((hw.inum l hl).trans e)
  rwa [← this]

theorem Fine.notLast (hw : Walk sb p s0 m0 none m g) (hs : Sound sb s0) (hlt : m0.ref k < m.ref k)
    (hf : Fine sb s0 k g) : ¬ Last g k := by
  rintro ⟨h1, h2, h3⟩
  have href := hw.ref k
  rcases hf.links with hn | hpos
  · have hmem := (hw.inv.agree.mem k (by omega) (hw.unlocked k) h2).1
    refine hn ?_
    rw [← hw.same (.inl hs)]
    exact (congrArg Dinode.nlink hmem).symm.trans h3
  · omega

theorem tree (hw : Walk sb p s0 m0 held m g) (hc : Clean sb p k g) :
    (g.d k).type = (sb.dinode s0.blk (g.inum k)).type ∧
      g.dict k = (sb.dinode s0.blk (g.inum k)).dict s0.blk := by
  have hd : g.d k = sb.dinode g.s.blk (g.inum k) := hc.disk
  have hs := hw.older (g.inum k) hc.node.lt (by rw [← hd]; exact hc.type)
  refine ⟨?_, ?_⟩
  · rw [hd, hs.1]
  · rw [Ghost.dict, hd]
    exact hs.dict

/-- from inode `i`, which is locked, there is an entry of the inode table for inode `j` -/
def Room (s : Fsys P K M) (i j : ℕ) : Prop :=
  InUse s j ∨ j = i ∨ ∃ a, (s.inode a).ref = 0 ∧ (InUse s i ∨ ∃ b, b ≠ a ∧ (s.inode b).ref = 0)

theorem ref_inc (hw : Walk sb p s0 m0 held (m0.inc k) g) (l : Fin K) :
    (g.s.inode l).ref = (s0.inode l).ref + if l = k then 1 else 0 := by
  have := hw.ref l
  rw [Hands.inc_ref] at this
  omega

/-- the inode that the walk is at is in use if there were references before -/
theorem inUse_iff (hw : Walk sb p s0 m0 held (m0.inc k) g) : InUse s0 (g.inum k) ↔ 0 < (s0.inode k).ref := by
  have hk := hw.ref_inc k
  rw [if_pos rfl] at hk
  constructor
  · rintro ⟨l, hl, e⟩
    have := hw.inv.table.uniq l k (hw.ref_pos hl) (by omega) ((hw.inum l hl).trans e)
    rwa [← this]
  · exact fun h => ⟨k, h, (hw.inum k h).symm⟩

theorem room_of_fits (hw : Walk sb p s0 m0 held (m0.inc k) g) {next : Fin K} {j : ℕ} (hf : Fits g next j) :
    Room s0 (g.inum k) j := by
  have hr := hw.ref_inc next
  by_cases hpos : 0 < (g.s.inode next).ref
  · have e := hf.same hpos
    by_cases hk : next = k
    · exact .inr (.inl (hk ▸ e.symm))
    · rw [if_neg hk] at hr
      exact .inl ⟨next, by omega, (hw.inum next (by omega)).symm.trans e⟩
  · have hk : next ≠ k := fun h => by
      rw [if_pos h] at hr
      omega
    refine .inr (.inr ⟨next, by omega, ?_⟩)
    by_cases h0 : 0 < (s0.inode k).ref
    · exact .inl (hw.inUse_iff.2 h0)
    · exact .inr ⟨k, Ne.symm hk, by omega⟩

theorem not_room (hw : Walk sb p s0 m0 held (m0.inc k) g) {j : ℕ}
    (h : ∀ l, 0 < (g.s.inode l).ref ∧ (g.s.inode l).inum ≠ j) : ¬ Room s0 (g.inum k) j := by
  have hfree : ∀ a, (s0.inode a).ref = 0 → a = k := fun a ha => by
    by_contra hne
    have h1 := (h a).1
    have h2 := hw.ref_inc a
    rw [if_neg hne] at h2
    omega
  rintro (⟨l, hl, e⟩ | e | ⟨a, ha, hi | ⟨b, hb, hb0⟩⟩)
  · exact (h l).2 ((hw.inum l hl).trans e)
  · exact (h k).2 e.symm
  · have := hw.inUse_iff.1 hi
    rw [hfree a ha] at ha
    omega
  · exact hb ((hfree b hb0).trans (hfree a ha).symm)

theorem dirlookup (hw : Walk sb p s0 m0 (some k) (m0.inc k) g) (hc : Clean sb p k g)
    (hty : (g.d k).type = T_DIR) {name : List Byte} :
    (dirlookup sb k name).Outcome g.s (fun r s' => ∃ g', g'.s = s' ∧ Clean sb p k g' ∧
      g'.inum k = g.inum k ∧
      (r = none ∧ Walk sb p s0 m0 (some k) (m0.inc k) g' ∧
          look sb s0.blk (g.inum k) name = none ∨
        ∃ next o, r = some (next, o) ∧ Walk sb p s0 m0 (some k) ((m0.inc k).inc next) g' ∧
          look sb s0.blk (g.inum k) name = some (g'.inum next) ∧ Room s0 (g.inum k) (g'.inum next)))
      (Fails sb s0 (∀ j, look sb s0.blk (g.inum k) name = some j → Room s0 (g.inum k) j)) := by
  have htree := (hw.tree hc).2
  refine (hw.inv.dirlookup hc hty).mono (fun r s' h => ?_) fun e h => ?_
  · obtain ⟨g', rfl, hi', ⟨rfl, rfl, hno⟩ | ⟨next, n, i, rfl, hf, rfl⟩⟩ := h
    · refine ⟨g', rfl, hc, rfl, .inl ⟨rfl, hw, ?_⟩⟩
      unfold look
      rw [← htree]
      exact hno
    · have hnext : (g.got p next i).inum next = i := by
        unfold Ghost.got
        rw [Ghost.inum, tab_self]
      refine ⟨_, rfl, hc.got hw.inv hf.fits, ?_, .inr ⟨next, _, rfl, hw.got hf.fits hi', ?_, ?_⟩⟩
      · rw [Ghost.inum, got_counted hw.inv hf.fits (hw.inv.table.locked_ref hc.lock)]
      · unfold look
        rw [← htree, hf.dict, hnext]
      · rw [hnext]
        exact hw.room_of_fits hf.fits
  · obtain ⟨he, j, hj, hfull⟩ := h
    refine ⟨.inl ⟨he, fun a b ha hb => ?_⟩, fun _ hall => hw.not_room hfull (hall j ?_)⟩
    · -- only the inode that is locked was free
      have key : ∀ l, (s0.inode l).ref = 0 → l = k := fun l hl => by
        by_contra hne
        have h1 := (hfull l).1
        have h2 := hw.ref_inc l
        rw [if_neg hne] at h2
        omega
      exact (key a ha).trans (key b hb).symm
    · unfold look
      rw [← htree]
      exact hj

/-- from inode `i` on, along components, no inode that is locked is free, and there is room in the inode
table for each one that is looked up -/
def Passes (sb : FsSuper) (s : Fsys P K M) (parent : Bool) : ℕ → List (List Byte) → Prop
  | _, [] => True
  | i, x :: xs => (sb.dinode s.blk i).type ≠ 0 ∧
      ((sb.dinode s.blk i).type = T_DIR → ¬ (parent = true ∧ xs = []) → ∀ j, look sb s.blk i x = some j →
        Room s i j ∧ Passes sb s parent j xs)

theorem Passes.parent {s : Fsys P K M} {i : ℕ} {xs : List (List Byte)} (h : Passes sb s false i xs) :
    Passes sb s true i xs := by
  induction xs generalizing i with
  | nil => trivial
  | cons x xs ih =>
    refine ⟨h.1, fun ht _ j hj => ?_⟩
    obtain ⟨hr, hp⟩ := h.2 ht (fun h => (nomatch h.1)) j hj
    exact ⟨hr, ih hp⟩

/-- back, with what `namex` gives -/
def Arrived (sb : FsSuper) (p : P) (s0 : Fsys P K M) (m0 : Hands K M) (t : Option (ℕ × List Byte))
    (r : Option (Fin K × List Byte)) (s : Fsys P K M) : Prop :=
  ∃ g, g.s = s ∧ Walk sb p s0 m0 none (r.elim m0 fun x => m0.inc x.1) g ∧
    r.map (fun x => (g.inum x.1, x.2)) = t ∧
    ∀ x, r = some x → Sound sb s0 → Lasting sb s0 (g.inum x.1)

theorem iunlockput (hok : sb.Ok) (hw : Walk sb p s0 m0 (some k) m g) (hc : Clean sb p k g)
    (hlt : m0.ref k < m.ref k) (hfine : Sound sb s0 → Fine sb s0 k g) :
    (iunlockput sb p k).Outcome g.s (fun _ s' => ∃ g', g'.s = s' ∧ Walk sb p s0 m0 none (m.dec k) g' ∧
      g'.inum = g.inum) (Bursts sb s0) := by
  refine .bind (.of_yields (hw.iunlock hc)) ?_
  rintro _ _ ⟨g1, rfl, hw1, rfl⟩
  exact hw1.iput hok hlt fun hs => Fine.notLast hw1 hs hlt ⟨(hfine hs).type, (hfine hs).links⟩

theorem namexLoop (hok : sb.Ok) (parent : Bool) {n : ℕ} {path name : List Byte} {ip : Fin K}
    (hn : path.length < n) (hw : Walk sb p s0 m0 none (m0.inc ip) g)
    (hfine : Sound sb s0 → Lasting sb s0 (g.inum ip)) :
    (namexLoop sb p parent n path name ip).Outcome g.s
      (fun r s' =>
        Arrived sb p s0 m0 (resolveNamed sb s0.blk parent (g.inum ip) name (components path)) r s' ∧
        Passes sb s0 parent (g.inum ip) (components path))
      (Fails sb s0 (Passes sb s0 parent (g.inum ip) (components path))) := by
  induction n generalizing path name ip g with
  | zero => omega
  | succ n ih =>
    have hlt : m0.ref ip < (m0.inc ip).ref ip := by
      rw [m0.inc_ref, if_pos rfl]
      omega
    have hpos : 0 < (g.s.inode ip).ref := hw.inv.table.ref_pos (.inl (by rw [hw.view]; omega))
    have hip : Sound sb s0 → Fine sb s0 ip g := fun hs => hw.fine_of_lasting hpos (hfine hs)
    rw [components_skipelem]
    unfold FileSys.namexLoop
    cases hs : skipelem path with
    | none =>
      dsimp only
      cases parent with
      | false => exact .pure ⟨⟨g, rfl, hw, rfl, fun x hx hs => by cases hx; exact hfine hs⟩, trivial⟩
      | true =>
        refine ((hw.iput hok hlt fun hs => Fine.notLast hw hs hlt (hip hs)).mono (fun _ _ h => h)
          fun _ h => h.fails).bind ?_
        rintro _ _ ⟨g', rfl, hw', -⟩
        rw [m0.inc_dec] at hw'
        exact .pure ⟨⟨g', rfl, hw', rfl, by simp⟩, trivial⟩
    | some x =>
      obtain ⟨name', rest⟩ := x
      have hlen := skipelem_length hs
      dsimp only
      rw [resolveNamed_cons]
      refine ((hw.ilock (by omega) fun hs => (hip hs).type).mono (fun _ _ h => h)
        fun _ h => ⟨h.1, fun hn hp => h.2 hn hp.1⟩).bind ?_
      rintro _ _ ⟨g1, rfl, hw1, hc1, e1⟩
      obtain ⟨htype, -⟩ := hw1.tree hc1
      have hty0 : (sb.dinode s0.blk (g.inum ip)).type ≠ 0 := by
        rw [← e1, ← htype]
        exact hc1.type
      rw [e1] at htype
      have hip1 : Sound sb s0 → Fine sb s0 ip g1 := fun hs => by
        have := hip hs
        exact ⟨e1 ▸ this.type, e1 ▸ this.links⟩
      -- the ways out that give the inode back
      have fails : ∀ {g2 : Ghost P K M} {X : Prop}, Walk sb p s0 m0 (some ip) (m0.inc ip) g2 →
          Clean sb p ip g2 → g2.inum ip = g.inum ip → X →
          (do FileSys.iunlockput sb p ip; return none : FsM P K M _).Outcome g2.s
            (fun r s' => Arrived sb p s0 m0 none r s' ∧ X) (Fails sb s0 X) := fun hw2 hc2 e2 hX => by
        refine ((hw2.iunlockput hok hc2 hlt fun hs => ?_).mono (fun _ _ h => h) fun _ h => h.fails).bind ?_
        · have := hip hs
          exact ⟨e2 ▸ this.type, e2 ▸ this.links⟩
        · rintro _ _ ⟨g', rfl, hw', -⟩
          rw [m0.inc_dec] at hw'
          exact .pure ⟨⟨g', rfl, hw', rfl, by simp⟩, hX⟩
      refine .bind (.of_yields (.read ⟨rfl, rfl⟩) :
        (fields ip).Outcome g1.s (fun d s' => d = g1.d ip ∧ s' = g1.s) _) ?_
      rintro _ _ ⟨rfl, rfl⟩
      refine .ite (fun hty => ?_) fun hty => .ite (fun hpar => ?_) fun hpar => ?_
      · rw [if_neg (htype ▸ hty)]
        exact fails hw1 hc1 e1 ⟨hty0, fun h => absurd h (htype ▸ hty)⟩
      · rw [if_pos (htype ▸ not_not.1 hty), if_pos ⟨hpar.1, (components_rest hs).2 hpar.2⟩]
        refine .bind (.of_yields (hw1.iunlock hc1)) ?_
        rintro _ _ ⟨g', rfl, hw', rfl⟩
        refine .pure ⟨⟨_, rfl, hw', congrArg (fun i => some (i, name')) e1, fun x hx hs => ?_⟩,
          hty0, fun _ h => absurd ⟨hpar.1, (components_rest hs).2 hpar.2⟩ h⟩
        cases hx
        exact e1 ▸ hfine hs
      · have hmore : ¬ (parent = true ∧ components rest = []) := fun h =>
          hpar ⟨h.1, (components_rest hs).1 h.2⟩
        have hdir := htype ▸ not_not.1 hty
        rw [if_pos hdir, if_neg hmore]
        refine .bind ((hw1.dirlookup hc1 (not_not.1 hty)).mono (fun _ _ h => h) fun _ h =>
          ⟨h.1, fun hn hp => h.2 hn fun j hj => ?_⟩) ?_
        · rw [e1] at hj ⊢
          exact (hp.2 hdir hmore j hj).1
        rintro _ _ ⟨g2, rfl, hc2, e2, ⟨rfl, hw2, hno⟩ | ⟨next, o, rfl, hw2, hyes, hroom⟩⟩
        · rw [e1] at hno
          rw [hno]
          refine fails hw2 hc2 (e2.trans e1) ⟨hty0, fun _ _ j hj => ?_⟩
          rw [hno] at hj
          cases hj
        · rw [e1] at hyes hroom
          have hlt2 : m0.ref ip < ((m0.inc ip).inc next).ref ip := by
            have := (m0.inc ip).le_inc next ip
            omega
          refine ((hw2.iunlockput hok hc2 hlt2 fun hs => ?_).mono (fun _ _ h => h)
            fun _ h => h.fails).bind ?_
          · exact ⟨e2 ▸ (hip1 hs).type, e2 ▸ (hip1 hs).links⟩
          rintro _ _ ⟨g3, rfl, hw3, e3⟩
          rw [m0.inc_inc_dec] at hw3
          have e4 : g3.inum next = g2.inum next := congrFun e3 next
          rw [hyes, Option.bind_some, ← e4]
          rw [← e4] at hyes hroom
          -- the rest of the path decides
          have hiff : Passes sb s0 parent (g.inum ip) (name' :: components rest) ↔
              Passes sb s0 parent (g3.inum next) (components rest) := by
            refine ⟨fun h => (h.2 hdir hmore _ hyes).2, fun h => ⟨hty0, fun _ _ j hj => ?_⟩⟩
            obtain rfl := Option.some.inj (hyes.symm.trans hj)
            exact ⟨hroom, h⟩
          refine (ih (by omega) hw3 fun hs => ?_).mono (fun _ _ h => ⟨h.1, hiff.2 h.2⟩) fun _ h =>
            ⟨h.1, fun hn hp => h.2 hn (hiff.1 hp)⟩
          refine hs.names _ (hw.inv.table.inum ip hpos).2 hdir _ _ hyes

theorem start {s : Fsys P K M} (h : AtRest sb s) (p : P) :
    Walk sb p s ((Fsys.ghost sb s).hands p) none ((Fsys.ghost sb s).hands p) (Fsys.ghost sb s) :=
  ⟨h.inv, h.lock, rfl, fun _ => Nat.le_refl _, fun _ => rfl, fun _ _ => rfl, rfl, .refl sb _, fun _ => rfl⟩

theorem igetRoot (hok : sb.Ok) (hw : Walk sb p s0 m0 none m0 g) :
    (iget ROOTDEV ROOTINO : FsM P K M (Fin K)).Outcome g.s (fun k s' => ∃ g', g'.s = s' ∧
      Walk sb p s0 m0 none (m0.inc k) g' ∧ g'.inum k = ROOTINO ∧
      (InUse s0 ROOTINO ∨ ∃ a, (s0.inode a).ref = 0))
      (Fails sb s0 (InUse s0 ROOTINO ∨ ∃ a, (s0.inode a).ref = 0)) := by
  have href : ∀ l, (g.s.inode l).ref = (s0.inode l).ref := fun l => Nat.add_right_cancel (hw.ref l)
  refine (hw.inv.outcome (iget_gives (alone_crowd sb p).toKit hok.root) (iget_ends ..)).mono
    (fun k s' h => ?_) fun e h => ⟨.inl ⟨h.1.1, fun a b ha _ => ?_⟩, fun _ => ?_⟩
  · obtain ⟨g', rfl, hi', h, rfl, -, hf, rfl, -⟩ := h
    refine ⟨_, rfl, hw.got hf hi', ?_, ?_⟩
    · unfold Ghost.got
      rw [Ghost.inum, tab_self]
    · by_cases hpos : 0 < (s0.inode k).ref
      · exact .inl ⟨k, hpos, (hw.inum k hpos).symm.trans (hf.same (hw.ref_pos hpos))⟩
      · exact .inr ⟨k, by omega⟩
  · have h1 := (h.1.2 a).1
    have h2 := href a
    omega
  · rintro (⟨l, hl, e⟩ | ⟨a, ha⟩)
    · have hpos := hw.ref_pos hl
      exact (h.1.2 l).2 (hw.inv.table.inum l hpos).1 ((hw.inum l hl).trans e)
    · have h1 := (h.1.2 a).1
      have h2 := href a
      omega

theorem idupCwd (hw : Walk sb p s0 m0 none m0 g) {ip : Fin K} (hc : g.s.cwd p = some ip)
    (hpos : 0 < (s0.inode ip).ref) :
    (idupCwd p : FsM P K M (Fin K)).Yields g.s fun k s' => k = ip ∧ ∃ g', g'.s = s' ∧
      Walk sb p s0 m0 none (m0.inc ip) g' ∧ g'.inum ip = (s0.inode ip).inum := by
  have hr := hw.ref_pos hpos
  have hf : Fits g ip (g.inum ip) := ⟨fun _ => rfl, fun l hl e => hw.inv.table.uniq l ip hl hr e⟩
  refine .act (r := (ip, g.s.setInode ip { g.s.inode ip with ref := (g.s.inode ip).ref + 1 })) ?_
    ⟨rfl, g.got p ip (g.inum ip), ?_, hw.got hf (got_step hw.inv (hw.inv.table.inum ip hr).2 hf).1, ?_⟩
  · rw [hc]
  · rw [got_used hw.inv hr rfl]
    rfl
  · rw [← hw.inum ip hpos, Ghost.inum, got_counted hw.inv hf hr]

end Walk

/-! ## `namei` and `nameiparent` -/

/-- the inode where a path starts -/
def pathStart (s : Fsys P K M) (p : P) (path : List Byte) : Option ℕ :=
  if path.head? = some slash then some ROOTINO else (s.cwd p).map fun k => (s.inode k).inum

/-- why `namex` panics: at most one entry of the inode table is free, the tree has names of inodes that
are not allocated or have no links, or the process has no current directory -/
def CannotWalk (sb : FsSuper) (s : Fsys P K M) (p : P) (path : List Byte) (e : FsPanic) : Prop :=
  Walk.Stuck sb s e ∨ e = .nullInode ∧ pathStart s p path = none

/-- nothing is locked, and the references are as before but for that to inode `r` -/
structure Refers (sb : FsSuper) (s : Fsys P K M) (r : Option (Fin K)) (s' : Fsys P K M) : Prop where
  lock : ∀ k, s'.lock k = none
  ref : ∀ k, (s'.inode k).ref = (s.inode k).ref + if r = some k then 1 else 0
  file : s'.file = s.file
  blk : Sound sb s ∨ NoOrphans sb s → s'.blk = s.blk

theorem Walk.Arrived.refers {s0 s : Fsys P K M} {m0 : Hands K M} {t : Option (ℕ × List Byte)}
    {r : Option (Fin K × List Byte)} (h : Walk.Arrived sb p s0 m0 t r s) :
    Refers sb s0 (r.map Prod.fst) s := by
  obtain ⟨g, rfl, hw, -⟩ := h
  refine ⟨hw.unlocked, fun k => ?_, hw.file, hw.same⟩
  have := hw.ref k
  cases r with
  | none => exact Nat.add_right_cancel this
  | some x =>
    rw [Option.elim_some, m0.inc_ref] at this
    simp only [Option.map_some, Option.some.injEq, eq_comm (a := x.1)]
    omega

/-- the inode where a path starts can be had -/
def CanStart (s : Fsys P K M) (p : P) (path : List Byte) : Prop :=
  if path.head? = some slash then InUse s ROOTINO ∨ ∃ a, (s.inode a).ref = 0 else s.cwd p ≠ none

/-- **when a path can be followed**: there is an inode to start from, no inode on the way is free, and the
inode table has room for each -/
def Passable (sb : FsSuper) (s : Fsys P K M) (p : P) (path : List Byte) (parent : Bool) : Prop :=
  CanStart s p path ∧ ∀ i, pathStart s p path = some i → Walk.Passes sb s parent i (components path)

/-- **`namex`**, with the walk that it made -/
theorem AtRest.namex {s : Fsys P K M} (h : AtRest sb s) (p : P) (path : List Byte) (parent : Bool) :
    (namex sb p path parent).Outcome s (fun r s' => Walk.Arrived sb p s ((Fsys.ghost sb s).hands p)
        ((pathStart s p path).bind fun i => resolveNamed sb s.blk parent i [] (components path)) r s' ∧
        Passable sb s p path parent)
      (fun e => CannotWalk sb s p path e ∧ (NoOrphans sb s → ¬ Passable sb s p path parent)) := by
  have hw := Walk.start h p
  -- the rest of the walk, from the inode where it starts
  have go : ∀ {k : Fin K} {g : Ghost P K M}, Walk sb p s ((Fsys.ghost sb s).hands p) none
      (((Fsys.ghost sb s).hands p).inc k) g → pathStart s p path = some (g.inum k) → CanStart s p path →
      (Sound sb s → Lasting sb s (g.inum k)) →
      (namexLoop sb p parent (path.length + 1) path [] k).Outcome g.s
        (fun r s' => Walk.Arrived sb p s ((Fsys.ghost sb s).hands p)
          ((pathStart s p path).bind fun i => resolveNamed sb s.blk parent i [] (components path)) r s' ∧
          Passable sb s p path parent)
        (fun e => CannotWalk sb s p path e ∧ (NoOrphans sb s → ¬ Passable sb s p path parent)) :=
      fun hw1 hstart hcan hfine => by
    refine (hw1.namexLoop h.image.ok parent (Nat.lt_succ_self _) hfine).mono (fun _ _ ha => ?_)
      fun e he => ⟨.inl he.1, fun hn hp => he.2 hn (hp.2 _ hstart)⟩
    rw [hstart]
    refine ⟨ha.1, hcan, fun i hi => ?_⟩
    rw [hstart] at hi
    exact Option.some.inj hi ▸ ha.2
  by_cases hs : path.head? = some slash
  · have hstart : pathStart s p path = some ROOTINO := if_pos hs
    have hcan : CanStart s p path ↔ InUse s ROOTINO ∨ ∃ a, (s.inode a).ref = 0 := by
      unfold CanStart
      rw [if_pos hs]
    unfold FileSys.namex
    rw [if_pos hs]
    refine ((hw.igetRoot h.image.ok).mono (fun _ _ h => h) fun e he =>
      ⟨.inl he.1, fun hn hp => he.2 hn (hcan.1 hp.1)⟩).bind ?_
    rintro k _ ⟨g, rfl, hw1, e, hroom⟩
    refine go hw1 (by rw [hstart, e]) (hcan.2 hroom) fun hsound => ?_
    rw [e]
    exact hsound.root
  · have hstart : pathStart s p path = (s.cwd p).map fun k => (s.inode k).inum := if_neg hs
    have hcan : CanStart s p path ↔ s.cwd p ≠ none := by
      unfold CanStart
      rw [if_neg hs]
    unfold FileSys.namex
    rw [if_neg hs]
    cases hc : s.cwd p with
    | none =>
      refine .bind (Q := fun _ _ => False) (.act ?_) fun _ _ hf => hf.elim
      rw [hc]
      exact ⟨.inr ⟨rfl, by rw [hstart, hc]; rfl⟩, fun _ hp => hcan.1 hp.1 hc⟩
    | some ip =>
      have hpos : 0 < (s.inode ip).ref := h.inv.table.ref_pos (k := ip) (.inl (by
        show 0 < if s.cwd p = some ip then 1 else 0
        rw [if_pos hc]
        exact Nat.one_pos))
      refine .bind (.of_yields (hw.idupCwd hc hpos)) ?_
      rintro k _ ⟨hk, g, rfl, hw1, e⟩
      rw [hk]
      refine go hw1 (by rw [hstart, hc, e]; rfl) (hcan.2 (by rw [hc]; exact fun h => nomatch h))
        fun hsound => ?_
      rw [e]
      exact hsound.cwd p ip hc

theorem resolveNamed_fst (i : ℕ) (name : List Byte) (xs : List (List Byte)) (blk : ℕ → Block) :
    (resolveNamed sb blk false i name xs).map Prod.fst = resolve sb blk i xs := by
  show ((resolve sb blk i xs).map _).map Prod.fst = _
  rw [Option.map_map]
  exact Option.map_id'

/-- **`namei`**, with the walk that it made -/
theorem AtRest.namei {s : Fsys P K M} (h : AtRest sb s) (p : P) (path : List Byte) :
    (namei sb p path).Outcome s (fun r s' => (∃ name, Walk.Arrived sb p s ((Fsys.ghost sb s).hands p)
        (((pathStart s p path).bind fun i => resolve sb s.blk i (components path)).map fun i => (i, name))
        (r.map fun k => (k, name)) s') ∧ Passable sb s p path false)
      (fun e => CannotWalk sb s p path e ∧ (NoOrphans sb s → ¬ Passable sb s p path false)) := by
  refine (h.namex p path false).bind fun r s' ha => .pure ?_
  obtain ⟨⟨g, hs, hw, he, hl⟩, hpass⟩ := ha
  refine ⟨?_, hpass⟩
  have e := congrArg (Option.map Prod.fst) he
  rw [Option.map_map, Option.map_bind] at e
  have e' : r.map (fun x => g.inum x.1) =
      (pathStart s p path).bind fun i => resolve sb s.blk i (components path) := by
    refine e.trans (congrArg _ (funext fun i => ?_))
    exact resolveNamed_fst ..
  rw [← e']
  cases r with
  | none => exact ⟨[], g, hs, hw, rfl, nofun⟩
  | some x => exact ⟨x.2, g, hs, hw, rfl, hl⟩

/-- what `namei` gives, if it returns -/
theorem Walk.Arrived.namei {s0 s' : Fsys P K M} {m0 : Hands K M} {t : Option ℕ} {name : List Byte}
    {r : Option (Fin K)}
    (ha : Walk.Arrived sb p s0 m0 (t.map fun i => (i, name)) (r.map fun k => (k, name)) s') :
    Refers sb s0 r s' ∧ r.map (fun k => (s'.inode k).inum) = t := by
  have hr := ha.refers
  rw [Option.map_map] at hr
  obtain ⟨g, rfl, -, e, -⟩ := ha
  have e := congrArg (Option.map Prod.fst) e
  rw [Option.map_map, Option.map_map, Option.map_map] at e
  refine ⟨?_, ?_⟩
  · cases r with
    | none => exact hr
    | some k => exact hr
  · refine Eq.trans ?_ (e.trans Option.map_id')
    cases r <;> rfl

end

instance InUse.decidable {P : Type} {K M : ℕ} (s : Fsys P K M) (j : ℕ) : Decidable (InUse s j) :=
  inferInstanceAs (Decidable (∃ k, 0 < (s.inode k).ref ∧ (s.inode k).inum = j))

instance NoOrphans.decidable {P : Type} {K M : ℕ} (sb : FsSuper) (s : Fsys P K M) :
    Decidable (NoOrphans sb s) :=
  inferInstanceAs (Decidable (∀ j < sb.ninodes, _ → _ ∧ (_ ∨ InUse s j)))

end Xv6.FileSys
