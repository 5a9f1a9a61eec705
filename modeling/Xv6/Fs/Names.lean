import Xv6.Fs.Calm

/-!
# Directories and paths, with what a process has in hand

* `dirlookup_gives`, `dirlinkLoop_gives`, `isdiremptyLoop_gives`   the loops over a directory, exactly;
* `dirlookup_calm`, `dirlink_calm`   entries stay numbers of inodes;
* `namex_calm`, `create_calm`, `sysLink_calm`, `sysUnlink_calm`   **whatever the others do, the
  routines give back what they take**.
-/

set_option linter.unusedSectionVars false

namespace Xv6.FileSys

/-- the entry that starts at offset `o` -/
def Ghost.dirent {P : Type} {K M : ℕ} (g : Ghost P K M) (k : Fin K) (o : ℕ) : Dirent :=
  Dirent.load (g.bytes k o 16)

/-- the entry is in use and has this name -/
def Dirent.Is (de : Dirent) (name : List Byte) : Prop :=
  de.inum ≠ 0 ∧ namecmp (cstr name) de.name = 0

instance (de : Dirent) (name : List Byte) : Decidable (de.Is name) :=
  inferInstanceAs (Decidable (_ ∧ _))

section
variable {P : Type} {K M : ℕ} {sb : FsSuper} {p q : P} {g g' h : Ghost P K M} {k dp : Fin K}
  {L : Logic (Fsys P K M) (FsLabel P) FsPanic (Ghost P K M)} {α : Type} {m : Hands K M}
  {held : Set (Fin K)} {name : List Byte}

theorem dirent_inum (g : Ghost P K M) (k : Fin K) (n : ℕ) :
    (g.dirent k (16 * n)).inum = (g.d k).entryInum g.s.blk n := rfl

theorem dirent_byte (de : Dirent) : (de.byte 1 ++ de.byte 0 : BitVec 16) = de.inum := le16_join de.inum

theorem Clean.dirent_lt (hc : Clean sb p k g) (hty : (g.d k).type = T_DIR) {o : ℕ} (ho : o % 16 = 0)
    (hlt : o < (g.d k).size.toNat) : (g.dirent k o).inum.toNat < sb.ninodes := by
  obtain ⟨n, rfl⟩ := Nat.dvd_of_mod_eq_zero ho
  rw [dirent_inum]
  exact (hc.node.dir hty).2 n hlt

section
variable [Fintype P] [DecidableEq P]

/-! ## Loops over a directory -/

theorem panic_gives {e : FsPanic} (he : L.allow e) :
    L.Gives g (Code.panic e : FsM P K M α) fun _ _ => False :=
  Logic.Gives.act (fun _ _ _ _ _ _ _ hx => by cases hx) (fun _ _ _ _ hx => by cases hx)
    fun _ _ _ _ _ hx => by
      cases hx
      exact he

theorem readDirent_gives (kit : Kit sb p L) (hc : Clean sb p k g) (hty : (g.d k).type = T_DIR) {o : ℕ}
    (ho : o % 16 = 0) (hlt : o < (g.d k).size.toNat) (e : FsPanic) :
    L.Gives g (readDirent sb k o e) fun de g' => de = g.dirent k o ∧ g' = g := by
  have h16 : (g.d k).size.toNat % 16 = 0 := (hc.node.dir hty).1
  have hsz : (g.d k).size.toNat ≤ MAXFILE * BSIZE := hc.node.covers.size
  have hmax : MAXFILE * BSIZE < 2 ^ 32 - 16 := by decide
  have hlen : readLen (g.d k).size.toNat o 16 = 16 := by
    have hno : ¬ (o > (g.d k).size.toNat ∨ (o + 16) % 2 ^ 32 < o) := by
      rw [Nat.mod_eq_of_lt (by omega)]
      omega
    unfold readLen
    rw [if_neg hno]
    omega
  refine (readi_gives kit hc.full kernelDst o (by decide)).bind fun r g1 h1 => ?_
  obtain ⟨rfl, l, hl, hbytes, hres⟩ := h1
  rw [hlen] at hl hres
  obtain ⟨r1, r2⟩ := r
  dsimp only at hbytes hres
  rcases hres with ⟨rfl, rfl⟩ | ⟨_, i, _, hi⟩
  · subst hbytes
    exact .pure ⟨rfl, rfl⟩
  · cases hi

/-- where a lookup from `off` on ends: at the first entry with the name -/
def Found (g : Ghost P K M) (dp : Fin K) (name : List Byte) (off o : ℕ) : Prop :=
  off ≤ o ∧ o < (g.d dp).size.toNat ∧ o % 16 = 0 ∧ (g.dirent dp o).Is name ∧
    ∀ o', off ≤ o' → o' < o → o' % 16 = 0 → ¬ (g.dirent dp o').Is name

/-- a reference to the inode of the entry at `o` -/
def Got (sb : FsSuper) (L : Logic (Fsys P K M) (FsLabel P) FsPanic (Ghost P K M)) (p : P)
    (dp : Fin K) (o : ℕ) (k : Fin K) (g g' : Ghost P K M) : Prop :=
  ∃ h, L.rely g h ∧ Inv sb h ∧ Fits h k (g.dirent dp o).inum.toNat ∧
    g' = h.got p k (g.dirent dp o).inum.toNat ∧ Inv sb g'

theorem dirlookupLoop_gives (kit : Kit sb p L) (hc : Clean sb p dp g) (hty : (g.d dp).type = T_DIR)
    (n : ℕ) {off : ℕ} (ho : off % 16 = 0) (hn : (g.d dp).size.toNat < off + 16 * n) :
    L.Gives g (dirlookupLoop sb dp name n off) fun r g' =>
      r = none ∧ g' = g ∧ (∀ o, off ≤ o → o < (g.d dp).size.toNat → o % 16 = 0 →
        ¬ (g.dirent dp o).Is name) ∨
      ∃ k o, r = some (k, o) ∧ Found g dp name off o ∧ Got sb L p dp o k g g' := by
  induction n generalizing off with
  | zero => exact .pure (.inl ⟨rfl, rfl, fun o h1 h2 _ => by omega⟩)
  | succ n ih =>
    refine (fields_gives kit hc.lock).bind fun d g1 e => ?_
    obtain ⟨rfl, rfl⟩ := e
    by_cases hlt : off < (g1.d dp).size.toNat
    · rw [if_pos hlt]
      refine (readDirent_gives kit hc hty ho hlt _).bind fun de g2 e => ?_
      obtain ⟨rfl, rfl⟩ := e
      by_cases hm : (g2.dirent dp off).inum ≠ 0 ∧ namecmp (cstr name) (g2.dirent dp off).name = 0
      · rw [if_pos hm]
        refine (kit.read _).bind fun dev g3 h3 => ?_
        obtain ⟨rfl, h', hr, hi, rfl⟩ := h3
        have hl := ((kit.rely _ _ hr).lock dp).2 hc.lock
        rw [(hi.table.inum dp (hi.table.locked_ref hl)).1]
        refine (iget_gives kit (hc.dirent_lt hty ho hlt)).bind fun k g4 h4 => ?_
        exact .pure (.inr ⟨k, off, rfl, ⟨Nat.le_refl _, hlt, ho, hm, fun o' _ _ => by omega⟩, h4⟩)
      · rw [if_neg hm]
        -- the entry at `off` is not it
        have step : ∀ o, off ≤ o → o % 16 = 0 → o = off ∨ off + 16 ≤ o := fun o _ _ => by omega
        refine (@ih (off + 16) (by omega) (by omega)).mono fun r g' h => ?_
        rcases h with ⟨rfl, rfl, hno⟩ | ⟨k, o, rfl, ⟨h1, h2, h3, h4, h5⟩, hgot⟩
        · refine .inl ⟨rfl, rfl, fun o h1 h2 h3 => ?_⟩
          rcases step o h1 h3 with rfl | hge
          · exact hm
          · exact hno o hge h2 h3
        · refine .inr ⟨k, o, rfl, ⟨by omega, h2, h3, h4, fun o' h6 h7 h8 => ?_⟩, hgot⟩
          rcases step o' h6 h8 with rfl | hge
          · exact hm
          · exact h5 o' hge h7 h8
    · rw [if_neg hlt]
      exact .pure (.inl ⟨rfl, rfl, fun o h1 h2 _ => by omega⟩)

/-- **`dirlookup`** finds the first entry with the name -/
theorem dirlookup_gives (kit : Kit sb p L) (hc : Clean sb p dp g)
    (hnd : (g.d dp).type ≠ T_DIR → L.allow .dirlookupNotDir) :
    L.Gives g (dirlookup sb dp name) fun r g' => (g.d dp).type = T_DIR ∧
      (r = none ∧ g' = g ∧ (∀ o < (g.d dp).size.toNat, o % 16 = 0 → ¬ (g.dirent dp o).Is name) ∨
      ∃ k o, r = some (k, o) ∧ Found g dp name 0 o ∧ Got sb L p dp o k g g') := by
  refine (fields_gives kit hc.lock).bind fun d g1 e => ?_
  obtain ⟨rfl, rfl⟩ := e
  by_cases hty : (g1.d dp).type = T_DIR
  · rw [if_neg (not_not.2 hty)]
    refine (dirlookupLoop_gives kit hc hty _ rfl (by omega)).mono fun r g' h => ⟨hty, ?_⟩
    exact h.imp (fun h => ⟨h.1, h.2.1, fun o => h.2.2 o (Nat.zero_le o)⟩) id
  · rw [if_pos hty]
    exact (panic_gives (hnd hty)).bind fun _ _ h => h.elim

/-- the loop of `dirlink` ends at the first empty entry, or at the end -/
theorem dirlinkLoop_gives (kit : Kit sb p L) (hc : Clean sb p dp g) (hty : (g.d dp).type = T_DIR)
    (n : ℕ) {off : ℕ} (ho : off % 16 = 0) (hle : off ≤ (g.d dp).size.toNat)
    (hn : (g.d dp).size.toNat < off + 16 * n) :
    L.Gives g (dirlinkLoop sb dp n off) fun o g' => g' = g ∧ off ≤ o ∧ o % 16 = 0 ∧
      o ≤ (g.d dp).size.toNat ∧ (o < (g.d dp).size.toNat → (g.dirent dp o).inum = 0) ∧
      ∀ o', off ≤ o' → o' < o → o' % 16 = 0 → (g.dirent dp o').inum ≠ 0 := by
  induction n generalizing off with
  | zero => omega
  | succ n ih =>
    refine (fields_gives kit hc.lock).bind fun d g1 e => ?_
    obtain ⟨rfl, rfl⟩ := e
    by_cases hlt : off < (g1.d dp).size.toNat
    · rw [if_pos hlt]
      refine (readDirent_gives kit hc hty ho hlt _).bind fun de g2 e => ?_
      obtain ⟨rfl, rfl⟩ := e
      by_cases h0 : (g2.dirent dp off).inum = 0
      · rw [if_pos h0]
        exact .pure ⟨rfl, Nat.le_refl _, ho, hle, fun _ => h0, fun o' _ _ => by omega⟩
      · rw [if_neg h0]
        have h16 : (g2.d dp).size.toNat % 16 = 0 := (hc.node.dir hty).1
        refine (@ih (off + 16) (by omega) (by omega) (by omega)).mono fun o g' h => ?_
        obtain ⟨rfl, h1, h2, h3, h4, h5⟩ := h
        refine ⟨rfl, by omega, h2, h3, h4, fun o' h6 h7 h8 => ?_⟩
        by_cases e : o' = off
        · rw [e]
          exact h0
        · exact h5 o' (by omega) h7 h8
    · rw [if_neg hlt]
      exact .pure ⟨rfl, Nat.le_refl _, ho, hle, fun h => absurd h hlt, fun o' _ _ => by omega⟩

theorem isdiremptyLoop_gives (kit : Kit sb p L) (hc : Clean sb p dp g) (hty : (g.d dp).type = T_DIR)
    (n : ℕ) {off : ℕ} (ho : off % 16 = 0) (hn : (g.d dp).size.toNat < off + 16 * n) :
    L.Gives g (isdiremptyLoop sb dp n off) fun r g' => g' = g ∧ (r = true ↔
      ∀ o, off ≤ o → o < (g.d dp).size.toNat → o % 16 = 0 → (g.dirent dp o).inum = 0) := by
  induction n generalizing off with
  | zero => exact .pure ⟨rfl, iff_of_true rfl fun o h1 h2 _ => by omega⟩
  | succ n ih =>
    refine (fields_gives kit hc.lock).bind fun d g1 e => ?_
    obtain ⟨rfl, rfl⟩ := e
    by_cases hlt : off < (g1.d dp).size.toNat
    · rw [if_pos hlt]
      refine (readDirent_gives kit hc hty ho hlt _).bind fun de g2 e => ?_
      obtain ⟨rfl, rfl⟩ := e
      by_cases h0 : (g2.dirent dp off).inum = 0
      · rw [if_neg (not_not.2 h0)]
        refine (@ih (off + 16) (by omega) (by omega)).mono fun r g' h => ⟨h.1, h.2.trans ?_⟩
        refine ⟨fun hall o h1 h2 h3 => ?_, fun hall o h1 h2 h3 => hall o (by omega) h2 h3⟩
        by_cases e : o = off
        · rw [e]
          exact h0
        · exact hall o (by omega) h2 h3
      · rw [if_pos h0]
        exact .pure ⟨rfl, iff_of_false (by decide) fun hall => h0 (hall off (Nat.le_refl _) hlt ho)⟩
    · rw [if_neg hlt]
      exact .pure ⟨rfl, iff_of_true rfl fun o h1 h2 _ => by omega⟩

/-! ## Entries -/

/-- a logic in which a process may also come upon an inode that has been freed -/
structure Lax (sb : FsSuper) (p : P) (L : Logic (Fsys P K M) (FsLabel P) FsPanic (Ghost P K M)) :
    Prop extends Kit sb p L where
  noType : L.allow .ilockNoType
  notDir : L.allow .dirlookupNotDir
  writei : L.allow .unlinkWritei

theorem dirlookup_calm (lax : Lax sb p L) (hg : Calm sb p held m g) (hk : dp ∈ held) :
    L.Gives g (dirlookup sb dp name) fun r g' => (g.d dp).type = T_DIR ∧ Types held g g' ∧
      (r = none ∧ Calm sb p held m g' ∨
        ∃ k o, r = some (k, o) ∧ o % 16 = 0 ∧ Calm sb p held (m.inc k) g') := by
  refine (dirlookup_gives lax.toKit (hg.clean dp hk) fun _ => lax.notDir).mono fun r g' h => ⟨h.1, ?_⟩
  rcases h.2 with ⟨rfl, rfl, _⟩ | ⟨k, o, rfl, hf, h, hr, hi, hfit, rfl, _⟩
  · exact ⟨.refl held g', .inl ⟨rfl, hg⟩⟩
  · have hrp := lax.rely _ _ hr
    refine ⟨fun l hl => ?_, .inr ⟨k, o, rfl, hf.2.2.1, (hg.rely hrp).got (Set.Subset.refl _) hi hfit⟩⟩
    rw [got_d]
    exact hg.types hrp l hl

theorem dirlink_calm (lax : Lax sb p L) (hok : sb.Ok) (hg : Calm sb p held m g) (hk : dp ∈ held)
    (hpos : ∀ k ∈ held, 0 < m.ref k) {inum : ℕ} (hin : inum < sb.ninodes) :
    L.Gives g (dirlink sb p dp name inum) fun _ g' => Calm sb p held m g' ∧ Types held g g' := by
  have kit := lax.toKit
  refine (dirlookup_calm lax hg hk).bind fun r g1 h1 => ?_
  obtain ⟨hty, ht1, ⟨rfl, hg1⟩ | ⟨k, o, rfl, _, hg1⟩⟩ := h1
  · have hty1 : (g1.d dp).type = T_DIR := (ht1 dp hk).trans hty
    refine (fields_gives kit (hg1.clean dp hk).lock).bind fun d g2 e => ?_
    obtain ⟨rfl, rfl⟩ := e
    refine (dirlinkLoop_gives kit (hg1.clean dp hk) hty1 _ rfl (Nat.zero_le _) (by omega)).bind
      fun off g3 h3 => ?_
    obtain ⟨rfl, _, ho, _⟩ := h3
    refine (writei_dir kit hok hg1 hk ho ?_).bind fun r g4 h4 => .pure ⟨h4.1, ht1.trans h4.2.1⟩
    rw [dirent_byte]
    show inum % 2 ^ 16 < sb.ninodes
    exact lt_of_le_of_lt (Nat.mod_le _ _) hin
  · refine (iput_calm kit hok hg1 (m.inc_pos k) fun hk' => ?_).bind fun _ g2 h2 => ?_
    · have := hpos k hk'
      rw [m.inc_ref, if_pos rfl]
      omega
    · rw [m.inc_dec] at h2
      exact .pure ⟨h2.1, ht1.trans h2.2⟩

/-! ## Paths -/

theorem skipelem_length {path name rest : List Byte} (h : skipelem path = some (name, rest)) :
    rest.length < path.length := by
  induction path with
  | nil => cases h
  | cons c t ih =>
    by_cases hc : c = slash
    · have e : skipelem (c :: t) = skipelem t := by
        unfold skipelem
        rw [List.dropWhile_cons_of_pos (by simpa using hc)]
      rw [e] at h
      exact Nat.lt_succ_of_lt (ih h)
    · unfold skipelem at h
      rw [List.dropWhile_cons_of_neg (by simpa using hc)] at h
      simp only [List.cons_ne_nil, if_false, Option.some.injEq, Prod.mk.injEq] at h
      rw [← h.2, List.dropWhile_cons_of_pos (by simpa using hc)]
      have h1 := (List.dropWhile_suffix (l := t.dropWhile (· != slash)) (· == slash)).length_le
      have h2 := (List.dropWhile_suffix (l := t) (· != slash)).length_le
      show _ < t.length + 1
      omega

theorem namexLoop_calm (lax : Lax sb p L) (hok : sb.Ok) (parent : Bool) (n : ℕ) {path name : List Byte}
    (hn : path.length < n) {ip : Fin K} (hg : Calm sb p ∅ (m.inc ip) g) :
    L.Gives g (namexLoop sb p parent n path name ip) fun r g' =>
      r = none ∧ Calm sb p ∅ m g' ∨ ∃ k name, r = some (k, name) ∧ Calm sb p ∅ (m.inc k) g' := by
  have kit := lax.toKit
  induction n generalizing path name ip g with
  | zero => omega
  | succ n ih =>
    unfold namexLoop
    cases hs : skipelem path with
    | none =>
      dsimp only
      cases parent with
      | true =>
        rw [if_pos rfl]
        refine (iput_calm kit hok hg (m.inc_pos ip) fun h => h.elim).bind fun _ g1 h1 => ?_
        rw [m.inc_dec] at h1
        exact .pure (.inl ⟨rfl, h1.1⟩)
      | false =>
        rw [if_neg (by decide)]
        exact .pure (.inr ⟨ip, name, rfl, hg⟩)
    | some s =>
      obtain ⟨name', rest⟩ := s
      have hlen := skipelem_length hs
      dsimp only
      have hp : Pinned p g ip := .inl (by rw [hg.ref]; exact m.inc_pos ip)
      refine (ilock_calm kit lax.noType hg hp).bind fun _ g1 h1 => ?_
      obtain ⟨hk1, hg1, _⟩ := h1
      -- `iunlockput` gives the reference back
      have back : ∀ g2, Calm sb p (insert ip ∅) (m.inc ip) g2 → L.Gives g2 (iunlockput sb p ip)
          fun _ g' => Calm sb p ∅ m g' := fun g2 hg2 =>
        (iunlockput_calm kit hok hg2 hk1 (m.inc_pos ip)).mono fun _ g3 h3 => by
          rw [m.inc_dec] at h3
          exact h3.1
      refine (fields_gives kit (hg1.clean ip (.inl rfl)).lock).bind fun d g2 e => ?_
      obtain ⟨rfl, rfl⟩ := e
      by_cases hty : (g2.d ip).type ≠ T_DIR
      · rw [if_pos hty]
        exact (back g2 hg1).bind fun _ g3 h3 => .pure (.inl ⟨rfl, h3⟩)
      rw [if_neg hty]
      by_cases hpar : parent = true ∧ rest = []
      · rw [if_pos hpar]
        exact (iunlock_calm kit hg1 hk1).bind fun _ g3 h3 => .pure (.inr ⟨ip, name', rfl, h3.1⟩)
      rw [if_neg hpar]
      refine (dirlookup_calm lax hg1 (.inl rfl)).bind fun r g3 h3 => ?_
      obtain ⟨_, _, ⟨rfl, hg3⟩ | ⟨next, o, rfl, _, hg3⟩⟩ := h3
      · exact (back g3 hg3).bind fun _ g4 h4 => .pure (.inl ⟨rfl, h4⟩)
      · dsimp only
        refine (iunlockput_calm kit hok hg3 hk1 ?_).bind fun _ g4 h4 => ?_
        · exact lt_of_lt_of_le (m.inc_pos ip) ((m.inc ip).le_inc next ip)
        · rw [m.inc_inc_dec] at h4
          exact ih (by omega) h4.1

/-- **`namex`** ends with one reference more, or with none -/
theorem namex_calm (lax : Lax sb p L) (hok : sb.Ok) (path : List Byte) (parent : Bool)
    (hg : Calm sb p ∅ m g) (hcwd : ∀ k, m.cwd = some k → 0 < m.ref k) :
    L.Gives g (namex sb p path parent) fun r g' =>
      r = none ∧ Calm sb p ∅ m g' ∨ ∃ k name, r = some (k, name) ∧ Calm sb p ∅ (m.inc k) g' := by
  unfold namex
  split
  · exact (iget_calm lax.toKit hg hok.root).bind fun ip g1 h1 =>
      namexLoop_calm lax hok parent _ (Nat.lt_succ_self _) h1.1
  · exact (idupCwd_calm lax.toKit hg hcwd).bind fun ip g1 h1 =>
      namexLoop_calm lax hok parent _ (Nat.lt_succ_self _) h1.2

theorem namei_calm (lax : Lax sb p L) (hok : sb.Ok) (path : List Byte) (hg : Calm sb p ∅ m g)
    (hcwd : ∀ k, m.cwd = some k → 0 < m.ref k) :
    L.Gives g (namei sb p path) fun r g' =>
      r = none ∧ Calm sb p ∅ m g' ∨ ∃ k, r = some k ∧ Calm sb p ∅ (m.inc k) g' := by
  refine (namex_calm lax hok path false hg hcwd).bind fun r g1 h1 => ?_
  rcases h1 with ⟨rfl, hg1⟩ | ⟨k, name, rfl, hg1⟩
  · exact .pure (.inl ⟨rfl, hg1⟩)
  · exact .pure (.inr ⟨k, rfl, hg1⟩)

/-! ## `link` and `unlink` -/

theorem Hands.cwd_inc {k : Fin K} (h : ∀ k, m.cwd = some k → 0 < m.ref k) (l : Fin K)
    (hl : (m.inc k).cwd = some l) : 0 < (m.inc k).ref l :=
  lt_of_lt_of_le (h l hl) (m.le_inc k l)

theorem readInum_gives (kit : Kit sb p L) (hp : Pinned p g k) :
    L.Gives g (Code.read fun s : Fsys P K M => (s.inode k).inum) fun i g' => g' = g ∧ i < sb.ninodes ∧
      i = g.inum k := by
  refine (kit.read _).mono fun i g' h => ?_
  obtain ⟨rfl, h, hr, hi, rfl⟩ := h
  have hrp := kit.rely _ _ hr
  exact ⟨rfl, (hi.table.inum k (hi.table.ref_pos (hrp.pinned.2 hp))).2, (hrp.pin k hp).2⟩

theorem sameBlocks_nlink (f : BitVec 16 → BitVec 16) (d : Dinode) :
    SameBlocks d { d with nlink := f d.nlink } := ⟨rfl, rfl, rfl⟩

theorem sysLink_calm (lax : Lax sb p L) (hok : sb.Ok) (old new : List Byte) (hg : Calm sb p ∅ m g)
    (hcwd : ∀ k, m.cwd = some k → 0 < m.ref k) :
    L.Gives g (sysLink sb p old new) fun _ g' => Calm sb p ∅ m g' := by
  have kit := lax.toKit
  refine (namei_calm lax hok old hg hcwd).bind fun r g1 h1 => ?_
  rcases h1 with ⟨rfl, hg1⟩ | ⟨ip, rfl, hg1⟩
  · exact .pure hg1
  have pin : ∀ {g'}, Calm sb p ∅ (m.inc ip) g' → Pinned p g' ip := fun h =>
    .inl (by rw [h.ref]; exact m.inc_pos ip)
  have back : ∀ {g'}, Calm sb p (insert ip ∅) (m.inc ip) g' → L.Gives g' (iunlockput sb p ip)
      fun _ g'' => Calm sb p ∅ m g'' := fun hg' =>
    (iunlockput_calm kit hok hg' (fun h => h.elim) (m.inc_pos ip)).mono fun _ g3 h3 => by
      rw [m.inc_dec] at h3
      exact h3.1
  dsimp only
  refine (ilock_calm kit lax.noType hg1 (pin hg1)).bind fun _ g2 h2 => ?_
  obtain ⟨hk2, hg2, _⟩ := h2
  refine (fields_gives kit (hg2.clean ip (.inl rfl)).lock).bind fun d g3 e => ?_
  obtain ⟨rfl, rfl⟩ := e
  split
  · exact (back hg2).bind fun _ g4 h4 => .pure h4
  refine sync_calm kit hok hg2 (.inl rfl) _ (sameBlocks_nlink (· + 1)) fun g4 hg4 _ => ?_
  refine (iunlock_calm kit hg4 hk2).bind fun _ g5 h5 => ?_
  -- the end, whether or not the entry could be made
  have fin : ∀ (ok : Bool) {g'}, Calm sb p ∅ (m.inc ip) g' → L.Gives g' (if ok = true then (do
        iput sb p ip
        return 0) else (do
        ilock sb p ip
        setFields ip fun d => { d with nlink := d.nlink - 1 }
        iupdate sb ip
        iunlockput sb p ip
        return -1) : FsM P K M ℤ) fun _ g'' => Calm sb p ∅ m g'' := by
    intro ok g6 hg6
    split
    · refine (iput_calm kit hok hg6 (m.inc_pos ip) fun h => h.elim).bind fun _ g7 h7 => ?_
      rw [m.inc_dec] at h7
      exact .pure h7.1
    · refine (ilock_calm kit lax.noType hg6 (pin hg6)).bind fun _ g7 h7 => ?_
      refine sync_calm kit hok h7.2.1 (.inl rfl) _ (sameBlocks_nlink (· - 1)) fun g8 hg8 _ => ?_
      exact (back hg8).bind fun _ g9 h9 => .pure h9
  refine (namex_calm lax hok new true h5.1 (m.cwd_inc hcwd)).bind fun r g6 h6 => ?_
  rcases h6 with ⟨rfl, hg6⟩ | ⟨dp, name, rfl, hg6⟩
  · exact fin false hg6
  dsimp only
  refine (ilock_calm kit lax.noType hg6 (.inl (by rw [hg6.ref]; exact (m.inc ip).inc_pos dp))).bind
    fun _ g7 h7 => ?_
  obtain ⟨hk7, hg7, _⟩ := h7
  refine (kit.read _).bind fun same g8 h8 => ?_
  obtain ⟨rfl, _⟩ := h8
  have hpin : Pinned p g8 ip := .inl (by
    rw [hg7.ref]
    exact lt_of_lt_of_le (m.inc_pos ip) ((m.inc ip).le_inc dp ip))
  refine (readInum_gives kit hpin).bind fun inum g9 h9 => ?_
  obtain ⟨rfl, hin, _⟩ := h9
  have unlock : ∀ {g'}, Calm sb p (insert dp ∅) ((m.inc ip).inc dp) g' → L.Gives g' (iunlockput sb p dp)
      fun _ g'' => Calm sb p ∅ (m.inc ip) g'' := fun hg' =>
    (iunlockput_calm kit hok hg' hk7 ((m.inc ip).inc_pos dp)).mono fun _ g11 h11 => by
      rw [(m.inc ip).inc_dec] at h11
      exact h11.1
  split
  · refine (dirlink_calm lax hok hg7 (.inl rfl) (fun k hk => ?_) hin).bind fun ok g10 h10 => ?_
    · rw [show k = dp from hk.resolve_right fun h => h.elim]
      exact (m.inc ip).inc_pos dp
    · exact (unlock h10.1).bind fun _ g11 h11 => fin ok h11
  · exact (unlock hg7).bind fun _ g11 h11 => fin false h11

theorem isdirempty_gives (kit : Kit sb p L) (hc : Clean sb p dp g) (hty : (g.d dp).type = T_DIR) :
    L.Gives g (isdirempty sb dp) fun r g' => g' = g ∧ (r = true ↔
      ∀ o, 32 ≤ o → o < (g.d dp).size.toNat → o % 16 = 0 → (g.dirent dp o).inum = 0) := by
  refine (fields_gives kit hc.lock).bind fun d g1 e => ?_
  obtain ⟨rfl, rfl⟩ := e
  exact isdiremptyLoop_gives kit hc hty _ (by decide) (by omega)

section
variable {ip : Fin K} {off : ℕ}

theorem giveBack_calm (kit : Kit sb p L) (hok : sb.Ok) (hk : ip ∉ insert dp (∅ : Set (Fin K)))
    (hg : Calm sb p (insert ip (insert dp ∅)) ((m.inc dp).inc ip) g) :
    L.Gives g (iunlockput sb p dp) fun _ g' => Calm sb p (insert ip ∅) (m.inc ip) g' := by
  have hne : dp ∉ insert ip (∅ : Set (Fin K)) := fun h =>
    hk (.inl (h.resolve_right fun h => h.elim).symm)
  rw [Set.insert_comm] at hg
  refine (iunlockput_calm kit hok hg hne ?_).mono fun _ g6 h6 => ?_
  · exact lt_of_lt_of_le (m.inc_pos dp) ((m.inc dp).le_inc ip dp)
  · rw [m.inc_inc_dec] at h6
    exact h6.1

theorem giveLast_calm (kit : Kit sb p L) (hok : sb.Ok) (hg : Calm sb p (insert ip ∅) (m.inc ip) g) :
    L.Gives g (iunlockput sb p ip) fun _ g' => Calm sb p ∅ m g' :=
  (iunlockput_calm kit hok hg (fun h => h.elim) (m.inc_pos ip)).mono fun _ g6 h6 => by
    rw [m.inc_dec] at h6
    exact h6.1

theorem unlinkKeep_calm (kit : Kit sb p L) (hok : sb.Ok) (hk : ip ∉ insert dp (∅ : Set (Fin K)))
    (hg : Calm sb p (insert ip (insert dp ∅)) ((m.inc dp).inc ip) g) :
    L.Gives g (do
      iunlockput sb p ip
      iunlockput sb p dp
      return -1 : FsM P K M ℤ) fun _ g' => Calm sb p ∅ m g' := by
  refine (iunlockput_calm kit hok hg hk ((m.inc dp).inc_pos ip)).bind fun _ g6 h6 => ?_
  rw [(m.inc dp).inc_dec] at h6
  exact (giveLast_calm kit hok h6.1).bind fun _ g7 h7 => .pure h7

theorem unlinkEnd_calm (kit : Kit sb p L) (hok : sb.Ok) (hk : ip ∉ insert dp (∅ : Set (Fin K)))
    (hg : Calm sb p (insert ip (insert dp ∅)) ((m.inc dp).inc ip) g) :
    L.Gives g (do
      iunlockput sb p dp
      setFields ip fun d => { d with nlink := d.nlink - 1 }
      iupdate sb ip
      iunlockput sb p ip
      return 0 : FsM P K M ℤ) fun _ g' => Calm sb p ∅ m g' := by
  refine (giveBack_calm kit hok hk hg).bind fun _ g6 hg6 => ?_
  refine sync_calm kit hok hg6 (.inl rfl) _ (sameBlocks_nlink (· - 1)) fun g7 hg7 _ => ?_
  exact (giveLast_calm kit hok hg7).bind fun _ g8 h8 => .pure h8

/-- the entry is cleared, and if it named a directory there is one less below `dp` -/
theorem unlinkRemove_calm (lax : Lax sb p L) (hok : sb.Ok) (hk : ip ∉ insert dp (∅ : Set (Fin K)))
    (ho : off % 16 = 0) (type : BitVec 16)
    (hg : Calm sb p (insert ip (insert dp ∅)) ((m.inc dp).inc ip) g) :
    L.Gives g (do
      let r ← writei sb p dp (kernelSrc fun _ => 0) off 16
      if r ≠ 16 then Code.panic .unlinkWritei
      if type = T_DIR then
        setFields dp fun d => { d with nlink := d.nlink - 1 }
        iupdate sb dp
      iunlockput sb p dp
      setFields ip fun d => { d with nlink := d.nlink - 1 }
      iupdate sb ip
      iunlockput sb p ip
      return 0 : FsM P K M ℤ) fun _ g' => Calm sb p ∅ m g' := by
  have kit := lax.toKit
  have e0 : ((0 : Byte) ++ (0 : Byte) : BitVec 16).toNat = 0 := by decide
  have h0 : ((0 : Byte) ++ (0 : Byte) : BitVec 16).toNat < sb.ninodes := by
    rw [e0]
    exact lt_trans Nat.zero_lt_one hok.root
  refine (writei_dir kit hok hg (f := fun _ => 0) (.inr (.inl rfl)) ho h0).bind fun r g6 h6 => ?_
  refine .ite (fun _ => (panic_gives lax.writei).bind fun _ _ h => h.elim) fun _ => ?_
  refine .ite (fun _ => ?_) fun _ => unlinkEnd_calm kit hok hk h6.1
  exact sync_calm kit hok h6.1 (.inr (.inl rfl)) _ (sameBlocks_nlink (· - 1)) fun g7 hg7 _ =>
    unlinkEnd_calm kit hok hk hg7

end

theorem sysUnlink_calm (lax : Lax sb p L) (hok : sb.Ok) (path : List Byte) (hg : Calm sb p ∅ m g)
    (hcwd : ∀ k, m.cwd = some k → 0 < m.ref k) :
    L.Gives g (sysUnlink sb p path) fun _ g' => Calm sb p ∅ m g' := by
  have kit := lax.toKit
  refine (namex_calm lax hok path true hg hcwd).bind fun r g1 h1 => ?_
  rcases h1 with ⟨rfl, hg1⟩ | ⟨dp, name, rfl, hg1⟩
  · exact .pure hg1
  dsimp only
  refine (ilock_calm kit lax.noType hg1 (.inl (by rw [hg1.ref]; exact m.inc_pos dp))).bind
    fun _ g2 h2 => ?_
  obtain ⟨hk2, hg2, _⟩ := h2
  split
  · exact (giveLast_calm kit hok hg2).bind fun _ g3 h3 => .pure h3
  refine (dirlookup_calm lax hg2 (.inl rfl)).bind fun r g3 h3 => ?_
  obtain ⟨_, _, ⟨rfl, hg3⟩ | ⟨ip, off, rfl, ho, hg3⟩⟩ := h3
  · exact (giveLast_calm kit hok hg3).bind fun _ g4 h4 => .pure h4
  dsimp only
  refine (ilock_calm kit lax.noType hg3 (.inl (by rw [hg3.ref]; exact (m.inc dp).inc_pos ip))).bind
    fun _ g4 h4 => ?_
  obtain ⟨hk4, hg4, _⟩ := h4
  refine (fields_gives kit (hg4.clean ip (.inl rfl)).lock).bind fun d g5 e => ?_
  obtain ⟨rfl, rfl⟩ := e
  have hlock := (hg4.clean ip (.inl rfl))
  refine .ite (fun _ => (panic_gives (kit.allow _ (.inr (.inr (.inl rfl))))).bind fun _ _ h => h.elim) fun _ => ?_
  refine .ite (fun hty => ?_) fun _ => unlinkRemove_calm lax hok hk4 ho _ hg4
  refine Logic.Gives.bind (Q := fun _ g' => g' = g5) ((isdirempty_gives kit hlock hty).bind
    fun b g6 h6 => .pure h6.1) fun keep g6 e => ?_
  subst e
  exact .ite (fun _ => unlinkKeep_calm kit hok hk4 hg4) fun _ => unlinkRemove_calm lax hok hk4 ho _ hg4

/-! ## `create` -/

theorem createLink_calm (lax : Lax sb p L) (hok : sb.Ok) {ip : Fin K} (type : BitVec 16)
    (hg : Calm sb p (insert ip (insert dp ∅)) ((m.inc dp).inc ip) g) :
    L.Gives g (createLink sb p dp ip name type) fun _ g' =>
      Calm sb p (insert ip (insert dp ∅)) ((m.inc dp).inc ip) g' ∧
        Types (insert ip (insert dp ∅)) g g' := by
  have kit := lax.toKit
  have hip : 0 < ((m.inc dp).inc ip).ref ip := (m.inc dp).inc_pos ip
  have hdp : 0 < ((m.inc dp).inc ip).ref dp :=
    lt_of_lt_of_le (m.inc_pos dp) ((m.inc dp).le_inc ip dp)
  have hpos : ∀ k ∈ insert ip (insert dp (∅ : Set (Fin K))), 0 < ((m.inc dp).inc ip).ref k := by
    rintro k (rfl | rfl | h)
    · exact hip
    · exact hdp
    · exact h.elim
  refine (readInum_gives kit (.inl (by rw [hg.ref]; exact hip))).bind fun inum g1 h1 => ?_
  obtain ⟨rfl, hin, _⟩ := h1
  refine (readInum_gives kit (.inl (by rw [hg.ref]; exact hdp))).bind fun pinum g2 h2 => ?_
  obtain ⟨rfl, hpin, _⟩ := h2
  have entry : ∀ {g'} (n : List Byte) {k i}, k ∈ insert ip (insert dp (∅ : Set (Fin K))) → i < sb.ninodes →
      Calm sb p (insert ip (insert dp ∅)) ((m.inc dp).inc ip) g' →
      Types (insert ip (insert dp ∅)) g2 g' →
      L.Gives g' (dirlink sb p k n i) fun _ g'' =>
        Calm sb p (insert ip (insert dp ∅)) ((m.inc dp).inc ip) g'' ∧
          Types (insert ip (insert dp ∅)) g2 g'' := fun n k i hk hi hg' ht' =>
    (dirlink_calm lax hok hg' hk hpos hi).mono fun _ g'' h => ⟨h.1, ht'.trans h.2⟩
  refine .ite (fun _ => ?_) fun _ => entry name (.inr (.inl rfl)) hin hg (.refl _ _)
  refine (entry dot (.inl rfl) hin hg (.refl _ _)).bind fun ok g3 h3 => ?_
  refine .ite (fun _ => ?_) fun _ => .pure h3
  refine (entry dotdot (.inl rfl) hpin h3.1 h3.2).bind fun ok g4 h4 => ?_
  exact .ite (fun _ => entry name (.inr (.inl rfl)) hin h4.1 h4.2) fun _ => .pure h4

theorem createFail_calm (kit : Kit sb p L) (hok : sb.Ok) {ip : Fin K}
    (hk : ip ∉ insert dp (∅ : Set (Fin K)))
    (hg : Calm sb p (insert ip (insert dp ∅)) ((m.inc dp).inc ip) g) :
    L.Gives g (do
      setFields ip fun d => { d with nlink := 0 }
      iupdate sb ip
      iunlockput sb p ip
      iunlockput sb p dp
      return none : FsM P K M (Option (Fin K))) fun r g' => r = none ∧ Calm sb p ∅ m g' := by
  refine sync_calm kit hok hg (.inl rfl) _ (sameBlocks_nlink fun _ => 0) fun g1 hg1 _ => ?_
  refine (iunlockput_calm kit hok hg1 hk ((m.inc dp).inc_pos ip)).bind fun _ g2 h2 => ?_
  rw [(m.inc dp).inc_dec] at h2
  exact (giveLast_calm kit hok h2.1).bind fun _ g3 h3 => .pure ⟨rfl, h3⟩

theorem createNew_calm (lax : Lax sb p L) (hok : sb.Ok) {ip : Fin K} (type major minor : BitVec 16)
    (hg : Calm sb p (insert dp ∅) ((m.inc dp).inc ip) g)
    (hty : Alone L → (sb.dinode g.s.blk (g.inum ip)).type = type) :
    L.Gives g (do
      ilock sb p ip
      setFields ip fun d => { d with major := major, minor := minor, nlink := 1 }
      iupdate sb ip
      if ← createLink sb p dp ip name type then
        if type = T_DIR then
          setFields dp fun d => { d with nlink := d.nlink + 1 }
          iupdate sb dp
        iunlockput sb p dp
        return some ip
      else
        setFields ip fun d => { d with nlink := 0 }
        iupdate sb ip
        iunlockput sb p ip
        iunlockput sb p dp
        return none : FsM P K M (Option (Fin K))) fun r g' => r = none ∧ Calm sb p ∅ m g' ∨
      r = some ip ∧ Calm sb p (insert ip ∅) (m.inc ip) g' ∧ (Alone L → (g'.d ip).type = type) := by
  have kit := lax.toKit
  refine (ilock_calm kit lax.noType hg (.inl (by rw [hg.ref]; exact (m.inc dp).inc_pos ip))).bind
    fun _ g1 h1 => ?_
  obtain ⟨hk, hg1, _, hi1, hb1, _⟩ := h1
  have ht1 : Alone L → (g1.d ip).type = type := fun al => by
    have e : g1.d ip = sb.dinode g1.s.blk (g1.inum ip) := (hg1.clean ip (.inl rfl)).disk
    rw [e, hi1, hb1 al]
    exact hty al
  have hsame : ∀ d : Dinode, SameBlocks d { d with major := major, minor := minor, nlink := 1 } :=
    fun d => ⟨rfl, rfl, rfl⟩
  refine sync_calm kit hok hg1 (.inl rfl) _ hsame fun g2 hg2 ht2 => ?_
  refine (createLink_calm lax hok type hg2).bind fun ok g3 h3 => ?_
  refine .ite (fun _ => ?_) fun _ => (createFail_calm kit hok hk h3.1).mono fun _ _ h => .inl h
  have fin : ∀ {g'}, Calm sb p (insert ip (insert dp ∅)) ((m.inc dp).inc ip) g' →
      Types (insert ip (insert dp ∅)) g1 g' →
      L.Gives g' (do
        iunlockput sb p dp
        return some ip : FsM P K M (Option (Fin K))) fun r g' => r = none ∧ Calm sb p ∅ m g' ∨
      r = some ip ∧ Calm sb p (insert ip ∅) (m.inc ip) g' ∧ (Alone L → (g'.d ip).type = type) := by
    intro g' hg' ht'
    have hne : dp ∉ insert ip (∅ : Set (Fin K)) := fun h =>
      hk (.inl (h.resolve_right fun h => h.elim).symm)
    have hg'' := hg'
    rw [Set.insert_comm] at hg''
    refine (iunlockput_calm kit hok hg'' hne ?_).bind fun _ g6 h6 => ?_
    · exact lt_of_lt_of_le (m.inc_pos dp) ((m.inc dp).le_inc ip dp)
    · rw [m.inc_inc_dec] at h6
      refine .pure (.inr ⟨rfl, h6.1, fun al => ?_⟩)
      rw [h6.2 ip (.inl rfl), ht' ip (.inl rfl)]
      exact ht1 al
  refine .ite (fun _ => ?_) fun _ => fin h3.1 (ht2.trans h3.2)
  exact sync_calm kit hok h3.1 (.inr (.inl rfl)) _ (sameBlocks_nlink (· + 1)) fun g4 hg4 ht4 =>
    fin hg4 ((ht2.trans h3.2).trans ht4)

/-- **`create`** gives an inode locked, and nothing else; alone it makes no file of a directory -/
theorem create_calm (lax : Lax sb p L) (hok : sb.Ok) (path : List Byte) (type major minor : BitVec 16)
    (hg : Calm sb p ∅ m g) (hcwd : ∀ k, m.cwd = some k → 0 < m.ref k) :
    L.Gives g (create sb p path type major minor) fun r g' => r = none ∧ Calm sb p ∅ m g' ∨
      ∃ ip, r = some ip ∧ Calm sb p (insert ip ∅) (m.inc ip) g' ∧
        (Alone L → type = T_FILE → (g'.d ip).type ≠ T_DIR) := by
  have kit := lax.toKit
  refine (namex_calm lax hok path true hg hcwd).bind fun r g1 h1 => ?_
  rcases h1 with ⟨rfl, hg1⟩ | ⟨dp, name, rfl, hg1⟩
  · exact .pure (.inl ⟨rfl, hg1⟩)
  dsimp only
  refine (ilock_calm kit lax.noType hg1 (.inl (by rw [hg1.ref]; exact m.inc_pos dp))).bind
    fun _ g2 h2 => ?_
  obtain ⟨hk2, hg2, _⟩ := h2
  refine (dirlookup_calm lax hg2 (.inl rfl)).bind fun r g3 h3 => ?_
  obtain ⟨_, _, ⟨rfl, hg3⟩ | ⟨ip, off, rfl, ho, hg3⟩⟩ := h3
  · dsimp only
    refine (kit.read _).bind fun dev g4 h4 => ?_
    obtain ⟨rfl, h', hr, hi, rfl⟩ := h4
    have hl := ((kit.rely _ _ hr).lock dp).2 (hg3.clean dp (.inl rfl)).lock
    rw [(hi.table.inum dp (hi.table.locked_ref hl)).1]
    refine (iallocLoop_calm kit hok hg3 type _ _).bind fun r g5 h5 => ?_
    obtain ⟨_, ⟨rfl, hg5⟩ | ⟨ip, rfl, hg5, hty⟩⟩ := h5
    · exact (giveLast_calm kit hok hg5).bind fun _ g6 h6 => .pure (.inl ⟨rfl, h6⟩)
    · refine (createNew_calm lax hok type major minor hg5 hty).mono fun r g6 h6 => h6.imp id ?_
      rintro ⟨rfl, hg6, hty6⟩
      refine ⟨ip, rfl, hg6, fun al e => ?_⟩
      rw [hty6 al, e]
      decide
  · dsimp only
    refine (iunlockput_calm kit hok hg3 hk2 ?_).bind fun _ g4 h4 => ?_
    · exact lt_of_lt_of_le (m.inc_pos dp) ((m.inc dp).le_inc ip dp)
    rw [m.inc_inc_dec] at h4
    refine (ilock_calm kit lax.noType h4.1 (.inl (by rw [h4.1.ref]; exact m.inc_pos ip))).bind
      fun _ g5 h5 => ?_
    obtain ⟨_, hg5, _⟩ := h5
    refine (fields_gives kit (hg5.clean ip (.inl rfl)).lock).bind fun d g6 e => ?_
    obtain ⟨rfl, rfl⟩ := e
    refine .ite (fun hty => .pure (.inr ⟨ip, rfl, hg5, fun _ _ e => ?_⟩)) fun _ =>
      (giveLast_calm kit hok hg5).bind fun _ g7 h7 => .pure (.inl ⟨rfl, h7⟩)
    rw [e] at hty
    exact absurd hty.2 (by decide)

end
end
end Xv6.FileSys
