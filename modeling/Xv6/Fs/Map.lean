import Xv6.Lib.Slots
import Xv6.Fs.Bytes

/-!
# Directories as finite maps

* `nameKey`   a name as directories compare it;
* `Dinode.dict`   the map that a directory stands for;
* `Inv.dirlookup`, `Inv.dirlink`   what the routines do, and how they end;
* `Directory.dirlink`   **`dirlink` adds one binding, or fails and changes none**.
-/

set_option linter.unusedSectionVars false

namespace Xv6
open Function (update_eq_self update update_self)
namespace FileSys

/-! ## Names -/

/-- a name as directories compare it: the first `DIRSIZ` bytes, up to a NUL -/
def nameKey (s : ℕ → Byte) : List Byte := ((List.range DIRSIZ).map s).takeWhile (· != 0)

theorem takeWhile_range'_eq_iff (s t : ℕ → Byte) (n i : ℕ) :
    ((List.range' i n).map s).takeWhile (· != 0) = ((List.range' i n).map t).takeWhile (· != 0) ↔
      ∀ j < n, (∀ l < j, s (i + l) ≠ 0) → s (i + j) = t (i + j) := by
  induction n generalizing i with
  | zero => exact iff_of_true rfl fun j hj => absurd hj (Nat.not_lt_zero j)
  | succ n ih =>
    rw [List.range'_succ, List.map_cons, List.map_cons]
    have hshift : (∀ j < n + 1, (∀ l < j, s (i + l) ≠ 0) → s (i + j) = t (i + j)) ↔
        s i = t i ∧ (s i ≠ 0 → ∀ j < n, (∀ l < j, s (i + 1 + l) ≠ 0) → s (i + 1 + j) = t (i + 1 + j)) := by
      constructor
      · intro h
        refine ⟨h 0 (Nat.succ_pos n) fun l hl => absurd hl (Nat.not_lt_zero l), fun h0 j hj hl => ?_⟩
        rw [Nat.add_assoc, Nat.add_comm 1 j]
        refine h (j + 1) (by omega) fun l hlj => ?_
        cases l with
        | zero => exact h0
        | succ l =>
          have := hl l (by omega)
          rwa [Nat.add_assoc, Nat.add_comm 1 l] at this
      · rintro ⟨h0, h1⟩ j hj hl
        cases j with
        | zero => exact h0
        | succ j =>
          have := h1 (hl 0 (Nat.succ_pos j)) j (by omega) fun l hlj => by
            have := hl (l + 1) (by omega)
            rwa [Nat.add_assoc, Nat.add_comm 1 l]
          rwa [Nat.add_assoc, Nat.add_comm 1 j] at this
    rw [hshift, List.takeWhile_cons, List.takeWhile_cons]
    by_cases h0 : s i = 0
    · rw [h0, if_neg (by decide)]
      by_cases ht : t i = 0
      · rw [ht, if_neg (by decide)]
        exact iff_of_true rfl ⟨rfl, fun h => absurd rfl h⟩
      · rw [if_pos (bne_iff_ne.2 ht)]
        exact iff_of_false (fun h => by cases h) fun h => ht h.1.symm
    · rw [if_pos (bne_iff_ne.2 h0)]
      by_cases ht : t i = 0
      · rw [ht, if_neg (by decide)]
        exact iff_of_false (fun h => by cases h) fun h => h0 h.1
      · rw [if_pos (bne_iff_ne.2 ht), List.cons.injEq, ih (i + 1)]
        exact and_congr_right fun _ => ⟨fun h _ => h, fun h => h h0⟩

theorem nameKey_eq_iff {s t : ℕ → Byte} :
    nameKey s = nameKey t ↔ ∀ j < DIRSIZ, (∀ l < j, s l ≠ 0) → s j = t j := by
  have h := takeWhile_range'_eq_iff s t DIRSIZ 0
  simp only [Nat.zero_add] at h
  unfold nameKey
  rw [List.range_eq_range']
  exact h

theorem strncmp_eq_zero_iff (s t : ℕ → Byte) (n i : ℕ) :
    strncmp s t n i = 0 ↔ ∀ j < n, (∀ l < j, s (i + l) ≠ 0) → s (i + j) = t (i + j) := by
  rw [← takeWhile_range'_eq_iff]
  induction n generalizing i with
  | zero => exact iff_of_true rfl rfl
  | succ n ih =>
    unfold strncmp
    rw [List.range'_succ, List.map_cons, List.map_cons, List.takeWhile_cons, List.takeWhile_cons]
    by_cases h : s i ≠ 0 ∧ s i = t i
    · rw [if_pos h, ih, ← h.2, if_pos (bne_iff_ne.2 h.1), if_pos (bne_iff_ne.2 h.1), List.cons.injEq]
      exact ⟨fun e => ⟨rfl, e⟩, fun e => e.2⟩
    · rw [if_neg h]
      have hsub : ((s i).toNat : ℤ) - (t i).toNat = 0 ↔ s i = t i := by
        rw [← BitVec.toNat_inj]
        omega
      rw [hsub]
      by_cases h0 : s i = 0
      · rw [h0, if_neg (by decide)]
        by_cases ht : t i = 0
        · rw [ht, if_neg (by decide)]
          exact iff_of_true rfl rfl
        · rw [if_pos (bne_iff_ne.2 ht)]
          exact iff_of_false (fun e => ht e.symm) fun e => by cases e
      · have hne : s i ≠ t i := fun e => h ⟨h0, e⟩
        rw [if_pos (bne_iff_ne.2 h0)]
        refine iff_of_false hne fun e => ?_
        split at e
        · exact hne (List.cons.inj e).1
        · cases e

/-- **`namecmp`** compares keys -/
theorem namecmp_eq_zero_iff {s t : ℕ → Byte} : namecmp s t = 0 ↔ nameKey s = nameKey t := by
  have h := strncmp_eq_zero_iff s t DIRSIZ 0
  simp only [Nat.zero_add] at h
  exact h.trans nameKey_eq_iff.symm

theorem nameKey_congr {s t : ℕ → Byte} (h : ∀ j < DIRSIZ, s j = t j) : nameKey s = nameKey t :=
  nameKey_eq_iff.2 fun j hj _ => h j hj

theorem nameKey_strncpy (t : ℕ → Byte) : nameKey (strncpy t) = nameKey t := by
  refine nameKey_eq_iff.2 fun j _ h => if_pos fun l hl h0 => h l hl ?_
  unfold strncpy
  rw [h0, ite_self]

/-! ## The map -/

/-- the name and the number of an entry that is in use -/
def Dirent.binding (de : Dirent) : Option (List Byte × ℕ) :=
  if de.inum = 0 then none else some (nameKey de.name, de.inum.toNat)

end FileSys

namespace Dinode
open FileSys

/-- entry `n` of a directory -/
def dirent (d : Dinode) (blk : ℕ → Block) (n : ℕ) : Dirent :=
  Dirent.load ((List.range 16).map fun i => d.content blk (16 * n + i))

/-- the bindings of a directory, in the order of its entries -/
def bindings (d : Dinode) (blk : ℕ → Block) (n : ℕ) : Option (List Byte × ℕ) :=
  (d.dirent blk n).binding

/-- how many entries there are -/
def entries (d : Dinode) : ℕ := d.size.toNat / 16

/-- the map from names to inode numbers that a directory stands for -/
def dict (d : Dinode) (blk : ℕ → Block) : List Byte → Option ℕ := Slots.get (d.bindings blk) d.entries

end Dinode

namespace FileSys

theorem Dirent.is_iff {de : Dirent} {name : List Byte} :
    de.Is name ↔ de.binding.map Prod.fst = some (nameKey (cstr name)) := by
  unfold Dirent.Is Dirent.binding
  rw [namecmp_eq_zero_iff]
  by_cases h : de.inum = 0
  · rw [if_pos h]
    exact iff_of_false (fun h' => h'.1 h) fun h' => by cases h'
  · rw [if_neg h]
    simp only [Option.map_some, Option.some.injEq]
    exact ⟨fun h' => h'.2.symm, fun h' => ⟨h, h'.symm⟩⟩

section
variable {P : Type} [DecidableEq P] {K M : ℕ} {sb : FsSuper} {p : P} {dp k : Fin K} {g g' : Ghost P K M}
  {name : List Byte}

/-- the directory in entry `dp` of the inode table -/
abbrev Ghost.bindings (g : Ghost P K M) (dp : Fin K) : ℕ → Option (List Byte × ℕ) :=
  (g.d dp).bindings g.s.blk

abbrev Ghost.dict (g : Ghost P K M) (dp : Fin K) : List Byte → Option ℕ := (g.d dp).dict g.s.blk

theorem Ghost.is_iff {o n : ℕ} (ho : o = 16 * n) :
    (g.dirent dp o).Is name ↔ Slots.Has (g.bindings dp) (nameKey (cstr name)) n := by
  subst ho
  exact Dirent.is_iff

theorem Ghost.dict_none (h : ∀ o < (g.d dp).size.toNat, o % 16 = 0 → ¬ (g.dirent dp o).Is name) :
    g.dict dp (nameKey (cstr name)) = none := by
  refine Slots.get_eq_none_iff.2 fun n hn hx => ?_
  unfold Dinode.entries at hn
  exact h (16 * n) (by omega) (by omega) ((Ghost.is_iff rfl).2 hx)

theorem Found.find {o : ℕ} (hf : Found g dp name 0 o) (h16 : (g.d dp).size.toNat % 16 = 0) :
    ∃ n, o = 16 * n ∧ Slots.find (g.bindings dp) (g.d dp).entries (nameKey (cstr name)) = some n ∧
      g.dict dp (nameKey (cstr name)) = some (g.dirent dp o).inum.toNat := by
  obtain ⟨-, hlt, ho, his, hno⟩ := hf
  have e : o = 16 * (o / 16) := by omega
  have hfind : Slots.find (g.bindings dp) (g.d dp).entries (nameKey (cstr name)) = some (o / 16) := by
    refine Slots.find_eq_some_iff.2 ⟨?_, (Ghost.is_iff e).1 his, fun j hj hx => ?_⟩
    · unfold Dinode.entries
      omega
    · exact hno (16 * j) (Nat.zero_le _) (by omega) (by omega) ((Ghost.is_iff rfl).2 hx)
  refine ⟨o / 16, e, hfind, ?_⟩
  show (Slots.find (g.bindings dp) (g.d dp).entries (nameKey (cstr name))).bind _ = _
  rw [hfind, Option.bind_some]
  show ((g.dirent dp (16 * (o / 16))).binding).map Prod.snd = _
  rw [← e]
  unfold Dirent.binding
  rw [if_neg his.1]
  rfl

/-! ## Entries that are written -/

theorem Dirent.binding_load (de : Dirent) :
    (Dirent.load ((List.range 16).map de.byte)).binding =
      if de.inum = 0 then none else some (nameKey de.name, de.inum.toNat) := by
  have hin : (Dirent.load ((List.range 16).map de.byte)).inum = de.inum := dirent_byte de
  have hname : nameKey (Dirent.load ((List.range 16).map de.byte)).name = nameKey de.name := by
    refine nameKey_congr fun j hj => ?_
    show ((List.range 16).map de.byte).getD (j + 2) 0 = _
    have hlt : j + 2 < 16 := by
      have : DIRSIZ = 14 := rfl
      omega
    rw [List.getD_eq_getElem?_getD, List.getElem?_map, List.getElem?_range hlt]
    show de.byte (j + 2) = _
    unfold Dirent.byte
    rw [if_neg (by omega), Nat.add_sub_cancel]
  unfold Dirent.binding
  rw [hin, hname]

theorem Wrote.bindings {L : Logic (Fsys P K M) (FsLabel P) FsPanic (Ghost P K M)} {f : ℕ → Byte} {n : ℕ}
    (hw : Wrote sb L p dp (kernelSrc f) (16 * n) 16 16 g g') (h16 : (g.d dp).size.toNat % 16 = 0) :
    (g'.d dp).entries = max (g.d dp).entries (n + 1) ∧
      ∀ j < (g'.d dp).entries, g'.bindings dp j =
        if j = n then (Dirent.load ((List.range 16).map f)).binding else g.bindings dp j := by
  have hsz := hw.size
  unfold Dinode.entries
  refine ⟨by omega, fun j hj => ?_⟩
  have hbyte : ∀ i < 16, g'.byte dp (16 * j + i) = if j = n then f i else g.byte dp (16 * j + i) := by
    intro i hi
    rw [hw.byte _ (by omega)]
    by_cases hjn : j = n
    · rw [if_pos hjn, if_pos (by omega), hjn, Nat.add_sub_cancel_left]
      rfl
    · rw [if_neg hjn, if_neg (by omega)]
  have hlist : (List.range 16).map (fun i => g'.byte dp (16 * j + i)) =
      if j = n then (List.range 16).map f else (List.range 16).map fun i => g.byte dp (16 * j + i) := by
    split
    · rename_i hjn
      exact List.map_congr_left fun i hi => (hbyte i (List.mem_range.1 hi)).trans (if_pos hjn)
    · rename_i hjn
      exact List.map_congr_left fun i hi => (hbyte i (List.mem_range.1 hi)).trans (if_neg hjn)
  show (Dirent.load ((List.range 16).map fun i => g'.byte dp (16 * j + i))).binding = _
  rw [hlist]
  split <;> rfl

theorem Wrote.bindings_none {L : Logic (Fsys P K M) (FsLabel P) FsPanic (Ghost P K M)}
    {src : ℕ → Option Byte} {off : ℕ} (hw : Wrote sb L p dp src off 0 0 g g')
    (hle : off ≤ (g.d dp).size.toNat) :
    (g'.d dp).entries = (g.d dp).entries ∧
      ∀ j < (g.d dp).entries, g'.bindings dp j = g.bindings dp j := by
  have hsz := hw.size
  unfold Dinode.entries
  refine ⟨by omega, fun j hj => ?_⟩
  have hlist : (List.range 16).map (fun i => g'.byte dp (16 * j + i)) =
      (List.range 16).map fun i => g.byte dp (16 * j + i) := by
    refine List.map_congr_left fun i hi => ?_
    have := List.mem_range.1 hi
    rw [hw.byte _ (by omega), if_neg (by omega)]
  show (Dirent.load ((List.range 16).map fun i => g'.byte dp (16 * j + i))).binding = _
  rw [hlist]
  rfl

/-! ## What the routines do -/

section
variable [Fintype P]

/-- entry `n` has the name and the number `i`, and `k` can be the entry of `i` in the inode table -/
structure FoundAt (sb : FsSuper) (g : Ghost P K M) (dp : Fin K) (name : List Byte) (k : Fin K) (n i : ℕ) :
    Prop where
  find : Slots.find (g.bindings dp) (g.d dp).entries (nameKey (cstr name)) = some n
  dict : g.dict dp (nameKey (cstr name)) = some i
  lt : i < sb.ninodes
  fits : Fits g k i

theorem FoundAt.entry {n i : ℕ} (h : FoundAt sb g dp name k n i) : n < (g.d dp).entries :=
  (Slots.find_eq_some_iff.1 h.find).1

theorem got_notLast (g : Ghost P K M) (k : Fin K) (i : ℕ) : ¬ Last (g.got p k i) k := by
  rintro ⟨h1, h2, -⟩
  unfold Ghost.got at h1 h2
  rw [tab_self] at h1 h2
  have h0 : (g.s.inode k).ref = 0 := Nat.succ.inj h1
  have h2 : ((g.s.inode k).valid && decide (0 < (g.s.inode k).ref)) = true := h2
  rw [h0] at h2
  simp at h2

theorem tab_tab (g : Ghost P K M) (ip ip' : Inode) (v v' : View K M) :
    (g.tab p k ip v).tab p k ip' v' = g.tab p k ip' v' := by
  unfold Ghost.tab Fsys.setInode
  simp only [Function.update_idem]

theorem tab_eq_self (g : Ghost P K M) : g.tab p k (g.s.inode k) (g.view p) = g := by
  unfold Ghost.tab Fsys.setInode
  rw [update_eq_self, update_eq_self]

theorem view_put_got (g : Ghost P K M) (k : Fin K) (i : ℕ) :
    ({ (g.got p k i).view p with
      ref := update ((g.got p k i).view p).ref k (((g.got p k i).view p).ref k - 1) } : View K M) =
      g.view p := by
  unfold Ghost.got
  rw [tab_view]
  ext l
  · show update (update (g.view p).ref k _) k _ l = _
    rw [Function.update_idem]
    show update (g.view p).ref k (update (g.view p).ref k _ k - 1) l = _
    rw [update_self, Nat.add_sub_cancel, update_eq_self]
  · rfl

theorem got_put_eq (g : Ghost P K M) (k : Fin K) (i : ℕ) : (g.got p k i).put p k =
    g.tab p k { g.s.inode k with
      dev := ROOTDEV, inum := i, valid := (g.s.inode k).valid && decide (0 < (g.s.inode k).ref) }
      (g.view p) := by
  unfold Ghost.put
  rw [view_put_got]
  unfold Ghost.got
  rw [tab_self, tab_tab]
  rfl

theorem got_put (hi : Inv sb g) {i : ℕ} (hf : Fits g k i) (h : 0 < (g.s.inode k).ref) :
    (g.got p k i).put p k = g := by
  rw [got_put_eq, decide_eq_true h, Bool.and_true, ← hf.same h, ← (hi.table.inum k h).1]
  exact tab_eq_self g

theorem iput_back (hi : Inv sb g) {i : ℕ} (hlt : i < sb.ninodes) (hf : Fits g k i) :
    Inv sb ((g.got p k i).put p k) ∧ (iput sb p k).Yields (g.got p k i).s fun _ s' =>
      s' = ((g.got p k i).put p k).s := by
  constructor
  · by_cases h : 0 < (g.s.inode k).ref
    · rw [got_put hi hf h]
      exact hi
    · have hpos : 0 < ((g.got p k i).view p).ref k := by
        unfold Ghost.got
        rw [tab_view]
        show 0 < update (g.view p).ref k ((g.view p).ref k + 1) k
        rw [update_self]
        exact Nat.succ_pos _
      refine (put_step (got_step hi hlt hf).1 hpos fun hl => ?_).1
      exact absurd (hi.table.locked_ref hl) h
  · refine .bind (.act (r := (false, ((g.got p k i).put p k).s)) (if_neg (got_notLast g k i)) ⟨rfl, rfl⟩ :
      (iputCheck p k).Yields _ fun r s' => r = false ∧ s' = ((g.got p k i).put p k).s) ?_
    rintro r s' ⟨rfl, rfl⟩
    exact .pure rfl

theorem dirlookup_alone (hc : Clean sb p dp g) (hty : (g.d dp).type = T_DIR) :
    (alone sb p).Gives g (dirlookup sb dp name) fun r g' =>
      r = none ∧ g' = g ∧ g.dict dp (nameKey (cstr name)) = none ∨
        ∃ k n i, r = some (k, 16 * n) ∧ FoundAt sb g dp name k n i ∧ g' = g.got p k i := by
  refine (dirlookup_gives (alone_crowd sb p).toKit hc fun h => absurd hty h).mono fun r g' h => ?_
  rcases h.2 with ⟨rfl, rfl, hno⟩ | ⟨k, o, rfl, hf, h', rfl, -, hfit, rfl, -⟩
  · exact .inl ⟨rfl, rfl, Ghost.dict_none hno⟩
  · obtain ⟨n, rfl, hfind, hdict⟩ := hf.find (hc.node.dir hty).1
    exact .inr ⟨k, n, _, rfl, ⟨hfind, hdict, hc.dirent_lt hty hf.2.2.1 hf.2.1, hfit⟩, rfl⟩

/-- what `dirlink` has done: the name is there; or the directory is full, and it has the greatest size or
there are no blocks left; or the entry is added, in the first empty place -/
inductive LinkResult (sb : FsSuper) (p : P) (dp : Fin K) (name : List Byte) (inum : ℕ) (g : Ghost P K M) :
    Bool → Ghost P K M → Prop
  | there (k : Fin K) (n i : ℕ) (hf : FoundAt sb g dp name k n i) :
      LinkResult sb p dp name inum g false ((g.got p k i).put p k)
  | large (hno : g.dict dp (nameKey (cstr name)) = none)
      (hall : ∀ n < (g.d dp).entries, g.bindings dp n ≠ none)
      (hmax : MAXFILE * BSIZE < (g.d dp).size.toNat + 16) : LinkResult sb p dp name inum g false g
  | blocks (g' : Ghost P K M) (hno : g.dict dp (nameKey (cstr name)) = none)
      (hall : ∀ n < (g.d dp).entries, g.bindings dp n ≠ none)
      (hfree : NoFree sb (alone sb p) g')
      (hw : Wrote sb (alone sb p) p dp (kernelSrc (Dirent.byte ⟨BitVec.ofNat 16 inum, strncpy (cstr name)⟩))
        (g.d dp).size.toNat 0 0 g g') : LinkResult sb p dp name inum g false g'
  | added (n : ℕ) (g' : Ghost P K M) (hno : g.dict dp (nameKey (cstr name)) = none)
      (hn : n ≤ (g.d dp).entries) (hempty : n < (g.d dp).entries → g.bindings dp n = none)
      (hmax : 16 * n + 16 ≤ MAXFILE * BSIZE)
      (hw : Wrote sb (alone sb p) p dp (kernelSrc (Dirent.byte ⟨BitVec.ofNat 16 inum, strncpy (cstr name)⟩))
        (16 * n) 16 16 g g') : LinkResult sb p dp name inum g true g'

theorem binding_eq_none_iff {n : ℕ} : g.bindings dp n = none ↔ (g.dirent dp (16 * n)).inum = 0 := by
  show (g.dirent dp (16 * n)).binding = none ↔ _
  unfold Dirent.binding
  split
  · exact iff_of_true rfl ‹_›
  · exact iff_of_false (fun h => by cases h) ‹_›

/-! ## How they end -/

/-- an entry of a directory is read -/
theorem Inv.readDirent (hi : Inv sb g) (hc : Clean sb p dp g) (hty : (g.d dp).type = T_DIR) {off : ℕ}
    (ho : off % 16 = 0) (hlt : off < (g.d dp).size.toNat) {m : FsPanic} (hm : Excluded m) :
    (readDirent sb dp off m).Yields g.s fun de s' => de = g.dirent dp off ∧ s' = g.s := by
  have ends : (FileSys.readDirent sb dp off m).Outcome g.s (fun _ _ => True) (· = m) := by
    refine .bind (.of_yields (readi_rests hc.node.covers kernelDst (by decide))) fun r s' _ => ?_
    obtain ⟨r, x⟩ := r
    exact .ite (fun _ => .bind (Q := fun _ _ => False) (.act rfl) fun _ _ h => h.elim) fun _ => .pure trivial
  refine ((hi.outcome (readDirent_gives (alone_crowd sb p).toKit hc hty ho hlt m) ends).mono (fun _ _ h => h)
    fun e h => ?_).yields.mono ?_
  · exact h.2 (h.1 ▸ hm)
  · rintro de s' ⟨g', rfl, -, rfl, rfl⟩
    exact ⟨rfl, rfl⟩

theorem dirlinkLoop_ends (hi : Inv sb g) (hc : Clean sb p dp g) (hty : (g.d dp).type = T_DIR) (n : ℕ)
    {off : ℕ} (ho : off % 16 = 0) : (dirlinkLoop sb dp n off).Yields g.s fun _ _ => True := by
  induction n generalizing off with
  | zero => exact .pure trivial
  | succ n ih =>
    refine .bind (.read ⟨rfl, rfl⟩ : (fields dp).Yields g.s fun d s' => d = g.d dp ∧ s' = g.s) ?_
    rintro d s' ⟨rfl, rfl⟩
    refine .ite (fun hlt => ?_) fun _ => .pure trivial
    refine (hi.readDirent hc hty ho hlt (by unfold Excluded Tolerated; decide)).bind ?_
    rintro de s' ⟨-, rfl⟩
    exact .ite (fun _ => .pure trivial) fun _ => ih (by omega)

/-- `iget` panics if the inode is not in the table and no entry is free -/
theorem iget_ends (dev inum : ℕ) (s : Fsys P K M) :
    (iget dev inum : FsM P K M (Fin K)).Outcome s (fun _ _ => True) fun m => m = .igetNoInodes ∧
      ∀ k, 0 < (s.inode k).ref ∧ ((s.inode k).dev = dev → (s.inode k).inum ≠ inum) := by
  refine .act ?_
  dsimp only
  cases h1 : (List.finRange K).find? fun k =>
      0 < (s.inode k).ref && (s.inode k).dev == dev && (s.inode k).inum == inum with
  | some k => trivial
  | none =>
    cases h2 : (List.finRange K).find? fun k => (s.inode k).ref == 0 with
    | some k => trivial
    | none =>
      refine ⟨rfl, fun k => ?_⟩
      have e1 := List.find?_eq_none.1 h1 k (List.mem_finRange k)
      have e2 := List.find?_eq_none.1 h2 k (List.mem_finRange k)
      rw [beq_iff_eq] at e2
      have hpos : 0 < (s.inode k).ref := Nat.pos_of_ne_zero e2
      refine ⟨hpos, fun hd hn => e1 ?_⟩
      simp [hpos, hd, hn]

/-- why a lookup cannot return: the name is there, its inode is not in the inode table, and the table is
full -/
def Crowded (g : Ghost P K M) (dp : Fin K) (name : List Byte) (m : FsPanic) : Prop :=
  m = .igetNoInodes ∧ ∃ i, g.dict dp (nameKey (cstr name)) = some i ∧
    ∀ k, 0 < (g.s.inode k).ref ∧ (g.s.inode k).inum ≠ i

theorem dirlookupLoop_ends (hi : Inv sb g) (hc : Clean sb p dp g) (hty : (g.d dp).type = T_DIR) (n : ℕ)
    {off : ℕ} (ho : off % 16 = 0) (hfirst : ∀ o < off, o % 16 = 0 → ¬ (g.dirent dp o).Is name) :
    (dirlookupLoop sb dp name n off).Outcome g.s (fun _ _ => True) (Crowded g dp name) := by
  induction n generalizing off with
  | zero => exact .pure trivial
  | succ n ih =>
    refine .bind (.of_yields (.read ⟨rfl, rfl⟩) :
      (fields dp).Outcome g.s (fun d s' => d = g.d dp ∧ s' = g.s) _) ?_
    rintro d s' ⟨rfl, rfl⟩
    refine .ite (fun hlt => ?_) fun _ => .pure trivial
    refine .bind (.of_yields (hi.readDirent hc hty ho hlt (by unfold Excluded Tolerated; decide))) ?_
    rintro de s' ⟨rfl, rfl⟩
    refine .ite (fun his => ?_) fun hnot => ih (by omega) fun o hlt h16 => ?_
    · refine .bind (.of_yields (.read ⟨rfl, rfl⟩) :
        (Code.read fun s : Fsys P K M => (s.inode dp).dev).Outcome g.s
          (fun dev s' => dev = (g.s.inode dp).dev ∧ s' = g.s) _) ?_
      rintro dev s' ⟨rfl, rfl⟩
      have hdev := (hi.table.inum dp (hi.table.locked_ref hc.lock)).1
      have hfound : Found g dp name 0 off := ⟨Nat.zero_le _, hlt, ho, his, fun o' _ => hfirst o'⟩
      obtain ⟨-, -, -, hdict⟩ := hfound.find (hc.node.dir hty).1
      refine ((iget_ends _ _ g.s).mono (fun _ _ h => h) fun m h => ⟨h.1, _, hdict, fun k => ?_⟩).bind
        fun _ _ _ => .pure trivial
      obtain ⟨hpos, hne⟩ := h.2 k
      exact ⟨hpos, hne ((hi.table.inum k hpos).1.trans hdev.symm)⟩
    · by_cases hlt' : o < off
      · exact hfirst o hlt' h16
      · obtain rfl : o = off := by omega
        exact hnot

/-- **`dirlookup`** gives the number that the map has -/
theorem Inv.dirlookup (hi : Inv sb g) (hc : Clean sb p dp g) (hty : (g.d dp).type = T_DIR) :
    (dirlookup sb dp name).Outcome g.s (fun r s' => ∃ g', g'.s = s' ∧ Inv sb g' ∧
      (r = none ∧ g' = g ∧ g.dict dp (nameKey (cstr name)) = none ∨
        ∃ k n i, r = some (k, 16 * n) ∧ FoundAt sb g dp name k n i ∧ g' = g.got p k i))
      (Crowded g dp name) := by
  refine (hi.outcome (dirlookup_alone hc hty) (A := Crowded g dp name) ?_).mono (fun _ _ h => h)
    fun _ h => h.1
  refine .bind (.of_yields (.read ⟨rfl, rfl⟩) :
    (fields dp).Outcome g.s (fun d s' => d = g.d dp ∧ s' = g.s) _) ?_
  rintro d s' ⟨rfl, rfl⟩
  exact .ite (fun h => absurd hty h) fun _ => dirlookupLoop_ends hi hc hty _ rfl
    fun o ho => absurd ho (Nat.not_lt_zero o)

/-- **`dirlink`** -/
theorem Inv.dirlink (hok : sb.Ok) (hi : Inv sb g) (hc : Clean sb p dp g) (hty : (g.d dp).type = T_DIR)
    (inum : ℕ) :
    (dirlink sb p dp name inum).Outcome g.s
      (fun r s' => ∃ g', g'.s = s' ∧ Inv sb g' ∧ LinkResult sb p dp name inum g r g')
      (fun m => Crowded g dp name m ∨ m = .logTooBig) := by
  have kit := (alone_crowd sb p (K := K) (M := M)).toKit
  refine ((hi.dirlookup hc hty).mono (fun _ _ h => h) fun _ h => .inl h).bind fun r s1 h1 => ?_
  obtain ⟨g1, rfl, hi1, ⟨rfl, rfl, hno⟩ | ⟨k, n, i, rfl, hf, rfl⟩⟩ := h1
  · have h16 : (g1.d dp).size.toNat % 16 = 0 := (hc.node.dir hty).1
    refine .bind (.of_yields (.read ⟨rfl, rfl⟩) :
      (fields dp).Outcome g1.s (fun d s' => d = g1.d dp ∧ s' = g1.s) _) ?_
    rintro d s' ⟨rfl, rfl⟩
    refine .bind (.of_yields (hi.yields (dirlinkLoop_gives kit hc hty _ rfl (Nat.zero_le _) (by omega))
      (dirlinkLoop_ends hi hc hty _ rfl))) ?_
    rintro off s3 ⟨g3, rfl, -, rfl, -, ho, hle, hempty, hlive⟩
    have hall : (g3.d dp).size.toNat ≤ off → ∀ n < (g3.d dp).entries, g3.bindings dp n ≠ none := by
      intro hge n hn hnone
      unfold Dinode.entries at hn
      exact hlive (16 * n) (Nat.zero_le _) (by omega) (by omega) (binding_eq_none_iff.1 hnone)
    refine .bind ((hi.outcome (writei_entry kit hok hc ho) (writei_only hok _ (by decide))).mono
      (fun _ _ h => h) fun _ h => .inr h.1) ?_
    rintro r s4 ⟨g4, rfl, hi4, h4⟩
    refine .pure ⟨g4, rfl, hi4, ?_⟩
    rcases h4 with ⟨rfl, rfl, hout⟩ | ⟨t, rfl, ht, -, hmax, h0, hw⟩
    · have hsz : (g4.d dp).size.toNat ≤ MAXFILE * BSIZE := hc.node.covers.size
      have hB : MAXFILE * BSIZE % 16 = 0 := by decide
      exact .large hno (hall (by omega)) (by omega)
    · rcases ht with rfl | rfl
      · have hge := (h0 rfl).2
        have e : off = (g3.d dp).size.toNat := by omega
        subst e
        exact .blocks g4 hno (hall hge) (h0 rfl).1 hw
      · obtain ⟨n, rfl⟩ := Nat.dvd_of_mod_eq_zero ho
        refine .added n g4 hno ?_ (fun hn => ?_) hmax hw
        · unfold Dinode.entries
          omega
        · unfold Dinode.entries at hn
          exact binding_eq_none_iff.2 (hempty (by omega))
  · obtain ⟨hback, hput⟩ := iput_back (p := p) hi hf.lt hf.fits
    refine .bind (.of_yields hput) ?_
    rintro _ _ rfl
    exact .pure ⟨_, rfl, hback, .there k n i hf⟩

/-- process `p` has a directory locked, and references to what it has locked; no two entries have the
same name -/
structure Directory (sb : FsSuper) (p : P) (dp : Fin K) (g : Ghost P K M) : Prop extends
    Clean sb p dp g where
  own : ∀ k, g.s.lock k = some p → 0 < (g.view p).ref k
  isDir : (g.d dp).type = T_DIR
  distinct : Slots.Distinct (g.bindings dp) (g.d dp).entries

/-! ## What they do to the map -/

/-- a directory of which the inode is the same, but for its count -/
theorem Directory.counted (hd : Directory sb p dp g) (hc : Clean sb p dp g') (h1 : g'.s.lock = g.s.lock)
    (h2 : g'.view p = g.view p) (h3 : g'.s.blk = g.s.blk) (h4 : g'.d dp = g.d dp) :
    Directory sb p dp g' ∧ g'.dict dp = g.dict dp := by
  refine ⟨⟨hc, fun k hk => ?_, by rw [h4]; exact hd.isDir, ?_⟩, ?_⟩
  · rw [h2]
    exact hd.own k (h1 ▸ hk)
  · rw [Ghost.bindings, h4, h3]
    exact hd.distinct
  · rw [Ghost.dict, h4, h3]

theorem Directory.wrote (hd : Directory sb p dp g) {f : ℕ → Byte} {off t : ℕ}
    (hw : Wrote sb (alone sb p) p dp (kernelSrc f) off t t g g') (ht : t = 0 ∨ t = 16) (ho : off % 16 = 0)
    (hle : off ≤ (g.d dp).size.toNat) (hin : ((f 1 ++ f 0 : BitVec 16)).toNat < sb.ninodes)
    (hdist : Slots.Distinct (g'.bindings dp) (g'.d dp).entries) : Directory sb p dp g' := by
  refine ⟨hw.clean hd.toClean (hw.dirOk hd.node.dir ht ho hle hin), fun k hk => ?_, ?_, hdist⟩
  · rw [hw.loc.view]
    exact hd.own k (hw.loc.lock ▸ hk)
  · rw [hw.kind.type]
    exact hd.isDir

/-- the directory is full, and it has the greatest size, or it needs a block and there is none -/
def CannotGrow (sb : FsSuper) (g : Ghost P K M) (dp : Fin K) : Prop :=
  (∀ n < (g.d dp).entries, g.bindings dp n ≠ none) ∧
    (MAXFILE * BSIZE < (g.d dp).size.toNat + 16 ∨
      g.slot dp (fileSlot ((g.d dp).size.toNat / BSIZE)) = 0 ∧ ∀ b < sb.size, sb.used g.s.blk b = true)

theorem Wrote.free {src : ℕ → Option Byte} {off t w bn : ℕ} (hc : Clean sb p dp g)
    (hw : Wrote sb (alone sb p) p dp src off t w g g') (hbn : bn * BSIZE < (g'.d dp).size.toNat)
    (h0 : g.slot dp (fileSlot bn) = 0) : ∃ b, g.whose b = .free := by
  have hs := hw.full.covers.slot bn hbn
  have hlt : bn < MAXFILE := by
    have := hw.full.covers.size
    by_contra hge
    have := Nat.mul_le_mul_right BSIZE (Nat.le_of_not_lt hge)
    omega
  refine ⟨g'.slot dp (fileSlot bn), ?_⟩
  have hmem := hw.full.owns.mem _ (fileSlot_lt hlt) hs
  rw [hw.loc.inum] at hmem
  rcases hw.loc.taken _ hmem with hold | hnew
  · -- it was a block of the directory, at another place
    obtain ⟨hb0, m, hm, e⟩ := hc.node.owns.all _ hold
    have hm0 : g.slot dp m ≠ 0 := fun h => hb0 (e.symm.trans h)
    have hk := hw.slot m hm hm0
    have := hw.full.owns.inj m (fileSlot bn) hm (fileSlot_lt hlt) (fun h => hm0 (hk.symm.trans h))
      (hk.trans e)
    rw [this] at hm0
    exact absurd h0 hm0
  · exact hnew.2 (alone_alone sb p)

theorem LinkResult.directory (hi : Inv sb g) (hok : sb.Ok) (hd : Directory sb p dp g) {inum : ℕ}
    (h0 : 0 < inum) (hin : inum < sb.ninodes) {r : Bool} (h : LinkResult sb p dp name inum g r g') :
    Directory sb p dp g' ∧
      (r = true → g.dict dp (nameKey (cstr name)) = none ∧ ¬ CannotGrow sb g dp ∧
        g'.dict dp = update (g.dict dp) (nameKey (cstr name)) (some inum)) ∧
      (r = false → g'.dict dp = g.dict dp ∧ (g.dict dp (nameKey (cstr name)) ≠ none ∨
        (∀ n < (g.d dp).entries, g.bindings dp n ≠ none) ∧
          (MAXFILE * BSIZE < (g.d dp).size.toNat + 16 ∨ ∀ b < sb.size, g'.whose b ≠ .free))) := by
  have h16 : (g.d dp).size.toNat % 16 = 0 := (hd.node.dir hd.isDir).1
  have hnum : (BitVec.ofNat 16 inum).toNat = inum := Nat.mod_eq_of_lt (lt_of_lt_of_le hin hok.ninodes)
  have hne : BitVec.ofNat 16 inum ≠ 0 := fun h => by
    rw [h] at hnum
    exact absurd hnum (by show ¬ 0 = inum; omega)
  have hbytes : ((Dirent.byte ⟨BitVec.ofNat 16 inum, strncpy (cstr name)⟩ 1 ++
      Dirent.byte ⟨BitVec.ofNat 16 inum, strncpy (cstr name)⟩ 0 : BitVec 16)).toNat < sb.ninodes := by
    rw [dirent_byte, hnum]
    exact hin
  cases h with
  | there k n i hf =>
    obtain ⟨h1, h2⟩ := hd.counted ((hd.toClean.got hi hf.fits).put (k := k)) rfl (by
      rw [got_put_eq]
      exact tab_view ..) rfl (by rw [put_d, got_d])
    refine ⟨h1, fun h => (nomatch h), fun _ => ⟨h2, .inl ?_⟩⟩
    rw [hf.dict]
    exact fun h => (nomatch h)
  | large hno hall hmax =>
    exact ⟨hd, fun h => (nomatch h), fun _ => ⟨rfl, .inr ⟨hall, .inl hmax⟩⟩⟩
  | blocks g' hno hall hfree hw =>
    obtain ⟨he, hb⟩ := hw.bindings_none (Nat.le_refl _)
    refine ⟨hd.wrote hw (.inl rfl) h16 (Nat.le_refl _) hbytes ?_, fun h => (nomatch h), fun _ =>
      ⟨?_, .inr ⟨hall, .inr (hfree (alone_alone sb p))⟩⟩⟩
    · rw [he]
      exact hd.distinct.of_eq hb
    · unfold Ghost.dict Dinode.dict
      rw [he]
      exact Slots.get_of_eq hb
  | added n g' hno hn hempty hmax hw =>
    obtain ⟨he, hb⟩ := hw.bindings h16
    have hnew : (Dirent.load ((List.range 16).map
        (Dirent.byte ⟨BitVec.ofNat 16 inum, strncpy (cstr name)⟩))).binding =
        some (nameKey (cstr name), inum) := by
      rw [Dirent.binding_load, if_neg hne, nameKey_strncpy, hnum]
    rw [hnew] at hb
    refine ⟨hd.wrote hw (.inr rfl) (by omega) ?_ hbytes (hd.distinct.put he hn hempty hb hno),
      fun _ => ⟨hno, fun hgrow => ?_, Slots.get_put he hn hempty hb hno⟩, fun h => (nomatch h)⟩
    · unfold Dinode.entries at hn
      omega
    · -- all entries are in use, so this is a new one
      have e : n = (g.d dp).entries := by
        by_contra hlt
        exact hgrow.1 n (by omega) (hempty (by omega))
      have hsz := hw.size
      unfold Dinode.entries at e
      obtain ⟨h1, h2⟩ := hgrow.2.resolve_left (by omega)
      have hlt : (g.d dp).size.toNat / BSIZE * BSIZE < (g'.d dp).size.toNat := by
        have := Nat.div_mul_le_self (g.d dp).size.toNat BSIZE
        omega
      obtain ⟨b, hbf⟩ := hw.free hd.toClean hlt h1
      obtain ⟨hb1, hb2⟩ := hi.store.free_data hbf
      exact (hi.store.bits b hb2).1 (h2 b hb2) hbf

/-- **`dirlink`** fails and changes no binding if the name is there or the directory cannot grow, and
otherwise adds exactly that binding -/
theorem Directory.dirlink (hok : sb.Ok) (hi : Inv sb g) (hd : Directory sb p dp g) {inum : ℕ} (h0 : 0 < inum)
    (hin : inum < sb.ninodes) :
    (dirlink sb p dp name inum).Outcome g.s (fun r s' => ∃ g', g'.s = s' ∧ Inv sb g' ∧ Directory sb p dp g' ∧
      (r = true → g.dict dp (nameKey (cstr name)) = none ∧ ¬ CannotGrow sb g dp ∧
        g'.dict dp = update (g.dict dp) (nameKey (cstr name)) (some inum)) ∧
      (r = false → g'.dict dp = g.dict dp))
      (fun m => Crowded g dp name m ∨ m = .logTooBig) := by
  refine (hi.dirlink hok hd.toClean hd.isDir inum).mono ?_ fun _ h => h
  rintro r s' ⟨g', rfl, hi', h⟩
  obtain ⟨h1, h2, h3⟩ := h.directory hi hok hd h0 hin
  exact ⟨g', rfl, hi', h1, h2, fun hr => (h3 hr).1⟩

end

end

end FileSys
end Xv6
