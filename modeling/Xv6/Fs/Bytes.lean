import Xv6.Fs.Owned
import Xv6.Fs.Logged

/-!
# Files as arrays of bytes

`readi` and `writei` run alone, on an inode that the process has locked, in any state that satisfies the
invariant.

* `readi_rests`, `writei_only`   how they end: `readi` always returns, `writei` may find the log full;
* `Inv.readi`, `Inv.writei`   what they do;
* `writei_bytes`   **`writei` and `readi` implement a byte array, if the log has room**;
* `fileread_within_iff`   **when a read keeps to its count**;
* `writei_reports_iff`   **when a failed write changes only what it reports**.
-/

set_option linter.unusedSectionVars false

namespace Xv6.FileSys

section
variable {P : Type} [DecidableEq P] {K M : ℕ} {sb : FsSuper} {p : P} {k : Fin K} {g : Ghost P K M}

/-! ## Reading -/

/-- `readi` of an inode with all its blocks comes to its end and changes nothing -/
theorem readi_rests {s : Fsys P K M} (hc : (s.inode k).d.Covers s.blk) (dst : ℕ → Option Unit) {off n : ℕ}
    (hn : n < 2 ^ 32) : (readi sb k dst off n).Yields s fun _ s' => s' = s := by
  have hloop : ∀ n fuel tot o out, o + (n - tot) ≤ (s.inode k).d.size.toNat →
      (readiLoop sb k dst n fuel tot o out).Yields s fun _ s' => s' = s := by
    intro n fuel
    induction fuel with
    | zero => exact fun _ _ _ _ => .pure rfl
    | succ fuel ih =>
      intro tot o out ho
      refine .ite (fun hlt => ?_) fun _ => .pure rfl
      have hsize := hc.size
      have hbn : o / BSIZE < MAXFILE := (Nat.div_lt_iff_lt_mul (by decide)).2 (by omega)
      have h0 := hc.slot (o / BSIZE) (lt_of_le_of_lt (Nat.div_mul_le_self o BSIZE) (by omega))
      refine (bmap_there true hbn h0).bind fun a s1 h => ?_
      obtain ⟨-, rfl⟩ := h
      refine .ite (fun _ => .pure rfl) fun _ => .bind (Q := fun _ s2 => s2 = s1) (.read rfl) fun x s2 h => ?_
      subst h
      exact .ite (fun _ => .pure rfl) fun _ => ih _ _ _ (by omega)
  refine .bind (Q := fun d s1 => d = (s.inode k).d ∧ s1 = s) (.read ⟨rfl, rfl⟩) fun d s1 h => ?_
  obtain ⟨rfl, rfl⟩ := h
  refine .ite (fun _ => .pure rfl) fun h1 => ?_
  have hlt := (s1.inode k).d.size.isLt
  rw [not_or] at h1
  refine (hloop _ _ 0 off [] (by split <;> omega)).bind fun r s2 h => ?_
  obtain ⟨r, out⟩ := r
  cases r with
  | none => exact .pure h
  | some tot => exact .pure h

/-- the panics that the invariant excludes -/
def Excluded (m : FsPanic) : Prop :=
  ¬ (Tolerated m ∨ m = .ilockNoType ∨ m = .dirlookupNotDir ∨ m = .unlinkWritei)

/-! ## The code alone -/

section
variable [Fintype P]

/-- what the logic gives is what a run that comes to its end has done; and it excludes panics -/
theorem Inv.outcome {α : Type} {c : FsM P K M α} {Q : α → Ghost P K M → Prop} {A : FsPanic → Prop}
    (hi : Inv sb g) (h : (alone sb p).Gives g c Q) (he : c.Outcome g.s (fun _ _ => True) A) :
    c.Outcome g.s (fun a s' => ∃ g', g'.s = s' ∧ Inv sb g' ∧ Q a g') fun m => A m ∧ ¬ Excluded m := by
  unfold Code.Outcome at he ⊢
  cases hr : c.run g.s with
  | ok r =>
    obtain ⟨g', hg, g'', rfl, hQ⟩ :=
      Logic.Safe.of_run (L := alone sb p) h (fun _ => trivial) ⟨rfl, hi⟩ hr
    exact ⟨g', hg.1, hg.2, hQ⟩
  | wait =>
    rw [hr] at he
    exact he
  | panic m =>
    rw [hr] at he
    exact ⟨he, not_not.2 (Logic.Safe.of_panic (L := alone sb p) h (fun _ => trivial) ⟨rfl, hi⟩ hr)⟩

theorem Inv.yields {α : Type} {c : FsM P K M α} {Q : α → Ghost P K M → Prop} {R : α → Fsys P K M → Prop}
    (hi : Inv sb g) (h : (alone sb p).Gives g c Q) (hy : c.Yields g.s R) :
    c.Yields g.s fun a s' => ∃ g', g'.s = s' ∧ Inv sb g' ∧ Q a g' := by
  refine ((hi.outcome h (A := fun _ => False) ?_).mono (fun _ _ h => h) fun _ h => h.1).yields
  exact (Code.Outcome.of_yields hy).mono (fun _ _ _ => trivial) fun _ h => h

/-- **`readi`** changes nothing and gives the bytes that there are, or fails at one it cannot store -/
theorem Inv.readi (hi : Inv sb g) (hf : Full sb p k g) (dst : ℕ → Option Unit) (off : ℕ) {n : ℕ}
    (hn : n < 2 ^ 32) :
    (readi sb k dst off n).Yields g.s fun r s' => s' = g.s ∧
      ∃ l ≤ readLen (g.d k).size.toNat off n, r.2 = g.bytes k off l ∧
        (r.1 = l ∧ l = readLen (g.d k).size.toNat off n ∨
          r.1 = -1 ∧ ∃ i < readLen (g.d k).size.toNat off n, dst i = none) := by
  refine (hi.yields (readi_gives (alone_crowd sb p).toKit hf dst off hn) (readi_rests hf.covers dst hn)).mono ?_
  rintro r s' ⟨g', rfl, -, rfl, h⟩
  exact ⟨rfl, h⟩

/-! ## `fileread` -/

/-- a read keeps to its count: it stores and returns at most `max(n, 0)` bytes, and advances the offset by
what it returns, or not at all if it fails -/
structure Within (n : CInt) (off off' : BitVec 32) (r : ℤ) (out : List Byte) : Prop where
  stored : (out.length : ℤ) ≤ max n.toInt 0
  returned : r ≤ max n.toInt 0
  advance : (off'.toNat : ℤ) = off.toNat + max r 0

/-- a file of process `p` on the inode in entry `k`, which is not locked -/
structure Readable (sb : FsSuper) (p : P) (f : Fin M) (k : Fin K) (g : Ghost P K M) : Prop where
  inv : Inv sb g
  ref : 0 < (g.view p).fref f
  readable : (g.s.file f).readable = true
  type : (g.s.file f).type = .inode
  ip : (g.s.file f).ip = some k
  lock : g.s.lock k = none

namespace Readable
variable {f : Fin M}

theorem opens (h : Readable sb p f k g) : Opens g.s f k := by
  refine ⟨?_, h.ip⟩
  rw [h.type]
  exact fun e => (nomatch e)

theorem pinned (h : Readable sb p f k g) : Pinned p g k := .inr ⟨f, h.ref, h.opens⟩

theorem clean (h : Readable sb p f k g) : Clean sb p k (g.setLock k (some p)) :=
  h.inv.clean_take h.pinned h.lock (h.inv.agree.file f k h.opens).1

/-- **`fileread`**: what it stores and returns, and how it moves the offset -/
theorem fileread (h : Readable sb p f k g) (dst : ℕ → Option Unit) (n : CInt) :
    (fileread sb p f dst n).Yields g.s fun r s' =>
      ∃ l ≤ readLen (g.d k).size.toNat (g.s.file f).off.toNat n.toNat, r.2.length = l ∧
        (r.1 = l ∧ l = readLen (g.d k).size.toNat (g.s.file f).off.toNat n.toNat ∨
          r.1 = -1 ∧ ∃ i < readLen (g.d k).size.toNat (g.s.file f).off.toNat n.toNat, dst i = none) ∧
        (s'.file f).off = if r.1 > 0 then (g.s.file f).off + BitVec.ofInt 32 r.1 else (g.s.file f).off := by
  have href := h.inv.table.ref_pos h.pinned
  have hv := (h.inv.agree.file f k h.opens).1
  unfold FileSys.fileread
  refine Code.Yields.bind (Q := fun x s1 => x = g.s.file f ∧ s1 = g.s) (.read ⟨rfl, rfl⟩) fun x s1 e => ?_
  obtain ⟨rfl, rfl⟩ := e
  rw [h.readable, if_neg (by decide)]
  refine Code.Yields.bind (Q := fun ip s1 => ip = k ∧ s1 = g.s) (.act (r := (k, g.s)) ?_ ⟨rfl, rfl⟩)
    fun ip s1 e => ?_
  · rw [h.ip]
  obtain ⟨rfl, rfl⟩ := e
  -- the inode is not locked and in memory
  have hlock : (ilock sb p ip : FsM P K M Unit).Yields g.s fun _ s1 => s1 = (g.setLock ip (some p)).s := by
    refine Code.Yields.bind (Q := fun _ s1 => s1 = (g.setLock ip (some p)).s)
      (.act (r := ((), _)) ?_ rfl) fun _ s1 e => ?_
    · rw [if_neg (by omega), if_pos h.lock]
      rfl
    · subst e
      refine Code.Yields.bind (Q := fun b s1 => b = true ∧ s1 = (g.setLock ip (some p)).s)
        (.act (r := (true, _)) ?_ ⟨rfl, rfl⟩) fun b s1 e => ?_
      · exact if_pos hv
      · obtain ⟨rfl, rfl⟩ := e
        exact .pure rfl
  refine hlock.bind fun _ s1 e => ?_
  subst e
  refine Code.Yields.bind (Q := fun off s1 => off = (g.s.file f).off ∧ s1 = (g.setLock ip (some p)).s)
    (.read ⟨rfl, rfl⟩) fun off s1 e => ?_
  obtain ⟨rfl, rfl⟩ := e
  have hinv : Inv sb (g.setLock ip (some p)) := take_step h.inv h.pinned
  refine (hinv.readi h.clean.full dst _ n.isLt).bind fun r s1 hr => ?_
  obtain ⟨r, x⟩ := r
  obtain ⟨rfl, l, hl, hx, hres⟩ := hr
  have hlen : x.length = l := by
    rw [show x = _ from hx]
    exact bytes_length ..
  -- the inode is unlocked again
  have hunlock : ∀ s1 : Fsys P K M, s1.lock ip = some p → s1.inode = g.s.inode →
      (iunlock p ip : FsM P K M Unit).Yields s1 fun _ s' => s'.file = s1.file := by
    intro s1 h1 h2
    refine .act (r := ((), s1.setLock ip none)) (if_neg ?_) rfl
    rw [h1, h2, not_or]
    exact ⟨not_not.2 rfl, by omega⟩
  have hown : (g.setLock ip (some p)).s.lock ip = some p := setLock_self ..
  dsimp only at hres ⊢
  by_cases hpos : r > 0
  · rw [if_pos hpos]
    refine Code.Yields.bind (Q := fun _ s2 => s2.lock ip = some p ∧ s2.inode = g.s.inode ∧
      (s2.file f).off = (g.s.file f).off + BitVec.ofInt 32 r) (.modify ⟨hown, rfl, ?_⟩) fun _ s2 e => ?_
    · show (Function.update g.s.file f { g.s.file f with off := (g.s.file f).off + BitVec.ofInt 32 r } f).off = _
      rw [Function.update_self]
    · refine (hunlock s2 e.1 e.2.1).bind fun _ s3 e3 => .pure ⟨l, hl, hlen, hres, ?_⟩
      rw [if_pos hpos, e3]
      exact e.2.2
  · rw [if_neg hpos]
    refine (hunlock _ hown rfl).bind fun _ s3 e3 => .pure ⟨l, hl, hlen, hres, ?_⟩
    rw [if_neg hpos, e3]
    rfl

end Readable

/-- the count that goes to `readi` as a `uint`: a negative one is large, unless it wraps the offset -/
theorem readLen_count {size off : ℕ} (n : CInt) (hoff : off < 2 ^ 32) :
    (readLen size off n.toNat : ℤ) ≤ max n.toInt 0 ↔
      0 ≤ n.toInt ∨ -n.toInt ≤ off ∨ size ≤ off := by
  have hn := n.isLt
  have hint := BitVec.toInt_eq_toNat_cond n
  unfold readLen
  split at hint
  · -- the count is not negative
    refine iff_of_true ?_ (.inl (by omega))
    split
    · omega
    · have := Nat.min_le_left n.toNat (size - off)
      omega
  · by_cases hw : off + n.toNat < 2 ^ 32
    · rw [Nat.mod_eq_of_lt hw]
      split <;> omega
    · rw [if_pos (by omega)]
      exact iff_of_true (by omega) (.inr (.inl (by omega)))

theorem readLen_le {size off n : ℕ} : readLen size off n ≤ size - off := by
  unfold readLen
  split
  · exact Nat.zero_le _
  · exact Nat.min_le_right _ _

/-- **when a read keeps to its count**: if the count is not negative, or the offset is at least as large as
it is below zero, or there is nothing to read; otherwise it reads up to the end of the file -/
theorem fileread_within_iff {f : Fin M} (h : Readable sb p f k g) (n : CInt) :
    (∀ dst, (fileread sb p f dst n).Yields g.s fun r s' =>
      Within n (g.s.file f).off (s'.file f).off r.1 r.2) ↔
    0 ≤ n.toInt ∨ -n.toInt ≤ (g.s.file f).off.toNat ∨ (g.d k).size.toNat ≤ (g.s.file f).off.toNat := by
  rw [← readLen_count n (g.s.file f).off.isLt]
  generalize hL : readLen (g.d k).size.toNat (g.s.file f).off.toNat n.toNat = L
  constructor
  · intro hall
    -- all of the destination can be written
    obtain ⟨r, s', hrun, hw⟩ := hall fun _ => some ()
    obtain ⟨l, hl, hlen, hres, -⟩ := (h.fileread (fun _ => some ()) n).of_run hrun
    rw [hL] at hl hres
    rcases hres with ⟨hr, rfl⟩ | ⟨-, i, -, hi⟩
    · have := hw.returned
      omega
    · cases hi
  · intro hle dst
    refine (h.fileread dst n).mono fun r s' hr => ?_
    obtain ⟨l, hl, hlen, hres, hoff⟩ := hr
    rw [hL] at hl hres
    have hsz : L ≤ (g.d k).size.toNat - (g.s.file f).off.toNat := hL ▸ readLen_le
    have hlt := (g.d k).size.isLt
    refine ⟨by omega, ?_, ?_⟩
    · rcases hres with ⟨hr, -⟩ | ⟨hr, -⟩ <;> omega
    · rw [hoff]
      rcases hres with ⟨hr, rfl⟩ | ⟨hr, -⟩
      · rw [hr]
        by_cases h0 : (l : ℤ) > 0
        · rw [if_pos h0, BitVec.toNat_add, BitVec.ofInt_natCast, BitVec.toNat_ofNat, Nat.add_mod_mod,
            Nat.mod_eq_of_lt (by omega)]
          omega
        · rw [if_neg h0]
          omega
      · rw [hr, if_neg (by decide)]
        omega

/-! ## A byte array -/

/-- the other inodes, if nobody is changing them, keep their fields and their bytes -/
def OthersKept (sb : FsSuper) (k : Fin K) (g : Ghost P K M) (s' : Fsys P K M) : Prop :=
  (∀ l, l ≠ k → s'.inode l = g.s.inode l) ∧ ∀ j < sb.ninodes, j ≠ g.inum k → ¬ Busy g j →
    sb.dinode s'.blk j = sb.dinode g.s.blk j ∧ ∀ o < (sb.dinode g.s.blk j).size.toNat,
      (sb.dinode s'.blk j).content s'.blk o = (sb.dinode g.s.blk j).content g.s.blk o

theorem Local.othersKept {g' : Ghost P K M} (hi : Inv sb g) (h : Local sb (alone sb p) p k g g') :
    OthersKept sb k g g'.s := by
  refine ⟨fun l hl => h.inode_ne hl, fun j hj hne hb => ?_⟩
  have hnode := hi.agree.node j hj hb
  have hd := h.dinode j hj hne
  -- a block of `j` is not taken: it is not free
  have hblk : ∀ b, g.whose b = .node j → g'.s.blk b = g.s.blk b := by
    intro b hw
    have hwne : g.whose b ≠ .node (g.inum k) := by
      rw [hw]
      exact fun e => hne (Owner.node.inj e)
    have hloose : ¬ Loose (alone sb p) p g b := fun hl => by
      have := hl.2 (alone_alone sb p)
      rw [hw] at this
      cases this
    have hw' : g'.whose b ≠ .node (g.inum k) := fun e =>
      (h.taken b e).elim hwne hloose
    rcases h.kept b hwne hw' with ⟨-, hk⟩ | ⟨-, hl⟩
    · exact hk (hnode.data b hw).1
    · exact absurd hl hloose
  refine ⟨hd, fun o ho => ?_⟩
  have hmax : o / BSIZE < MAXFILE :=
    (Nat.div_lt_iff_lt_mul (by decide)).2 (lt_of_lt_of_le ho hnode.covers.size)
  have hslot : ∀ n, (sb.dinode g.s.blk j).slot g'.s.blk n = (sb.dinode g.s.blk j).slot g.s.blk n :=
    Dinode.slot_congr (fun _ => rfl) fun h0 => hblk _ (hnode.owns.indirect h0)
  have h0 := hnode.covers.slot _ (lt_of_le_of_lt (Nat.div_mul_le_self o BSIZE) ho)
  unfold Dinode.content
  rw [hd, hslot, hblk _ (hnode.owns.mem _ (fileSlot_lt hmax) h0)]

/-- `writei` starts behind the end, wraps, or goes behind the largest file -/
def OutOfRange (g : Ghost P K M) (k : Fin K) (off n : ℕ) : Prop :=
  (g.d k).size.toNat < off ∨ 2 ^ 32 ≤ off + n ∨ MAXFILE * BSIZE < off + n

/-- the log has no room for the blocks that a write may need -/
def NoRoom (sb : FsSuper) (g : Ghost P K M) (k : Fin K) (off n : ℕ) (m : FsPanic) : Prop :=
  m = .logTooBig ∧ ¬ OutOfRange g k off n ∧ min LOGSIZE (sb.nlog - 1) < g.s.lhN + writeiBlocks g.s k off n

/-- `writei` comes to its end but for a full log -/
theorem writei_only (hok : sb.Ok) (src : ℕ → Option Byte) {off n : ℕ} (hn : n < 2 ^ 32) :
    (writei sb p k src off n).Outcome g.s (fun _ _ => True) (· = .logTooBig) := by
  have hsz : sb.size ≤ 2 ^ 32 := by
    have := hok.size
    omega
  exact ((writei_logs hsz p src _ hn).outcome fun m s' h => h.1).mono (fun _ _ _ => trivial) fun _ h => h

/-- and if the log has room for what it needs, it comes to its end -/
theorem Inv.writei_ends (hok : sb.Ok) (src : ℕ → Option Byte) {off n : ℕ} (hn : n < 2 ^ 32)
    (hin : ¬ OutOfRange g k off n) :
    (writei sb p k src off n).Outcome g.s (fun _ _ => True) (NoRoom sb g k off n) := by
  have hsz : sb.size ≤ 2 ^ 32 := by
    have := hok.size
    omega
  refine ((writei_logs hsz p src _ hn).outcome fun m s' h => ⟨h.1, hin, ?_⟩).mono (fun _ _ _ => trivial)
    fun _ h => h
  have := not_room h.2
  omega

/-- `writei` of a range that it does not accept -/
theorem writei_refuses (src : ℕ → Option Byte) {off n : ℕ} (hn : n < 2 ^ 32) (h : OutOfRange g k off n) :
    (writei sb p k src off n).Yields g.s fun r s' => r = -1 ∧ s' = g.s := by
  have hmax : MAXFILE * BSIZE < 2 ^ 32 := by decide
  have hlt := (g.d k).size.isLt
  refine .bind (.read ⟨rfl, rfl⟩ : (fields k).Yields g.s fun d s' => d = g.d k ∧ s' = g.s) ?_
  rintro d s' ⟨rfl, rfl⟩
  refine .ite (fun _ => .pure ⟨rfl, rfl⟩) fun h1 => .ite (fun _ => .pure ⟨rfl, rfl⟩) fun h2 => ?_
  rw [not_or] at h1
  unfold OutOfRange at h
  omega

/-- what changes is logged -/
structure Tracks (s s' : Fsys P K M) : Prop where
  logged : ∀ b ∈ s.logged, b ∈ s'.logged
  blk : ∀ b, b ∉ s'.logged → s'.blk b = s.blk b

theorem Tracks.refl (s : Fsys P K M) : Tracks s s := ⟨fun _ h => h, fun _ _ => rfl⟩

theorem Tracks.trans {s s' s'' : Fsys P K M} (h : Tracks s s') (h' : Tracks s' s'') : Tracks s s'' :=
  ⟨fun b hb => h'.logged b (h.logged b hb), fun b hb =>
    (h'.blk b hb).trans (h.blk b fun hb' => hb (h'.logged b hb'))⟩

theorem Tracks.logAdd (s : Fsys P K M) (b : ℕ) (x : Block) : Tracks s (s.logAdd b x) := by
  refine ⟨fun c hc => List.mem_cons_of_mem _ hc, fun c hc => Function.update_of_ne ?_ _ _⟩
  rintro rfl
  exact hc List.mem_cons_self

theorem Tracks.logWrite {α : Type} {s s' : Fsys P K M} {b : ℕ} {x : Block} {a r : α}
    (h : s.logWrite sb b x a = .ok (r, s')) : Tracks s s' := by
  obtain ⟨-, rfl⟩ := Fsys.logWrite_ok h
  exact .logAdd s b x

/-- every act of the code logs what it changes -/
abbrev Logging {α : Type} (c : FsM P K M α) : Prop := c.Keeps (fun _ => True) Tracks

theorem balloc_logging (sb : FsSuper) (reading : Bool) : Logging (balloc sb reading : FsM P K M ℕ) := by
  suffices h : ∀ n b, Logging (ballocLoop sb reading n b : FsM P K M ℕ) from h _ _
  intro n
  induction n with
  | zero => exact fun _ => .pure 0
  | succ n ih =>
    intro b
    unfold ballocLoop
    split
    · refine .bind (.labelled trivial fun s r s' hx => ?_) fun r => ?_
      · dsimp only at hx
        split at hx
        · exact .logWrite hx
        · cases hx
          exact .refl _
      · cases r with
        | none => exact ih _
        | some a => exact .bind (.atom trivial fun s _ _ h => .logWrite h) fun _ => .pure a
    · exact .pure 0

theorem setFields_logging (k : Fin K) (f : Dinode → Dinode) : Logging (setFields k f : FsM P K M Unit) :=
  .modify trivial fun _ => ⟨fun _ h => h, fun _ _ => rfl⟩

theorem bmapAddr_logging (sb : FsSuper) (reading : Bool) (k : Fin K) (i : ℕ) :
    Logging (bmapAddr sb reading k i : FsM P K M ℕ) := by
  refine .bind (.read trivial .refl) fun d => ?_
  split
  · refine .bind (balloc_logging sb reading) fun a => ?_
    dsimp only
    split
    · exact .bind (setFields_logging ..) fun _ => .pure a
    · exact .pure a
  · exact .pure _

theorem bmap_logging (sb : FsSuper) (reading : Bool) (k : Fin K) (bn : ℕ) :
    Logging (bmap sb reading k bn : FsM P K M ℕ) := by
  unfold bmap
  split
  · exact bmapAddr_logging ..
  split
  · refine .bind (bmapAddr_logging ..) fun bp => ?_
    split
    · exact .pure 0
    refine .bind (.read trivial .refl) fun a => ?_
    split
    · refine .bind (balloc_logging sb reading) fun a => ?_
      dsimp only
      split
      · exact .bind (.atom trivial fun s _ _ h => .logWrite h) fun _ => .pure a
      · exact .pure a
    · exact .pure a
  · exact .panic trivial

/-- the length of the piece of the source that goes to the block of offset `off + t` -/
def chunkLen (off n t : ℕ) : ℕ := min (n - t) (BSIZE - (off + t) % BSIZE)

/-- a piece that is not the last one goes up to the end of its block -/
theorem chunkLen_next {off n t m : ℕ} (hm : chunkLen off n t = m) (hlt : t + m < n) :
    (off + (t + m)) / BSIZE = (off + t) / BSIZE + 1 := by
  have e := Nat.div_add_mod (off + t) BSIZE
  have hmod : (off + t) % BSIZE < BSIZE := Nat.mod_lt _ (by decide)
  have e2 : off + (t + m) = BSIZE * ((off + t) / BSIZE + 1) := by
    unfold chunkLen at hm
    rw [Nat.mul_add]
    omega
  rw [e2, Nat.mul_div_cancel_left _ (by decide)]

/-- how `writei` stops at `t`, with `w` bytes stored: it has written everything, or there is no block left;
or a piece can be copied in part only, and its block is changed without being logged -/
inductive Stops (k : Fin K) (src : ℕ → Option Byte) (off n t w : ℕ) (g g' : Ghost P K M) : Prop
  | whole (hw : w = t) (htracks : Tracks g.s g'.s)
      (hend : t = n ∨ t < n ∧ g.slot k (fileSlot ((off + t) / BSIZE)) = 0)
  | part (hw : w = t + mappedLen src t (chunkLen off n t))
      (hlt : mappedLen src t (chunkLen off n t) < chunkLen off n t)
      (hlog : ∀ b ∈ g.s.logged, b ∈ g'.s.logged)
      (hblk : ∀ b, b ∉ g'.s.logged → b ≠ g'.slot k (fileSlot ((off + t) / BSIZE)) →
        g'.s.blk b = g.s.blk b)
      (hslot : (off + t) / BSIZE < MAXFILE ∧ g'.slot k (fileSlot ((off + t) / BSIZE)) ≠ 0)
      (hfresh : g.slot k (fileSlot ((off + t) / BSIZE)) = 0 →
        g'.slot k (fileSlot ((off + t) / BSIZE)) ∈ g'.s.logged)
      (hold : g.slot k (fileSlot ((off + t) / BSIZE)) ≠ 0 →
        g'.slot k (fileSlot ((off + t) / BSIZE)) ∈ g'.s.logged →
        g.slot k (fileSlot ((off + t) / BSIZE)) ∈ g.s.logged)

/-- the log has no room -/
abbrev TooBig (m : FsPanic) : Prop := m = .logTooBig

theorem Inv.bmap (hok : sb.Ok) (hi : Inv sb g) (hg : Has sb p k g) {bn : ℕ} (hbn : bn < MAXFILE) :
    (bmap sb false k bn).Outcome g.s (fun a s1 => ∃ g1, g1.s = s1 ∧ Inv sb g1 ∧
      Grown sb (alone sb p) p k g g1 ∧ (a ≠ 0 → g1.slot k (fileSlot bn) = a) ∧
      (a = 0 → g.slot k (fileSlot bn) = 0) ∧ Tracks g.s s1 ∧
      (g.slot k (fileSlot bn) = 0 → a ≠ 0 → a ∈ s1.logged) ∧
      (g.slot k (fileSlot bn) ≠ 0 → s1 = g.s) ∧ LogsIn sb [a, g1.slot k NDIRECT] g.s s1 ∧
      ∀ m < MAXFILE, m ≠ bn → g1.slot k (fileSlot m) = g.slot k (fileSlot m)) TooBig := by
  have hsz : sb.size ≤ 2 ^ 32 := by
    have := hok.size
    omega
  obtain ⟨J, hJ⟩ := exists_settled g.s k
  have hlogs := (bmap_logs hsz false hbn hJ).outcome (B := TooBig) fun _ _ h => h.1
  have hwithin := (bmap_within (s := g.s) (k := k) hsz false hbn).outcome (B := fun _ => True)
    fun _ _ h => h
  have hgives := hi.outcome (bmap_gives (alone_crowd sb p).toKit hok hg hbn)
    (hlogs.mono (fun _ _ _ => trivial) fun _ h => h)
  have htracks := (bmap_logging sb false k bn).outcome .refl .trans hlogs
  refine (((hlogs.and hwithin).and hgives).and htracks).mono ?_ fun _ h => h.2
  rintro a s1 ⟨⟨⟨⟨J', -, -, hkeep, hfresh⟩, hin⟩, g1, rfl, hi1, hgrown, hne, hz, hothers⟩, htr⟩
  refine ⟨g1, rfl, hi1, hgrown, hne, fun ha => (hz ha).1, htr, hfresh, fun h => (hkeep h).1, ?_,
    fun m hm hmn => hothers _ (fileSlot_lt hm) (fileSlot_ne _) fun h => hmn (fileSlot_inj h)⟩
  rw [slot_addr (Nat.le_refl _)]
  exact hin

theorem Inv.writeiCopy (hok : sb.Ok) (hi : Inv sb g) {src : ℕ → Option Byte} {a o i m : ℕ}
    (hb : Mine p g a) :
    (writeiCopy sb p src a o i m).Outcome g.s (fun r s2 => ∃ g2, g2.s = s2 ∧ Inv sb g2 ∧
      (∃ lg, g2 = g.disk (Function.update g.s.blk a
        ((g.s.blk a).splice (o % BSIZE) src i (mappedLen src i m))) lg g.whose) ∧
      (r = true ∧ mappedLen src i m = m ∧ Tracks g.s s2 ∧ s2.logged = a :: g.s.logged ∨
        r = false ∧ mappedLen src i m < m ∧ s2.logged = g.s.logged ∧
          ∀ b, b ≠ a → s2.blk b = g.s.blk b)) TooBig := by
  have hle := mappedLen_le src i m
  have hact : (FileSys.writeiCopy sb p src a o i m).Outcome g.s (fun r s2 =>
      r = true ∧ mappedLen src i m = m ∧ Tracks g.s s2 ∧ s2.logged = a :: g.s.logged ∨
        r = false ∧ mappedLen src i m < m ∧ s2.logged = g.s.logged ∧
          ∀ b, b ≠ a → s2.blk b = g.s.blk b) TooBig := by
    by_cases hlt : mappedLen src i m < m
    · exact .of_yields (.act (r := (false, _)) (if_pos hlt)
        (.inr ⟨rfl, hlt, rfl, fun b hb => Function.update_of_ne hb _ _⟩))
    · exact (logWrite_ends (B := fun _ => True) (if_neg hlt)
        (.inl ⟨rfl, by omega, .logAdd .., rfl⟩) trivial).outcome fun _ _ h => h.1
  refine ((hi.outcome (writeiCopy_gives (alone_crowd sb p).toKit hok hb)
    (hact.mono (fun _ _ _ => trivial) fun _ h => h)).and hact).mono ?_ fun _ h => h.2
  rintro r s2 ⟨⟨g2, hg2, hi2, -, hdisk⟩, h⟩
  exact ⟨g2, hg2, hi2, hdisk, h⟩

/-- the blocks of the pieces that are still to be written are not logged by the call -/
def Untouched (k : Fin K) (m0 : ℕ) (g g' : Ghost P K M) : Prop :=
  ∀ m < MAXFILE, m0 ≤ m → g.slot k (fileSlot m) ≠ 0 → g.slot k (fileSlot m) ∈ g'.s.logged →
    g.slot k (fileSlot m) ∈ g.s.logged

/-- one turn of the loop logs its own block, the indirect block and no other data block -/
theorem Untouched.turn {g0 g1 : Ghost P K M} {bn a : ℕ} {lg : List ℕ} {blk : ℕ → Block} {w : ℕ → Owner P}
    (h : Untouched k bn g0 g) (hg : Has sb p k g1) (hold : ∀ m < NSLOT, g0.slot k m ≠ 0 → g1.slot k m = g0.slot k m)
    (ha : g1.slot k (fileSlot bn) = a) (hbn : bn < MAXFILE) (hin : LogsIn sb [a, g1.slot k NDIRECT] g.s g1.s)
    (hlg : lg = a :: g1.s.logged) : Untouched k (bn + 1) g0 (g1.disk blk lg w) := by
  intro m hm hle h0 hmem
  have hs := hold _ (fileSlot_lt hm) h0
  have h1 : g1.slot k (fileSlot m) ≠ 0 := fun e => h0 (hs.symm.trans e)
  have hne : ∀ n < NSLOT, g0.slot k (fileSlot m) = g1.slot k n → fileSlot m = n := fun n hn e =>
    hg.owns.inj _ _ (fileSlot_lt hm) hn h1 (hs.trans e)
  have hnot : g0.slot k (fileSlot m) ≠ a := fun e => by
    have := fileSlot_inj (hne _ (fileSlot_lt hbn) (e.trans ha.symm))
    omega
  have hmem : g0.slot k (fileSlot m) ∈ lg := hmem
  rw [hlg] at hmem
  rcases List.mem_cons.1 hmem with e | hmem
  · exact absurd e hnot
  rcases hin _ hmem with hmem | hlt | hmem
  · exact h m hm (by omega) h0 hmem
  · -- it is a data block
    have := (hg.data _ (hg.owns.mem _ (fileSlot_lt hm) h1)).1
    exact absurd hlt (Nat.not_lt.2 (this.trans_eq hs))
  · rcases List.mem_cons.1 hmem with e | hmem
    · exact absurd e hnot
    · exact absurd (hne NDIRECT (by decide) (List.mem_singleton.1 hmem)) (fileSlot_ne m)

/-- **the loop of `writei` alone**: what is stored, and what is logged -/
theorem Inv.writeiLoop (hok : sb.Ok) {g0 : Ghost P K M} {src : ℕ → Option Byte} {off n tot : ℕ}
    (hi : Inv sb g) (hs : Stored sb (alone sb p) p k src off tot g0 g) (hcut : Cut off n tot)
    (htracks : Tracks g0.s g.s) (hempty : tot < n → ∀ m < MAXFILE, (off + tot) / BSIZE ≤ m →
      g0.slot k (fileSlot m) = 0 → g.slot k (fileSlot m) = 0)
    (hlogged : tot < n → Untouched k ((off + tot) / BSIZE) g0 g)
    (hmapped : ∀ i < tot, (src i).isSome = true)
    (htot : tot ≤ n) (hmax : off + n ≤ MAXFILE * BSIZE) (fuel : ℕ) (hfuel : n - tot ≤ fuel) :
    (writeiLoop sb p k src n fuel tot (off + tot)).Outcome g.s (fun r s' => ∃ g' w, g'.s = s' ∧ Inv sb g' ∧
      r.2 = off + r.1 ∧ r.1 ≤ n ∧ Cut off n r.1 ∧ (∀ i < r.1, (src i).isSome = true) ∧
      Stored sb (alone sb p) p k src off w g0 g' ∧ Stops k src off n r.1 w g0 g') TooBig := by
  induction fuel generalizing tot g with
  | zero =>
    exact .pure ⟨g, tot, rfl, hi, rfl, htot, hcut, hmapped, hs, .whole rfl htracks (.inl (by omega))⟩
  | succ fuel ih =>
    unfold FileSys.writeiLoop
    refine .ite (fun hlt => ?_) fun hge =>
      .pure ⟨g, tot, rfl, hi, rfl, htot, hcut, hmapped, hs, .whole rfl htracks (.inl (by omega))⟩
    have hbn : (off + tot) / BSIZE < MAXFILE :=
      (Nat.div_lt_iff_lt_mul (by decide)).2 (by omega)
    refine (hi.bmap hok hs.has hbn).bind fun a s1 h1 => ?_
    obtain ⟨g1, rfl, hi1, hgrown, hne, hz, htr1, hfresh, hthere, hin, hothers⟩ := h1
    have hs1 := hs.grow hgrown
    have hold : g0.slot k (fileSlot ((off + tot) / BSIZE)) ≠ 0 →
        g.slot k (fileSlot ((off + tot) / BSIZE)) ≠ 0 := fun h0 => by
      rw [hs.slot _ (fileSlot_lt hbn) h0]
      exact h0
    refine .ite (fun ha => .pure ?_) fun ha => ?_
    · refine ⟨g1, tot, rfl, hi1, rfl, htot, hcut, hmapped, hs1, .whole rfl (htracks.trans htr1)
        (.inr ⟨hlt, ?_⟩)⟩
      by_contra h0
      exact hold h0 (hz ha)
    obtain rfl := hne ha
    have hmine := hgrown.has.mine (hgrown.has.owns.mem _ (fileSlot_lt hbn) ha)
    obtain ⟨m, hm⟩ : ∃ m, chunkLen off n tot = m := ⟨_, rfl⟩
    have hbound : 0 < m ∧ tot + m ≤ n ∧ m ≤ BSIZE - (off + tot) % BSIZE := by
      have : (off + tot) % BSIZE < BSIZE := Nat.mod_lt _ (by decide)
      unfold chunkLen at hm
      omega
    have hl := mappedLen_le src tot m
    dsimp only
    rw [show min (n - tot) (BSIZE - (off + tot) % BSIZE) = m from hm]
    refine (hi1.writeiCopy hok hmine).bind fun ok s2 h2 => ?_
    obtain ⟨g2, rfl, hi2, ⟨lg, rfl⟩, hok2⟩ := h2
    have hs2 := hs1.write hok (l := mappedLen src tot m) (by omega) hbn ha lg
    have hkept := (hgrown.has.write (L := alone sb p) hok (fileSlot_lt hbn) (fileSlot_ne _) ha
      ((g1.s.blk (g1.slot k (fileSlot ((off + tot) / BSIZE)))).splice ((off + tot) % BSIZE) src tot
        (mappedLen src tot m)) lg).2.2
    rcases hok2 with ⟨rfl, hlen, htr2, hlg⟩ | ⟨rfl, hlen, hlog, hblk⟩
    · have hmap' : ∀ i < tot + m, (src i).isSome = true := fun i hi => by
        by_cases hit : i < tot
        · exact hmapped i hit
        · have := mappedLen_mapped src tot m (i - tot) (by omega)
          rwa [show tot + (i - tot) = i by omega] at this
      rw [hlen] at hs2 hi2 htr2 hkept hlg
      rw [if_pos rfl, Nat.add_assoc, hlen]
      have hnext : tot + m < n → (off + (tot + m)) / BSIZE = (off + tot) / BSIZE + 1 :=
        fun h => chunkLen_next hm h
      refine ih hi2 hs2 ?_ ((htracks.trans htr1).trans htr2) (fun hlt' bn hb hle h0 => ?_) (fun hlt' => ?_)
        hmap' (by omega) (by omega)
      · rw [← hm]
        exact Cut.next off n tot hlt
      -- each turn has its own block, so a slot of a later turn is as it was
      · have := hnext hlt'
        refine (hkept _).trans ((hothers bn hb (by omega)).trans ?_)
        exact hempty hlt bn hb (by omega) h0
      · rw [hnext hlt']
        exact (hlogged hlt).turn hgrown.has (fun m hm h0 => hs1.slot m hm h0) rfl hbn hin hlg
    · rw [if_neg (by decide)]
      subst hm
      have hslot := hkept (fileSlot ((off + tot) / BSIZE))
      refine .pure ⟨_, _, rfl, hi2, rfl, htot, hcut, hmapped, hs2, .part rfl hlen (fun b hb => ?_)
        (fun b hb hne => ?_) ⟨hbn, ?_⟩ (fun h0 => ?_) fun h0 hmem => ?_⟩
      · rw [hlog]
        exact htr1.logged b (htracks.logged b hb)
      · rw [hlog] at hb
        rw [hslot] at hne
        rw [hblk b hne]
        exact (htracks.trans htr1).blk b hb
      · rw [hslot]
        exact ha
      · rw [hslot, hlog]
        exact hfresh (hempty hlt _ hbn (Nat.le_refl _) h0) ha
      · rw [hslot, hlog, hthere (hold h0), hs1.slot _ (fileSlot_lt hbn) h0] at hmem
        exact hlogged hlt _ hbn (Nat.le_refl _) h0 hmem

theorem Stops.sync (hok : sb.Ok) {src : ℕ → Option Byte} {off n t w : ℕ} {g' : Ghost P K M}
    (h : Stops k src off n t w g g') (hg : Has sb p k g') {d : Dinode} (ha : ∀ i, d.addr i = (g'.d k).addr i) :
    Stops k src off n t w g (g'.sync sb k d (sb.IBLOCK (g'.inum k) :: g'.s.logged)) := by
  have hslot := sync_slot hok hg (sb.IBLOCK (g'.inum k) :: g'.s.logged) ha
  have htr : Tracks g'.s (g'.sync sb k d (sb.IBLOCK (g'.inum k) :: g'.s.logged)).s := by
    refine ⟨fun b hb => List.mem_cons_of_mem _ hb, fun b hb => Function.update_of_ne ?_ _ _⟩
    rintro rfl
    exact hb List.mem_cons_self
  cases h with
  | whole hw htracks hend => exact .whole hw (htracks.trans htr) hend
  | part hw hlt hlog hblk hs hfresh hold =>
    refine .part hw hlt (fun b hb => htr.logged b (hlog b hb)) (fun b hb hne => ?_) ?_ (fun h0 => ?_)
      fun h0 hmem => hold h0 ?_
    · rw [hslot] at hne
      exact (htr.blk b hb).trans (hblk b (fun h => hb (htr.logged b h)) hne)
    · rw [hslot]
      exact hs
    · rw [hslot]
      exact htr.logged _ (hfresh h0)
    · -- the block of the dinode is not a data block
      rw [hslot] at hmem
      refine (List.mem_cons.1 hmem).resolve_left fun e => ?_
      have h1 := (hg.data _ (hg.owns.mem _ (fileSlot_lt hs.1) hs.2)).1
      have h2 := hok.iblock_lt_nmeta hg.lt
      exact absurd h1 (Nat.not_le.2 (lt_of_eq_of_lt e h2))

/-- **`writei` alone**: what is stored, and what is logged -/
theorem Inv.writei (hok : sb.Ok) (hi : Inv sb g) (hc : Clean sb p k g) {off n : ℕ} (hn : n < 2 ^ 32)
    (src : ℕ → Option Byte) :
    (writei sb p k src off n).Outcome g.s (fun r s' => r = -1 ∧ s' = g.s ∨
      ∃ (t w : ℕ) (g' : Ghost P K M), r = t ∧ g'.s = s' ∧ t ≤ n ∧ Cut off n t ∧
        (∀ i < t, (src i).isSome = true) ∧ t ≤ w ∧
        Wrote sb (alone sb p) p k src off t w g g' ∧ Stops k src off n t w g g' ∧
        ∀ o, o / BSIZE < MAXFILE → g.slot k (fileSlot (o / BSIZE)) ≠ 0 →
          g'.slot k (fileSlot (o / BSIZE)) = g.slot k (fileSlot (o / BSIZE)) ∧ g'.byte k o =
            if off ≤ o ∧ o < off + w then (src (o - off)).getD 0 else g.byte k o) TooBig := by
  have hmax : MAXFILE * BSIZE < 2 ^ 32 := by decide
  have hsz := hc.node.covers.size
  refine .bind (.of_yields (.read ⟨rfl, rfl⟩ : (fields k).Yields g.s fun d s' => d = g.d k ∧ s' = g.s)) ?_
  rintro d s' ⟨rfl, rfl⟩
  refine .ite (fun _ => .pure (.inl ⟨rfl, rfl⟩)) fun h1 => ?_
  refine .ite (fun _ => .pure (.inl ⟨rfl, rfl⟩)) fun h2 => ?_
  have hoff : off ≤ (g.d k).size.toNat := by
    by_contra h
    exact h1 (.inl (by omega))
  have hbound : off + n ≤ MAXFILE * BSIZE := by omega
  refine (hi.writeiLoop hok (.refl _ hc.has) (.inl rfl) (.refl _) (fun _ _ _ _ h => h)
    (fun _ _ _ _ _ h => h) (fun i hi => absurd hi (Nat.not_lt_zero i)) (Nat.zero_le n) hbound n
    (by omega)).bind fun r s1 h => ?_
  obtain ⟨t, o⟩ := r
  obtain ⟨g1, w, rfl, -, ho, htn, hcut, hmapped, hs, hstops⟩ := h
  dsimp only at ho htn hcut hmapped hstops ⊢
  subst ho
  have htw : t ≤ w := by
    cases hstops <;> omega
  generalize hd : (if off + t > (g1.d k).size.toNat then
    { g1.d k with size := BitVec.ofNat 32 (off + t) } else g1.d k) = d
  have haddr : ∀ i, d.addr i = (g1.d k).addr i := fun i => by
    rw [← hd]
    split <;> rfl
  refine .bind (.of_yields (.modify rfl : (setFields k _).Yields g1.s fun _ s2 => s2 = g1.s.setInode k
    ((g1.s.inode k).withD (if off + t > (g1.d k).size.toNat then
      { g1.d k with size := BitVec.ofNat 32 (off + t) } else g1.d k)))) ?_
  rintro _ _ rfl
  rw [hd]
  have hsync : (iupdate sb k).Outcome (g1.s.setInode k ((g1.s.inode k).withD d)) (fun _ s2 =>
      s2 = (g1.sync sb k d (sb.IBLOCK (g1.inum k) :: g1.s.logged)).s) TooBig := by
    have e : (g1.s.setInode k ((g1.s.inode k).withD d)).inode k = (g1.s.inode k).withD d :=
      Function.update_self ..
    unfold iupdate
    refine Code.Ends.outcome (A := Burst sb fun _ => True) (logWrite_ends rfl ?_ trivial) fun _ _ h => h.1
    rw [e]
    rfl
  refine hsync.bind ?_
  rintro _ _ rfl
  refine .pure (.inr ⟨t, w, _, rfl, rfl, htn, hcut, hmapped, htw,
    hs.wrote hok hc.full htw hoff (by omega) _ hd.symm, hstops.sync hok hs.has haddr, fun o hb h0 => ?_⟩)
  have e := hs.slot _ (fileSlot_lt hb) h0
  have h1 : g1.slot k (fileSlot (o / BSIZE)) ≠ 0 := by
    rw [e]
    exact h0
  refine ⟨(sync_slot hok hs.has _ haddr _).trans e, ?_⟩
  rw [sync_byte hok hs.has _ haddr hb h1, hs.byte o hb h1, if_pos h0]

/-- the first byte of the source that is not mapped, or `n` -/
def faultAt (src : ℕ → Option Byte) (n : ℕ) : ℕ := mappedLen src 0 n

/-- the first byte of the piece that it lies in -/
def pieceAt (src : ℕ → Option Byte) (off n : ℕ) : ℕ := (off + faultAt src n) / BSIZE * BSIZE - off

/-- a write at `off` that returns `t` changes only what it reports: the bytes of the file outside of
`[off, off + t)` are as before, and a buffer that is not in the transaction is as on the disk -/
structure Reported (k : Fin K) (off t : ℕ) (disk : ℕ → Block) (g : Ghost P K M) (s' : Fsys P K M) :
    Prop where
  size : (s'.inode k).d.size.toNat = max (g.d k).size.toNat (off + t)
  byte : ∀ o < (s'.inode k).d.size.toNat, o < off ∨ off + t ≤ o →
    (s'.inode k).d.content s'.blk o = g.byte k o
  clean : ∀ b, b ∉ s'.logged → ∀ j < BSIZE, s'.blk b j = disk b j

/-- the block that the source faults in does no harm: the file has no such block yet; or each byte that is
copied in front of the fault is what was there, or is behind the end of the file in a block that is in the
transaction -/
def Harmless (k : Fin K) (src : ℕ → Option Byte) (off n : ℕ) (g : Ghost P K M) : Prop :=
  faultAt src n < n → g.slot k (fileSlot ((off + pieceAt src off n) / BSIZE)) ≠ 0 →
    ∀ i, pieceAt src off n ≤ i → i < faultAt src n → src i = some (g.byte k (off + i)) ∨
      (g.d k).size.toNat ≤ off + i ∧ g.slot k (fileSlot ((off + pieceAt src off n) / BSIZE)) ∈ g.s.logged

/-- the file has no block behind one that is missing -/
def Packed (k : Fin K) (g : Ghost P K M) : Prop :=
  ∀ m n, m ≤ n → n < MAXFILE → g.slot k (fileSlot m) = 0 → g.slot k (fileSlot n) = 0

section
variable {src : ℕ → Option Byte} {off n t w : ℕ} {g' : Ghost P K M} {disk : ℕ → Block}

/-- a write that has written everything, or stops for want of blocks -/
theorem Wrote.reported (hw : Wrote sb (alone sb p) p k src off t t g g') (htr : Tracks g.s g'.s)
    (hdisk : ∀ b, b ∉ g.s.logged → ∀ j < BSIZE, g.s.blk b j = disk b j) :
    Reported k off t disk g g'.s := by
  refine ⟨hw.size, fun o ho hout => ?_, fun b hb j hj => ?_⟩
  · refine (hw.byte o ho).trans (if_neg ?_)
    omega
  · rw [htr.blk b hb]
    exact hdisk b (fun h => hb (htr.logged b h)) j hj

theorem le_faultAt (htn : t ≤ n) (hmapped : ∀ i < t, (src i).isSome = true) : t ≤ faultAt src n := by
  by_contra hlt
  have := mappedLen_stop src 0 n (by unfold faultAt at hlt; omega)
  rw [Nat.zero_add] at this
  have h := hmapped (mappedLen src 0 n) (by unfold faultAt at hlt; omega)
  rw [this] at h
  cases h

/-- the source faults in the piece that `writei` stops at -/
theorem faultAt_eq (hmapped : ∀ i < t, (src i).isSome = true)
    (hlt : mappedLen src t (chunkLen off n t) < chunkLen off n t) :
    faultAt src n = t + mappedLen src t (chunkLen off n t) := by
  have hn : t + chunkLen off n t ≤ n := by
    unfold chunkLen at hlt ⊢
    omega
  have hstop := mappedLen_stop src t _ hlt
  refine le_antisymm ?_ (le_faultAt (by omega) fun i hi => ?_)
  · by_contra h
    have := mappedLen_mapped src 0 n (t + mappedLen src t (chunkLen off n t)) (by unfold faultAt at h; omega)
    rw [Nat.zero_add, hstop] at this
    cases this
  · by_cases hit : i < t
    · exact hmapped i hit
    · have := mappedLen_mapped src t (chunkLen off n t) (i - t) (by omega)
      rwa [show t + (i - t) = i by omega] at this

theorem stray_div {i : ℕ} (hi : i < chunkLen off n t) :
    (off + t + i) / BSIZE = (off + t) / BSIZE := by
  refine (block_div ?_).1
  unfold chunkLen at hi
  omega

/-- a byte of the file that is written but not reported is stray -/
theorem stray_byte {o : ℕ} (hcut : Cut off n t) (hlt : 0 < chunkLen off n t)
    (ho : o / BSIZE = (off + t) / BSIZE) (hoff : off ≤ o) : off + t ≤ o := by
  have h1 := Nat.div_add_mod o BSIZE
  have h2 := Nat.div_add_mod (off + t) BSIZE
  rw [ho] at h1
  unfold chunkLen at hlt
  rcases hcut with h | h | h <;> omega

theorem pieceAt_eq (hcut : Cut off n t) (hmapped : ∀ i < t, (src i).isSome = true)
    (hlt : mappedLen src t (chunkLen off n t) < chunkLen off n t) : pieceAt src off n = t := by
  have hpos : t < n := by
    unfold chunkLen at hlt
    omega
  unfold pieceAt
  rw [faultAt_eq hmapped hlt, ← Nat.add_assoc, stray_div hlt]
  have h2 := Nat.div_add_mod (off + t) BSIZE
  rw [Nat.mul_comm] at h2
  rcases hcut with rfl | h | h <;> omega

/-- the bytes of the piece in front of the fault are mapped, and in one block -/
theorem piece_mapped (hmapped : ∀ i < t, (src i).isSome = true)
    (hlt : mappedLen src t (chunkLen off n t) < chunkLen off n t) {i : ℕ} (h1 : t ≤ i)
    (h2 : i < faultAt src n) : (off + i) / BSIZE = (off + t) / BSIZE ∧ (src i).isSome = true := by
  have hfault := faultAt_eq hmapped hlt
  have h3 : (off + t + (i - t)) / BSIZE = (off + t) / BSIZE := stray_div (n := n) (by omega)
  have h4 := mappedLen_mapped src 0 n i h2
  rw [Nat.zero_add] at h4
  rw [show off + t + (i - t) = off + i by omega] at h3
  exact ⟨h3, h4⟩

theorem pieceAt_le (src : ℕ → Option Byte) (off n : ℕ) : off + pieceAt src off n ≤ off + faultAt src n := by
  unfold pieceAt
  have := Nat.div_mul_le_self (off + faultAt src n) BSIZE
  omega

/-- a write that stops in front of the fault stops in front of its block, or in it -/
theorem div_le_pieceAt (hle : t ≤ faultAt src n) :
    (off + t) / BSIZE ≤ (off + pieceAt src off n) / BSIZE := by
  have h1 : (off + t) / BSIZE ≤ (off + faultAt src n) / BSIZE := Nat.div_le_div_right (by omega)
  refine h1.trans ((Nat.le_div_iff_mul_le (by decide)).2 ?_)
  unfold pieceAt
  omega

theorem exists_offset (q : ℕ) {j : ℕ} (hj : j < BSIZE) : ∃ o, o / BSIZE = q ∧ o % BSIZE = j := by
  refine ⟨BSIZE * q + j, ?_, ?_⟩
  · rw [Nat.mul_add_div (by decide), Nat.div_eq_of_lt hj, Nat.add_zero]
  · rw [Nat.mul_add_mod, Nat.mod_eq_of_lt hj]

end

/-- **when a failed write changes only what it reports**: if the piece that the source faults in does no
harm, and only then if the file has no block behind one that is missing -/
theorem writei_reports_iff (hok : sb.Ok) (hi : Inv sb g) (hc : Clean sb p k g) {off n : ℕ}
    (hn : n < 2 ^ 32) (src : ℕ → Option Byte) (disk : ℕ → Block)
    (hdisk : ∀ b, b ∉ g.s.logged → ∀ j < BSIZE, g.s.blk b j = disk b j) (hpack : Packed k g) :
    (writei sb p k src off n).Outcome g.s (fun r s' => r = -1 ∧ s' = g.s ∨
      ∃ t : ℕ, r = t ∧ t ≤ n ∧ (Reported k off t disk g s' ↔ Harmless k src off n g))
      (NoRoom sb g k off n) := by
  by_cases hout : OutOfRange g k off n
  · exact .of_yields ((writei_refuses src hn hout).mono fun _ _ h => .inl h)
  refine ((hi.writei hok hc hn src).and (Inv.writei_ends (p := p) hok src hn hout)).mono
    (fun r s' h => h.1.imp_right ?_) fun _ h => h.2
  rintro ⟨t, w, g', hr, rfl, htn, hcut, hmapped, htw, hw, hstops, hbyte⟩
  refine ⟨t, hr, htn, ?_⟩
  cases hstops with
  | whole he htracks hend =>
    rw [he] at hw
    refine ⟨fun _ hf h0 => absurd ?_ h0, fun _ => hw.reported htracks hdisk⟩
    have hle := le_faultAt htn hmapped
    rcases hend with rfl | ⟨htlt, hz⟩
    · omega
    -- the piece of the fault comes after a block that is missing
    · unfold OutOfRange at hout
      have hcase := pieceAt_le src off n
      exact hpack _ _ (div_le_pieceAt hle) ((Nat.div_lt_iff_lt_mul (by decide)).2 (by omega)) hz
  | part he hlt hlog hblk hslot hfresh hold =>
    have hfault := faultAt_eq hmapped hlt
    have hpiece := pieceAt_eq hcut hmapped hlt
    have hlen : t + chunkLen off n t ≤ n := by
      unfold chunkLen at hlt ⊢
      omega
    have hsub : ∀ i, off + i - off = i := fun i => by omega
    unfold Harmless
    rw [hpiece]
    constructor
    · intro h _ h0 i h1 h2
      obtain ⟨hdiv, hmap⟩ := piece_mapped hmapped hlt h1 h2
      obtain ⟨x, hx⟩ := Option.isSome_iff_exists.1 hmap
      obtain ⟨hs, hb⟩ := hbyte (off + i) (by rw [hdiv]; exact hslot.1) (by rw [hdiv]; exact h0)
      rw [if_pos (by omega), hsub, hx] at hb
      rw [hdiv] at hs
      by_cases hmem : g.slot k (fileSlot ((off + t) / BSIZE)) ∈ g'.s.logged
      · by_cases hsz : (g.d k).size.toNat ≤ off + i
        · exact .inr ⟨hsz, hold h0 (hs ▸ hmem)⟩
        · have := h.byte (off + i) (by rw [h.size]; omega) (.inr (by omega))
          rw [hx, ← this]
          exact .inl (congrArg some hb.symm)
      · -- the buffer is as on the disk, and so as before
        have hmod : (off + i) % BSIZE < BSIZE := Nat.mod_lt _ (by decide)
        have e1 := h.clean _ hmem _ hmod
        rw [← hdisk _ (fun hm => hmem (hlog _ hm)) _ hmod] at e1
        have e2 : g'.byte k (off + i) = g.byte k (off + i) := by
          show g'.s.blk (g'.slot k _) _ = g.s.blk (g.slot k _) _
          rw [hdiv, hs]
          exact e1
        rw [hx, ← e2]
        exact .inl (congrArg some hb.symm)
    · intro h
      have h := h (by omega)
      refine ⟨hw.size, fun o ho hout => ?_, fun b hb j hj => ?_⟩
      · refine (hw.byte o ho).trans ?_
        by_cases hc' : off ≤ o ∧ o < off + w
        · rw [if_pos hc']
          obtain ⟨i, rfl⟩ : ∃ i, o = off + i := ⟨o - off, by omega⟩
          obtain ⟨hdiv, -⟩ := piece_mapped (i := i) hmapped hlt (by omega) (by omega)
          have hsz : off + i < (g.d k).size.toNat := by
            have := lt_of_lt_of_eq ho hw.size
            omega
          have h0 := (hc.full.slot hsz).2
          rw [hdiv] at h0
          have := (h h0 i (by omega) (by omega)).resolve_right fun hr => by omega
          rw [hsub, this]
          rfl
        · rw [if_neg hc']
      · by_cases he : b = g'.slot k (fileSlot ((off + t) / BSIZE))
        · -- the block that is not logged, byte by byte
          subst he
          have h0 : g.slot k (fileSlot ((off + t) / BSIZE)) ≠ 0 := fun h0 => hb (hfresh h0)
          obtain ⟨o, hdiv, rfl⟩ := exists_offset ((off + t) / BSIZE) hj
          obtain ⟨hs, hbo⟩ := hbyte o (by rw [hdiv]; exact hslot.1) (by rw [hdiv]; exact h0)
          rw [hdiv] at hs
          have hkeep : g'.byte k o = g.byte k o := by
            rw [hbo]
            by_cases hc' : off ≤ o ∧ o < off + w
            · rw [if_pos hc']
              have hge := stray_byte hcut (by omega) hdiv hc'.1
              obtain ⟨i, rfl⟩ : ∃ i, o = off + i := ⟨o - off, by omega⟩
              have := (h h0 i (by omega) (by omega)).resolve_right fun hr => hb (hs ▸ hlog _ hr.2)
              rw [hsub, this]
              rfl
            · rw [if_neg hc']
          have e : g'.s.blk (g'.slot k (fileSlot (o / BSIZE))) (o % BSIZE) =
              g.s.blk (g.slot k (fileSlot (o / BSIZE))) (o % BSIZE) := hkeep
          rw [hdiv] at e
          rw [e, hs]
          rw [hs] at hb
          exact hdisk _ (fun hm => hb (hlog _ hm)) _ hj
        · rw [hblk b hb he]
          exact hdisk b (fun hm => hb (hlog b hm)) j hj

end

end

section
variable {P : Type} [DecidableEq P] [Fintype P] {K M : ℕ} {sb : FsSuper} {s : Fsys P K M}

/-- the next transaction starts with no blocks -/
def begun (s : Fsys P K M) : Fsys P K M := { s with logged := [] }

theorem AtRest.begun (h : AtRest sb s) : AtRest sb (begun s) :=
  ⟨h.image, h.lock, h.inum, h.uniq, h.refs, h.frefs, h.opened, h.mem, h.file⟩

theorem AtRest.of_calls {s' : Fsys P K M} {p : P} {l : List FsCall} (hs : AtRest sb s)
    (h : Pool.runAll (callsOf sb p l) s = some s') : AtRest sb s' := by
  obtain ⟨σ, ev, t, hσ, ht⟩ := FsSeq.of_calls hs h
  have hrest : AtRest sb (σ t).state := hσ.atRest fun p => by rw [ht]
  rwa [ht] at hrest

theorem AtRest.readable (h : AtRest sb s) {p : P} {fd : Fin NOFILE} {f : Fin M} {k : Fin K}
    (hfd : s.ofile p fd = some f) (hr : (s.file f).readable = true) (ht : (s.file f).type = .inode)
    (hip : (s.file f).ip = some k) : Readable sb p f k (Fsys.ghost sb s) := by
  refine ⟨h.inv, ?_, hr, ht, hip, h.lock k⟩
  show 0 < ∑ fd, if s.ofile p fd = some f then 1 else 0
  refine Finset.sum_pos' (fun _ _ => Nat.zero_le _) ⟨fd, Finset.mem_univ _, ?_⟩
  rw [if_pos hfd]
  exact Nat.one_pos

end

/-- process 0 has opened the root directory of the small file system, which has 64 bytes -/
theorem opened_root : ∃ g : Ghost (Fin 2) 3 2, Readable smallSuper 0 0 0 g ∧ (g.s.file 0).off = 0 ∧
    (g.d 0).size = 64 := by
  have key : ((Pool.runAll (callsOf smallSuper (0 : Fin 2) [.openAt [0x2f] O_RDONLY]) smallFs).map fun s =>
      (((s.file 0).readable, (s.file 0).type, (s.file 0).ip), s.ofile 0 ⟨0, by decide⟩, (s.file 0).off,
        (s.inode 0).d.size)) =
        some ((true, .inode, some 0), some 0, 0, 64) := by decide +kernel
  obtain ⟨s, hs, e⟩ := Option.map_eq_some_iff.1 key
  simp only [Prod.mk.injEq] at e
  obtain ⟨⟨h0, h1, h2⟩, h3, h4, h5⟩ := e
  exact ⟨_, (smallFs_atRest.of_calls hs).readable h3 h0 h1 h2, h4, h5⟩

/-- process 0 has written 2 bytes to the file `a` -/
def writtenCalls : List FsCall := [.openAt [0x61] O_RDWR, .write 0 (fun _ => some 9) 2]

/-- a file with one block at most -/
theorem packed_of_addr {P : Type} {K M : ℕ} {k : Fin K} {g : Ghost P K M}
    (h : ∀ i, 0 < i → i ≤ NDIRECT → (g.d k).addr i = 0) : Packed k g := by
  intro m n hle hn h0
  by_cases hn0 : n = 0
  · obtain rfl : m = n := by omega
    exact h0
  · by_cases hd : n < NDIRECT
    · rw [show fileSlot n = n from if_pos hd]
      exact (Dinode.slot_direct (by omega)).trans (h n (by omega) (by omega))
    · rw [show fileSlot n = n + 1 from if_neg hd]
      exact Dinode.slot_indirect_zero (by omega) (h NDIRECT (by decide) le_rfl)

theorem written_atRest : ∃ s, Pool.runAll (callsOf smallSuper (0 : Fin 2) writtenCalls) smallFs = some s ∧
    ((s.file 0).readable, (s.file 0).type, (s.file 0).ip) = (true, .inode, some 1) ∧
    s.ofile 0 ⟨0, by decide⟩ = some 0 ∧ (∀ i < 12, (s.inode 1).d.addr (i + 1) = 0) ∧
    ((s.inode 1).d.size, (s.inode 1).d.content s.blk 0) = (2, 9) := by
  have key : ((Pool.runAll (callsOf smallSuper (0 : Fin 2) writtenCalls) smallFs).map fun s =>
      (((s.file 0).readable, (s.file 0).type, (s.file 0).ip), s.ofile 0 ⟨0, by decide⟩,
        (List.range 12).all fun i => (s.inode 1).d.addr (i + 1) == 0,
        ((s.inode 1).d.size, (s.inode 1).d.content s.blk 0))) =
      some ((true, .inode, some 1), some 0, true, (2, 9)) := by decide +kernel
  obtain ⟨s, hs, e⟩ := Option.map_eq_some_iff.1 key
  simp only [Prod.mk.injEq, List.all_eq_true, List.mem_range, beq_iff_eq] at e ⊢
  exact ⟨s, hs, e⟩

/-- then a transaction begins, and process 0 locks the inode and writes 2 bytes from `src` -/
theorem written_file (src : ℕ → Option Byte) {r : ℤ} {x : Byte}
    (key : ((Pool.runAll (callsOf smallSuper (0 : Fin 2) writtenCalls) smallFs).map fun s =>
        ((writei smallSuper 0 1 src 0 2).run ((begun s).setLock 1 (some 0))).value.map fun w =>
          ((w.1, (w.2.inode 1).d.size), (w.2.inode 1).d.content w.2.blk 0)) = some (some ((r, 2), x))) :
    ∃ g : Ghost (Fin 2) 3 2, Inv smallSuper g ∧ Clean smallSuper 0 1 g ∧ Packed 1 g ∧ g.s.logged = [] ∧
      (g.d 1).size = 2 ∧ g.byte 1 0 = 9 ∧ (writei smallSuper 0 1 src 0 2).Yields g.s fun r' s' =>
        r' = r ∧ (s'.inode 1).d.size = 2 ∧ (s'.inode 1).d.content s'.blk 0 = x := by
  obtain ⟨s, hs, e, h3, ha, e'⟩ := written_atRest
  simp only [Prod.mk.injEq] at e e'
  obtain ⟨h0, h1, h2⟩ := e
  have hg := (smallFs_atRest.of_calls hs).begun.readable h3 h0 h1 h2
  refine ⟨_, take_step hg.inv hg.pinned, hg.clean, packed_of_addr fun i h1 h2 => ?_, rfl, e'.1, e'.2, ?_⟩
  · obtain ⟨j, rfl⟩ : ∃ j, i = j + 1 := ⟨i - 1, by omega⟩
    exact ha j h2
  rw [hs, Option.map_some, Option.some.injEq] at key
  obtain ⟨w, hrun, hw⟩ := Option.map_eq_some_iff.1 key
  simp only [Prod.mk.injEq] at hw
  exact ⟨w.1, w.2, Reply.ok_of_value hrun, hw.1.1, hw.1.2, hw.2⟩

/-- the second byte of a write is not mapped: the write returns 0, but the first byte is in the file, and
its block is not in the transaction -/
theorem writei_strays : ∃ (g : Ghost (Fin 2) 3 2) (disk : ℕ → Block), Inv smallSuper g ∧
    Clean smallSuper 0 1 g ∧ Packed 1 g ∧
    (∀ b, b ∉ g.s.logged → ∀ j < BSIZE, g.s.blk b j = disk b j) ∧
    (writei smallSuper 0 1 (fun i => if i = 0 then some 7 else none) 0 2).Yields g.s fun r s' =>
      r = 0 ∧ g.byte 1 0 = 9 ∧ (s'.inode 1).d.content s'.blk 0 = 7 ∧ ¬ Reported 1 0 0 disk g s' := by
  obtain ⟨g, hi, hc, hpack, -, -, h9, hw⟩ := written_file (fun i => if i = 0 then some 7 else none)
    (r := 0) (x := 7) (by decide +kernel)
  refine ⟨g, g.s.blk, hi, hc, hpack, fun _ _ _ _ => rfl, hw.mono fun r s' h => ?_⟩
  obtain ⟨hr, hsz, h7⟩ := h
  refine ⟨hr, h9, h7, fun hrep => ?_⟩
  have := hrep.byte 0 (by rw [hsz]; decide) (.inr (Nat.le_refl _))
  rw [h7, h9] at this
  exact absurd this (by decide)

/-- a write that fails at its second byte, and whose first byte was there already -/
theorem writei_reports_sample : ∃ (g : Ghost (Fin 2) 3 2) (disk : ℕ → Block), Inv smallSuper g ∧
    Clean smallSuper 0 1 g ∧ Packed 1 g ∧
    (∀ b, b ∉ g.s.logged → ∀ j < BSIZE, g.s.blk b j = disk b j) ∧
    (writei smallSuper 0 1 (fun i => if i = 0 then some 9 else none) 0 2).Yields g.s fun r s' =>
      r = 0 ∧ Reported 1 0 0 disk g s' := by
  obtain ⟨g, hi, hc, hpack, -, -, h9, hw⟩ := written_file (fun i => if i = 0 then some 9 else none)
    (r := 0) (x := 9) (by decide +kernel)
  refine ⟨g, g.s.blk, hi, hc, hpack, fun _ _ _ _ => rfl, ?_⟩
  have hrep := @writei_reports_iff _ _ _ _ _ _ _ _ _ smallFs_atRest.image.ok hi hc 0 2 (by decide)
    (fun i => if i = 0 then some 9 else none) g.s.blk (fun _ _ _ _ => rfl) hpack
  obtain ⟨r, s', hrun, hr, -⟩ := hw
  refine ⟨r, s', hrun, hr, ?_⟩
  rcases hrep.of_run hrun with ⟨h, -⟩ | ⟨t, ht, -, h⟩
  · rw [hr] at h
    cases h
  · obtain rfl : t = 0 := by omega
    refine h.2 fun _ _ i _ hlt => .inl ?_
    have : i < 1 := hlt
    obtain rfl : i = 0 := by omega
    exact congrArg some h9.symm

/-- a read of -1 bytes at offset 0 stores and returns all 64 bytes of the directory -/
theorem fileread_exceeds : ∃ g : Ghost (Fin 2) 3 2, Readable smallSuper 0 0 0 g ∧
    (fileread smallSuper 0 0 (fun _ => some ()) (-1)).Yields g.s fun r s' =>
      r.1 = 64 ∧ r.2.length = 64 ∧ ¬ Within (-1) (g.s.file 0).off (s'.file 0).off r.1 r.2 := by
  obtain ⟨g, hg, hoff, hsz⟩ := opened_root
  refine ⟨g, hg, (hg.fileread _ _).mono fun r s' h => ?_⟩
  obtain ⟨l, -, hlen, hres, -⟩ := h
  rw [hoff, hsz] at hres
  rcases hres with ⟨hr, hl⟩ | ⟨-, i, -, hi⟩
  · have hl : l = 64 := hl
    rw [hr, hlen, hl]
    refine ⟨rfl, rfl, fun hw => ?_⟩
    exact absurd hw.returned (by decide)
  · cases hi

theorem fileread_within_sample : ∃ g : Ghost (Fin 2) 3 2, Readable smallSuper 0 0 0 g ∧
    ∀ dst, (fileread smallSuper 0 0 dst 16).Yields g.s fun r s' =>
      Within 16 (g.s.file 0).off (s'.file 0).off r.1 r.2 := by
  obtain ⟨g, hg, -, -⟩ := opened_root
  exact ⟨g, hg, (fileread_within_iff hg 16).2 (.inl (by decide))⟩

end Xv6.FileSys
