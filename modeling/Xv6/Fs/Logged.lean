import Xv6.Fs.Layout
import Xv6.Fs.File
import Xv6.Lib.Alone

/-!
# What `writei` gives to `log_write`

The code is run alone, from any state.  The blocks that a chunk of `filewrite` logs are data blocks, one
in each turn; bitmap blocks, one for each block that is allocated; the indirect block and its bitmap
block; and the block of the dinode.

* `balloc_logs`, `bmap_logs`   what an allocation logs;
* `writeiLoop_logs`   the sets along the loop, and how large they are;
* `writei_logs`   what `writei` logs, to its end or to the panic of a full log;
* `bmap_within`   of the data blocks it logs its own and the indirect one;
* `writei_log_fits`   **a chunk of `filewrite` logs at most `MAXOPBLOCKS` blocks**.
-/

set_option linter.unusedSectionVars false

namespace Xv6.FileSys
open Function (update update_self)

section
variable {P : Type} [DecidableEq P] {K M : ℕ} {sb : FsSuper} {k : Fin K} {s s' : Fsys P K M}

/-- the blocks in `new` are logged between the two states -/
def Logs (s s' : Fsys P K M) (new : List ℕ) : Prop := s'.logged = new ++ s.logged

theorem Logs.refl (s : Fsys P K M) : Logs s s [] := rfl

theorem Logs.trans {s'' : Fsys P K M} {l l' : List ℕ} (h : Logs s s' l) (h' : Logs s' s'' l') :
    Logs s s'' (l' ++ l) := by
  unfold Logs at *
  rw [h', h, List.append_assoc]

/-- the indirect block of the inode in entry `k` -/
def indirect (s : Fsys P K M) (k : Fin K) : ℕ := (s.inode k).d.addr NDIRECT

theorem freeBit_lt {x : Block} {b size n bi r : ℕ} (h : freeBit x b size n bi = some r) : b + r < size := by
  induction n generalizing bi with
  | zero => cases h
  | succ n ih =>
    unfold freeBit at h
    split at h
    · split at h
      · exact ih h
      · cases h
        assumption
    · cases h

/-! ## Room in the log -/

/-- `log_write` finds no room, in a state with `B` -/
def Burst (sb : FsSuper) (B : Fsys P K M → Prop) (e : FsPanic) (s : Fsys P K M) : Prop :=
  e = .logTooBig ∧ s.LogFull sb ∧ B s

theorem Burst.mono {B C : Fsys P K M → Prop} {e : FsPanic} (h : Burst sb B e s) (hC : B s → C s) :
    Burst sb C e s := ⟨h.1, h.2.1, hC h.2.2⟩

/-- an act that ends with `log_write` -/
theorem logWrite_ends {α : Type} {x : Fsys P K M → Reply FsPanic (α × Fsys P K M)}
    {l : Option (FsLabel P)} {Q : α → Fsys P K M → Prop} {B : Fsys P K M → Prop} {b : ℕ} {y : Block} {a : α}
    (hx : x s = s.logWrite sb b y a) (hQ : Q a (s.logAdd b y)) (hB : B s) :
    (Code.act l x .done : FsM P K M α).Ends (Burst sb B) s Q := by
  by_cases hf : s.LogFull sb
  · exact .act_panic (hx.trans (if_pos hf)) ⟨rfl, hf, hB⟩
  · exact .act (r := (a, s.logAdd b y)) (hx.trans (if_neg hf)) hQ

/-! ## Allocation -/

/-- a block is allocated and filled with zeros: it and its bitmap block are logged, or the disk is full and
nothing is -/
def Allocs (sb : FsSuper) (s : Fsys P K M) (a : ℕ) (s' : Fsys P K M) : Prop :=
  s'.inode = s.inode ∧ (a = 0 ∧ s' = s ∨
    a < sb.size ∧ s'.blk a = (fun _ => 0) ∧ ∃ c < sb.size, Logs s s' [a, sb.BBLOCK c])

/-- at most one bitmap block is logged -/
def Marks (sb : FsSuper) (s s' : Fsys P K M) : Prop :=
  ∃ new c, Logs s s' new ∧ ∀ b ∈ new, b = sb.BBLOCK c

theorem Marks.refl (sb : FsSuper) (s : Fsys P K M) : Marks sb s s := ⟨[], 0, rfl, fun _ hb => nomatch hb⟩

theorem ballocLoop_logs (sb : FsSuper) (reading : Bool) (n b : ℕ) (s : Fsys P K M) :
    (ballocLoop sb reading n b).Ends (Burst sb (Marks sb s)) s (Allocs sb s) := by
  induction n generalizing b with
  | zero => exact .pure ⟨rfl, .inl ⟨rfl, rfl⟩⟩
  | succ n ih =>
    unfold ballocLoop
    refine .ite (fun hb => ?_) fun _ => .pure ⟨rfl, .inl ⟨rfl, rfl⟩⟩
    cases hf : freeBit (s.blk (sb.BBLOCK b)) b sb.size BPB 0 with
    | none =>
      refine .bind (Q := fun r s' => r = none ∧ s' = s) (.act (r := (none, s)) ?_ ⟨rfl, rfl⟩) fun r s1 h => ?_
      · dsimp only
        rw [hf]
      · obtain ⟨rfl, rfl⟩ := h
        exact ih (b + BPB)
    | some bi =>
      refine .bind (Q := fun r s' => r = some (b + bi) ∧
          s' = s.logAdd (sb.BBLOCK b) ((s.blk (sb.BBLOCK b)).setBit bi))
        (logWrite_ends (b := sb.BBLOCK b) (y := (s.blk (sb.BBLOCK b)).setBit bi) (a := some (b + bi)) ?_
          ⟨rfl, rfl⟩ (.refl sb s)) fun r s1 h => ?_
      · dsimp only
        rw [hf]
      · obtain ⟨rfl, rfl⟩ := h
        refine .bind (Q := fun _ s2 => s2.inode = s.inode ∧ s2.blk (b + bi) = (fun _ => 0) ∧
          Logs s s2 [b + bi, sb.BBLOCK b]) (logWrite_ends rfl ⟨rfl, update_self .., rfl⟩
            ⟨[sb.BBLOCK b], b, rfl, fun c hc => List.mem_singleton.1 hc⟩) fun _ s2 h =>
          .pure ⟨h.1, .inr ⟨freeBit_lt hf, h.2.1, b, hb, h.2.2⟩⟩

theorem balloc_logs (sb : FsSuper) (reading : Bool) (s : Fsys P K M) :
    (balloc sb reading).Ends (Burst sb (Marks sb s)) s (Allocs sb s) := ballocLoop_logs sb reading _ _ s

/-- the entry `addrs[i]`: it is there, or a block is allocated for it -/
theorem bmapAddr_logs (hsz : sb.size ≤ 2 ^ 32) (reading : Bool) {i : ℕ} (hi : i ≤ NDIRECT) (s : Fsys P K M) :
    (bmapAddr sb reading k i).Ends (Burst sb fun s' => (s.inode k).d.addr i = 0 ∧ Marks sb s s') s fun a s' =>
      (s.inode k).d.addr i ≠ 0 ∧ a = (s.inode k).d.addr i ∧ s' = s ∨
      (s.inode k).d.addr i = 0 ∧ (a = 0 ∧ s' = s ∨ s'.blk a = (fun _ => 0) ∧
          ∃ c < sb.size, Logs s s' [a, sb.BBLOCK c]) ∧
        (∀ j, (s'.inode k).d.addr j = if j = i then a else (s.inode k).d.addr j) := by
  refine .bind (Q := fun d s1 => d = (s.inode k).d ∧ s1 = s) (.read ⟨rfl, rfl⟩) fun d s1 h => ?_
  obtain ⟨rfl, rfl⟩ := h
  refine .ite (fun h0 => ?_) fun h0 => .pure (.inl ⟨h0, rfl, rfl⟩)
  refine ((balloc_logs sb reading s1).mono (fun _ _ h => h) fun _ _ h => h.mono fun h => ⟨h0, h⟩).bind
    fun a s2 ha => ?_
  obtain ⟨hin, hlog⟩ := ha
  have hsame : a = 0 → ∀ j, (s2.inode k).d.addr j = if j = i then a else (s1.inode k).d.addr j := by
    intro ha j
    rw [hin]
    split
    · rename_i hj
      rw [hj, h0, ha]
    · rfl
  by_cases ha : a = 0
  · rw [if_neg (not_not.2 ha)]
    exact .pure (.inr ⟨h0, hlog.imp_right fun h => h.2, hsame ha⟩)
  · rw [if_pos ha]
    rcases hlog with hlog | ⟨halt, hzero, c, hc, hlog⟩
    · exact absurd hlog.1 ha
    refine .bind (Q := fun _ s3 => s3.blk a = (fun _ => 0) ∧ Logs s1 s3 [a, sb.BBLOCK c] ∧
      ∀ j, (s3.inode k).d.addr j = if j = i then a else (s1.inode k).d.addr j)
      (.modify ⟨hzero, hlog, fun j => ?_⟩) fun _ s3 h => .pure (.inr ⟨h0, .inr ⟨h.1, c, hc, h.2.1⟩, h.2.2⟩)
    show (update s2.inode k { s2.inode k with d := (s2.inode k).d.setAddr i a } k).d.addr j = _
    rw [update_self]
    show (Dinode.setAddr _ i a).addr j = _
    rw [Dinode.addr_setAddr hi (by omega), hin]

/-! ## `bmap` -/

/-- the indirect block, if there is one, is in `J` -/
structure Settled (s : Fsys P K M) (k : Fin K) (J : Finset ℕ) : Prop where
  mem : indirect s k ≠ 0 → indirect s k ∈ J
  none : indirect s k = 0 → J = ∅
  card : J.card ≤ 2

theorem exists_settled (s : Fsys P K M) (k : Fin K) : ∃ J, Settled s k J := by
  by_cases h : indirect s k = 0
  · exact ⟨∅, fun hn => absurd h hn, fun _ => rfl, by decide⟩
  · exact ⟨{indirect s k}, fun _ => Finset.mem_singleton_self _, fun h0 => absurd h0 h, by simp⟩

/-- **what `bmap` logs** for a block that is not there: the block, a bitmap block and blocks of `J'` -/
structure Maps (sb : FsSuper) (k : Fin K) (J : Finset ℕ) (s : Fsys P K M) (a : ℕ) (s' : Fsys P K M)
    (J' : Finset ℕ) : Prop where
  card : J'.card ≤ 2
  settled : a ≠ 0 → Settled s' k J'
  logs : ∃ new c, Logs s s' new ∧ ∀ b ∈ new, b = a ∨ b = sb.BBLOCK c ∨ b ∈ J'

/-- a block, a bitmap block and blocks of a set over `J` are logged, or some of them -/
def Parts (sb : FsSuper) (J : Finset ℕ) (s s' : Fsys P K M) : Prop :=
  ∃ J' new a c, J'.card ≤ 2 ∧ J ⊆ J' ∧ Logs s s' new ∧ ∀ b ∈ new, b = a ∨ b = sb.BBLOCK c ∨ b ∈ J'

theorem Marks.parts {J : Finset ℕ} (h : Marks sb s s') (hJ : J.card ≤ 2) : Parts sb J s s' := by
  obtain ⟨new, c, hl, hm⟩ := h
  exact ⟨J, new, 0, c, hJ, Finset.Subset.refl J, hl, fun b hb => .inr (.inl (hm b hb))⟩

/-- the part of `bmap` for an entry of the indirect block `bp` -/
theorem bmapEntry_logs (reading : Bool) (bp i : ℕ) (s : Fsys P K M) :
    (do
      let a ← Code.read fun s : Fsys P K M => ((s.blk bp).int i).toNat
      if a = 0 then
        let a ← balloc sb reading
        if a ≠ 0 then
          Code.atom fun s => s.logWrite sb bp ((s.blk bp).setInt i (BitVec.ofNat 32 a)) ()
        return a
      else return a : FsM P K M ℕ).Ends (Burst sb fun s' => ((s.blk bp).int i).toNat = 0 ∧
          ∃ new a c, Logs s s' new ∧ ∀ b ∈ new, b = a ∨ b = sb.BBLOCK c) s fun a s' => s'.inode = s.inode ∧
        (((s.blk bp).int i).toNat ≠ 0 → a ≠ 0 ∧ s' = s) ∧
        (((s.blk bp).int i).toNat = 0 → a ≠ 0 → a ∈ s'.logged) ∧
        ∃ new c, Logs s s' new ∧ ∀ b ∈ new, b = a ∨ b = sb.BBLOCK c ∨ b = bp := by
  refine .bind (Q := fun a s1 => a = ((s.blk bp).int i).toNat ∧ s1 = s) (.read ⟨rfl, rfl⟩)
    fun e s1 h => ?_
  obtain ⟨rfl, rfl⟩ := h
  refine .ite (fun h0 => ?_) fun h0 =>
    .pure ⟨rfl, fun _ => ⟨h0, rfl⟩, fun h => absurd h h0, [], 0, rfl, fun b hb => nomatch hb⟩
  refine ((balloc_logs sb reading s1).mono (fun _ _ h => h) fun _ _ h => h.mono fun ⟨new, c, hl, hm⟩ =>
    ⟨h0, new, 0, c, hl, fun b hb => .inr (hm b hb)⟩).bind fun a s2 ha => ?_
  obtain ⟨hin, hlog⟩ := ha
  rcases hlog with ⟨rfl, rfl⟩ | ⟨-, -, c, -, hlog⟩
  · rw [if_neg (not_not.2 rfl)]
    exact .pure ⟨rfl, fun h => absurd h0 h, fun _ h => absurd rfl h, [], 0, rfl, fun b hb => nomatch hb⟩
  · have hmem : ∀ b ∈ [bp, a, sb.BBLOCK c], b = a ∨ b = sb.BBLOCK c ∨ b = bp := by
      simp only [List.mem_cons, List.not_mem_nil, or_false]
      tauto
    have hin' : ∀ {s3 : Fsys P K M} {l : List ℕ}, Logs s1 s3 l → a ∈ l → a ∈ s3.logged := by
      intro s3 l h ha
      rw [show s3.logged = _ from h]
      exact List.mem_append_left _ ha
    refine .ite (fun _ => ?_) fun _ => .pure ⟨hin, fun h => absurd h0 h, fun _ _ => hin' hlog (by simp),
      [a, sb.BBLOCK c], c, hlog, fun b hb => hmem b (.tail _ hb)⟩
    refine .bind (Q := fun _ s3 => s3.inode = s1.inode ∧ Logs s1 s3 [bp, a, sb.BBLOCK c])
      (logWrite_ends rfl ⟨hin, ?_⟩ ⟨h0, _, a, c, hlog, by simp⟩) fun _ s3 h => .pure ⟨h.1, fun hne => absurd h0 hne,
        fun _ _ => hin' h.2 (by simp), _, c, h.2, hmem⟩
    show bp :: s2.logged = _
    rw [show s2.logged = _ from hlog]
    rfl

/-- **`bmap`**: a block that is there is not logged, for another one see `Maps` -/
theorem bmap_logs (hsz : sb.size ≤ 2 ^ 32) (reading : Bool) {bn : ℕ} (hbn : bn < MAXFILE)
    {J : Finset ℕ} (hJ : Settled s k J) :
    (bmap sb reading k bn).Ends
      (Burst sb fun s' => (s.inode k).d.slot s.blk (fileSlot bn) = 0 ∧ Parts sb J s s') s
      fun a s' => ∃ J', Maps sb k J s a s' J' ∧ J ⊆ J' ∧
        ((s.inode k).d.slot s.blk (fileSlot bn) ≠ 0 → s' = s ∧ J' = J) ∧
        ((s.inode k).d.slot s.blk (fileSlot bn) = 0 → a ≠ 0 → a ∈ s'.logged) := by
  have hmem : ∀ {s' : Fsys P K M} {l : List ℕ} {a : ℕ}, Logs s s' l → a ∈ l → a ∈ s'.logged := by
    intro s' l a h ha
    rw [show s'.logged = _ from h]
    exact List.mem_append_left _ ha
  unfold bmap
  by_cases hdir : bn < NDIRECT
  · rw [if_pos hdir]
    rw [show fileSlot bn = bn from if_pos hdir, Dinode.slot_direct (by omega)]
    refine (bmapAddr_logs hsz reading (by omega) s).mono (fun a s' h =>
      ⟨J, ?_, Finset.Subset.refl J, fun hne => ?_, fun hz hne => ?_⟩)
      fun _ _ h => h.mono fun h => ⟨h.1, h.2.parts hJ.card⟩
    · rcases h with ⟨-, -, rfl⟩ | ⟨-, hlog, haddr⟩
      · exact ⟨hJ.card, fun _ => hJ, [], 0, rfl, fun b hb => nomatch hb⟩
      · have hind : indirect s' k = indirect s k := by
          unfold indirect
          rw [haddr, if_neg (by omega)]
        refine ⟨hJ.card, fun _ => ⟨?_, ?_, hJ.card⟩, ?_⟩
        · rw [hind]
          exact hJ.mem
        · rw [hind]
          exact hJ.none
        · rcases hlog with ⟨-, rfl⟩ | ⟨-, c, -, hlog⟩
          · exact ⟨[], 0, rfl, fun b hb => nomatch hb⟩
          · refine ⟨_, c, hlog, ?_⟩
            simp only [List.mem_cons, List.not_mem_nil, or_false]
            tauto
    · rcases h with ⟨-, -, rfl⟩ | ⟨h0, -⟩
      · exact ⟨rfl, rfl⟩
      · exact absurd h0 hne
    · rcases h with ⟨h0, -, -⟩ | ⟨-, ⟨h0, -⟩ | ⟨-, c, -, hlog⟩, -⟩
      · exact absurd hz h0
      · exact absurd h0 hne
      · exact hmem hlog (by simp)
  · have hind : indirect s k ≠ 0 → (s.inode k).d.slot s.blk (fileSlot bn) =
        ((s.blk (indirect s k)).int (bn - NDIRECT)).toNat := by
      intro h0
      rw [show fileSlot bn = bn + 1 from if_neg hdir, Dinode.slot_indirect (by omega) h0,
        Nat.add_sub_add_right]
      rfl
    have hslot : indirect s k = 0 → (s.inode k).d.slot s.blk (fileSlot bn) = 0 := by
      intro h0
      rw [show fileSlot bn = bn + 1 from if_neg hdir]
      exact Dinode.slot_indirect_zero (by omega) h0
    rw [if_neg hdir, if_pos (show bn - NDIRECT < NINDIRECT by unfold MAXFILE at hbn; omega)]
    refine ((bmapAddr_logs hsz reading le_rfl s).mono (fun _ _ h => h) fun _ _ h => h.mono fun h =>
      ⟨hslot h.1, h.2.parts hJ.card⟩).bind fun bp s1 h => ?_
    rcases h with ⟨hne, rfl, rfl⟩ | ⟨h0, hlog, haddr⟩
    · -- the indirect block is there
      rw [if_neg hne]
      rw [hind hne]
      refine (bmapEntry_logs reading _ _ s1).mono (fun a s' h => ⟨J, ?_, Finset.Subset.refl J, fun hs =>
        ⟨(h.2.1 hs).2, rfl⟩, h.2.2.1⟩) fun _ _ h => h.mono fun ⟨h0, new, a, c, hl, hm⟩ => ⟨h0, J, new, a, c,
          hJ.card, Finset.Subset.refl J, hl, fun b hb => (hm b hb).imp_right .inl⟩
      obtain ⟨hin, -, -, new, c, hlog, hnew⟩ := h
      have hsame : indirect s' k = indirect s1 k := by
        unfold indirect
        rw [hin]
      refine ⟨hJ.card, fun _ => ⟨?_, ?_, hJ.card⟩, new, c, hlog, fun b hb => ?_⟩
      · rw [hsame]
        exact hJ.mem
      · rw [hsame]
        exact hJ.none
      · rcases hnew b hb with h | h | h
        · exact .inl h
        · exact .inr (.inl h)
        · refine .inr (.inr ?_)
          rw [h]
          exact hJ.mem hne
    · have hJ0 : J = ∅ := hJ.none h0
      have hno := hslot h0
      -- it is allocated
      have hzero : bp ≠ 0 → s1.blk bp = fun _ => 0 := fun hne =>
        (hlog.resolve_left fun h => hne h.1).1
      obtain ⟨c', l, hlog, hl⟩ :
          ∃ c' l, Logs s s1 l ∧ ∀ b ∈ l, b ∈ ({bp, sb.BBLOCK c'} : Finset ℕ) := by
        rcases hlog with ⟨-, rfl⟩ | ⟨-, c, -, hlog⟩
        · exact ⟨0, [], rfl, fun b hb => nomatch hb⟩
        · exact ⟨c, _, hlog, by simp⟩
      have hsub : J ⊆ {bp, sb.BBLOCK c'} := by
        rw [hJ0]
        exact Finset.empty_subset _
      by_cases hbp : bp = 0
      · rw [if_pos hbp]
        exact .pure ⟨{bp, sb.BBLOCK c'}, ⟨Finset.card_le_two, fun h => absurd rfl h, l, 0, hlog,
          fun b hb => .inr (.inr (hl b hb))⟩, hsub, fun h => absurd hno h, fun _ h => absurd rfl h⟩
      · rw [if_neg hbp]
        refine (bmapEntry_logs reading _ _ s1).mono (fun a s' h => ⟨{bp, sb.BBLOCK c'}, ?_, hsub,
          fun h => absurd hno h, fun _ => h.2.2.1 ?_⟩) fun _ _ h => h.mono fun ⟨_, new, a, c, hlog', hm⟩ =>
            ⟨hno, _, _, a, c, Finset.card_le_two, hsub, hlog.trans hlog', fun b hb => ?_⟩
        rotate_left
        · rw [hzero hbp]
          exact Dinode.zero_int _
        · rcases List.mem_append.1 hb with hb | hb
          · exact (hm b hb).imp_right .inl
          · exact .inr (.inr (hl b hb))
        obtain ⟨hin, -, -, new, c, hlog', hnew⟩ := h
        have hind : indirect s' k = bp := by
          unfold indirect
          rw [hin, haddr, if_pos rfl]
        refine ⟨Finset.card_le_two, fun _ => ⟨fun _ => ?_, fun h => ?_, Finset.card_le_two⟩, _, c,
          hlog.trans hlog', fun b hb => ?_⟩
        · rw [hind]
          exact Finset.mem_insert_self _ _
        · rw [hind] at h
          exact absurd h hbp
        · rcases List.mem_append.1 hb with hb | hb
          · rcases hnew b hb with h | h | h
            · exact .inl h
            · exact .inr (.inl h)
            · refine .inr (.inr ?_)
              rw [h]
              exact Finset.mem_insert_self _ _
          · exact .inr (.inr (hl b hb))

/-- a block that is there is found, and nothing is logged -/
theorem bmap_there (reading : Bool) {bn : ℕ} (hbn : bn < MAXFILE)
    (h0 : (s.inode k).d.slot s.blk (fileSlot bn) ≠ 0) :
    (bmap sb reading k bn).Yields s fun a s' => a = (s.inode k).d.slot s.blk (fileSlot bn) ∧ s' = s := by
  have haddr : ∀ i, (s.inode k).d.addr i ≠ 0 → (bmapAddr sb reading k i).Yields s fun a s' =>
      a = (s.inode k).d.addr i ∧ s' = s := by
    intro i hi
    refine .bind (Q := fun d s1 => d = (s.inode k).d ∧ s1 = s) (.read ⟨rfl, rfl⟩) fun d s1 h => ?_
    obtain ⟨rfl, rfl⟩ := h
    exact .ite (fun h => absurd h hi) fun _ => .pure ⟨rfl, rfl⟩
  unfold bmap
  by_cases hdir : bn < NDIRECT
  · rw [if_pos hdir]
    rw [show fileSlot bn = bn from if_pos hdir, Dinode.slot_direct (by omega)] at h0 ⊢
    exact haddr bn h0
  · rw [if_neg hdir, if_pos (show bn - NDIRECT < NINDIRECT by unfold MAXFILE at hbn; omega)]
    rw [show fileSlot bn = bn + 1 from if_neg hdir] at h0 ⊢
    have hi : (s.inode k).d.addr NDIRECT ≠ 0 := fun e => h0 (Dinode.slot_indirect_zero (by omega) e)
    rw [Dinode.slot_indirect (by omega) hi, Nat.add_sub_add_right] at h0 ⊢
    refine (haddr NDIRECT hi).bind fun bp s1 h => ?_
    obtain ⟨rfl, rfl⟩ := h
    rw [if_neg hi]
    refine .bind (Q := fun a s2 => a = ((s1.blk ((s1.inode k).d.addr NDIRECT)).int (bn - NDIRECT)).toNat ∧ s2 = s1)
      (.read ⟨rfl, rfl⟩) fun a s2 h => ?_
    obtain ⟨rfl, rfl⟩ := h
    exact .ite (fun h => absurd h h0) fun _ => .pure ⟨rfl, rfl⟩

/-- every block that is logged is a block in front of the data blocks, one of `l`, or was logged before -/
def LogsIn (sb : FsSuper) (l : List ℕ) (s s' : Fsys P K M) : Prop :=
  ∀ b ∈ s'.logged, b ∈ s.logged ∨ b < sb.nmeta ∨ b ∈ l

theorem Logs.within {a c : ℕ} (h : Logs s s' [a, sb.BBLOCK c]) (hc : c < sb.size) : LogsIn sb [a] s s' := by
  intro b hb
  rw [show s'.logged = _ from h] at hb
  rcases List.mem_append.1 hb with hb | hb
  · rcases List.mem_cons.1 hb with hb | hb
    · exact .inr (.inr (List.mem_singleton.2 hb))
    · refine .inr (.inl ?_)
      rw [List.mem_singleton.1 hb]
      have := Nat.div_le_div_right (c := BPB) hc.le
      unfold FsSuper.BBLOCK FsSuper.nmeta
      omega
  · exact .inl hb

/-- `bmap` logs its block, the indirect block, and blocks in front of the data blocks -/
theorem bmap_within (hsz : sb.size ≤ 2 ^ 32) (reading : Bool) {bn : ℕ} (hbn : bn < MAXFILE) :
    (bmap sb reading k bn).Ends (fun _ _ => True) s fun a s' => LogsIn sb [a, indirect s' k] s s' := by
  have haddr : ∀ i ≤ NDIRECT, (bmapAddr sb reading k i).Ends (fun _ _ => True) s fun a s' =>
      LogsIn sb [a] s s' ∧ (s'.inode k).d.addr i = a := by
    intro i hi
    refine (bmapAddr_logs hsz reading hi s).mono (fun a s' h => ?_) fun _ _ _ => trivial
    rcases h with ⟨-, rfl, rfl⟩ | ⟨-, hlog, ha⟩
    · exact ⟨fun b hb => .inl hb, rfl⟩
    · refine ⟨?_, (ha i).trans (if_pos rfl)⟩
      rcases hlog with ⟨-, rfl⟩ | ⟨-, c, hc, hlog⟩
      · exact fun b hb => .inl hb
      · exact hlog.within hc
  unfold bmap
  by_cases hdir : bn < NDIRECT
  · rw [if_pos hdir]
    refine (haddr bn (by omega)).mono (fun a s' h b hb => ?_) fun _ _ h => h
    refine (h.1 b hb).imp_right (.imp_right fun h => ?_)
    rw [List.mem_singleton.1 h]
    exact List.mem_cons_self
  rw [if_neg hdir, if_pos (show bn - NDIRECT < NINDIRECT by unfold MAXFILE at hbn; omega)]
  refine (haddr NDIRECT le_rfl).bind fun bp s1 h1 => ?_
  obtain ⟨h1, hbp⟩ := h1
  have hmem : ∀ {a : ℕ} {s2 : Fsys P K M}, s2.inode = s1.inode → LogsIn sb [a, bp] s1 s2 →
      LogsIn sb [a, indirect s2 k] s s2 := by
    intro a s2 hin h b hb
    have hi : indirect s2 k = bp := by
      unfold indirect
      rw [hin]
      exact hbp
    rw [hi]
    rcases h b hb with h | h | h
    · rcases h1 b h with h | h | h
      · exact .inl h
      · exact .inr (.inl h)
      · exact .inr (.inr (List.mem_cons_of_mem _ h))
    · exact .inr (.inl h)
    · exact .inr (.inr h)
  have hsame : ∀ a, LogsIn sb [a, bp] s1 s1 := fun a b hb => .inl hb
  refine .ite (fun _ => .pure (hmem rfl (hsame _))) fun _ => ?_
  refine .bind (Q := fun _ s2 => s2 = s1) (.read rfl) fun e s2 h => ?_
  subst h
  refine .ite (fun _ => ?_) fun _ => .pure (hmem rfl (hsame _))
  refine ((balloc_logs sb reading s2).mono (fun _ _ h => h) fun _ _ _ => trivial).bind fun a s3 ha => ?_
  obtain ⟨hin, hlog⟩ := ha
  have hall : LogsIn sb [a, bp] s2 s3 := by
    rcases hlog with ⟨-, rfl⟩ | ⟨-, -, c, hc, hlog⟩
    · exact hsame a
    · refine fun b hb => (hlog.within hc b hb).imp_right (.imp_right fun h => ?_)
      rw [List.mem_singleton.1 h]
      exact List.mem_cons_self
  refine .ite (fun _ => ?_) fun _ => .pure (hmem hin hall)
  refine .bind (.mono (logWrite_ends (B := fun _ => True) (Q := fun _ s4 => s4.inode = s2.inode ∧
    LogsIn sb [a, bp] s2 s4) rfl ⟨hin, fun b hb => ?_⟩ trivial) (fun _ _ h => h) fun _ _ _ => trivial)
      fun _ s4 h => .pure (hmem h.1 h.2)
  rcases List.mem_cons.1 hb with rfl | hb
  · exact .inr (.inr (by simp))
  · exact hall b hb

/-! ## `writei` -/

/-- the turns of the loop of `writei` that are left -/
def turns (n tot o : ℕ) : ℕ := if tot < n then (o % BSIZE + (n - tot) + (BSIZE - 1)) / BSIZE else 0

theorem turns_next {n tot o : ℕ} (h : tot < n) :
    turns n (tot + min (n - tot) (BSIZE - o % BSIZE)) (o + min (n - tot) (BSIZE - o % BSIZE)) + 1 ≤
      turns n tot o := by
  have hB : BSIZE = 1024 := rfl
  unfold turns
  rw [if_pos h, hB]
  split
  · rename_i hlt
    have hm : min (n - tot) (1024 - o % 1024) = 1024 - o % 1024 := by omega
    rw [hm] at hlt ⊢
    have : (o + (1024 - o % 1024)) % 1024 = 0 := by omega
    rw [this]
    omega
  · omega

/-- the blocks that the loop logs: data blocks, bitmap blocks and those of the indirect block -/
structure LoopLogs (s : Fsys P K M) (J : Finset ℕ) (d b : ℕ) (s' : Fsys P K M) : Prop where
  sets : ∃ (new : List ℕ) (D B J' : Finset ℕ), Logs s s' new ∧ (∀ x ∈ new, x ∈ D ∪ B ∪ J') ∧
    D.card ≤ d ∧ B.card ≤ b ∧ J'.card ≤ 2 ∧ J ⊆ J'

theorem LoopLogs.none {J : Finset ℕ} {d b : ℕ} (hJ : J.card ≤ 2) : LoopLogs s J d b s :=
  ⟨[], ∅, ∅, J, rfl, fun _ hx => (nomatch hx), Nat.zero_le _, Nat.zero_le _, hJ, Finset.Subset.refl J⟩

/-- a turn before the rest of the loop: one data block more, and `e` bitmap blocks -/
theorem LoopLogs.turn {s1 : Fsys P K M} {J J' : Finset ℕ} {a d b e : ℕ} {l : List ℕ} {E : Finset ℕ}
    (hl : Logs s s1 l) (hm : ∀ x ∈ l, x = a ∨ x ∈ E ∨ x ∈ J') (hE : E.card ≤ e) (hJ : J ⊆ J')
    (h : LoopLogs s1 J' d b s') : LoopLogs s J (d + 1) (b + e) s' := by
  obtain ⟨new, D, B, J'', hlog, hmem, hD, hB, hJ'', hsub⟩ := h
  refine ⟨new ++ l, Insert.insert a D, B ∪ E, J'', hl.trans hlog, fun x hx => ?_,
    (Finset.card_insert_le a D).trans (by omega), (Finset.card_union_le B E).trans (by omega), hJ'',
    hJ.trans hsub⟩
  simp only [Finset.mem_union, Finset.mem_insert] at hmem ⊢
  rcases List.mem_append.1 hx with hx | hx
  · rcases hmem x hx with (h | h) | h
    · exact .inl (.inl (.inr h))
    · exact .inl (.inr (.inl h))
    · exact .inr h
  · rcases hm x hx with h | h | h
    · exact .inl (.inl (.inl h))
    · exact .inl (.inr (.inr h))
    · exact .inr (hsub h)

/-- the bitmap blocks of `t` turns: the first block needs none if it is there -/
def maps (s : Fsys P K M) (k : Fin K) (o t : ℕ) : ℕ :=
  t - if (s.inode k).d.slot s.blk (fileSlot (o / BSIZE)) ≠ 0 then 1 else 0

/-- **the loop of `writei`**, to its end or to a panic for want of room -/
theorem writeiLoop_logs (hsz : sb.size ≤ 2 ^ 32) (p : P) (src : ℕ → Option Byte) (n fuel : ℕ)
    {tot o : ℕ} (hmax : o + (n - tot) ≤ MAXFILE * BSIZE) {J : Finset ℕ} (hJ : Settled s k J) :
    (writeiLoop sb p k src n fuel tot o).Ends
      (Burst sb (LoopLogs s J (turns n tot o) (maps s k o (turns n tot o)))) s fun _ s' =>
        LoopLogs s J (turns n tot o) (maps s k o (turns n tot o)) s' := by
  induction fuel generalizing s tot o J with
  | zero => exact .pure (.none hJ.card)
  | succ fuel ih =>
    unfold writeiLoop
    refine .ite (fun hlt => ?_) fun _ => .pure (.none hJ.card)
    have hbn : o / BSIZE < MAXFILE := (Nat.div_lt_iff_lt_mul (by decide)).2 (by omega)
    have hT := turns_next (o := o) hlt
    -- what is logged in this turn, and what the others log
    have hturn : ∀ {s1 s' : Fsys P K M} {l : List ℕ} {a c d b : ℕ} {J' : Finset ℕ}, Logs s s1 l →
        (∀ x ∈ l, x = a ∨ x = sb.BBLOCK c ∨ x ∈ J') → J ⊆ J' →
        ((s.inode k).d.slot s.blk (fileSlot (o / BSIZE)) ≠ 0 → ∀ x ∈ l, x = a) → LoopLogs s1 J' d b s' →
        d + 1 ≤ turns n tot o → b + 1 ≤ turns n tot o →
        LoopLogs s J (turns n tot o) (maps s k o (turns n tot o)) s' := by
      intro s1 s' l a c d b J' hl hm hsub hthere h hd hb
      obtain ⟨E, hEm, hEc⟩ : ∃ E : Finset ℕ, (∀ x ∈ l, x = a ∨ x ∈ E ∨ x ∈ J') ∧
          E.card ≤ if (s.inode k).d.slot s.blk (fileSlot (o / BSIZE)) ≠ 0 then 0 else 1 := by
        by_cases hs : (s.inode k).d.slot s.blk (fileSlot (o / BSIZE)) ≠ 0
        · exact ⟨∅, fun x hx => .inl (hthere hs x hx), by simp⟩
        · refine ⟨{sb.BBLOCK c}, fun x hx => ?_, by simp [hs]⟩
          rw [Finset.mem_singleton]
          exact hm x hx
      obtain ⟨new, D, B, J'', h1, h2, h3, h4, h5, h6⟩ := LoopLogs.turn hl hEm hEc hsub h
      refine ⟨new, D, B, J'', h1, h2, h3.trans hd, h4.trans ?_, h5, h6⟩
      unfold maps
      split at h4 <;> rename_i hs
      · rw [if_pos hs, if_pos hs]
        omega
      · rw [if_neg hs, if_neg hs]
        omega
    have hpos : 0 + 1 ≤ turns n tot o := by omega
    refine ((bmap_logs hsz false hbn hJ).mono (fun _ _ h => h) fun _ _ h => h.mono ?_).bind fun a s1 h => ?_
    · rintro ⟨h0, J', new, a, c, hc, hsub, hl, hm⟩
      exact hturn hl hm hsub (fun h => absurd h0 h) (.none (d := 0) (b := 0) hc) hpos hpos
    obtain ⟨J', hmaps, hsub, hkeep, -⟩ := h
    obtain ⟨l, c, hl, hlm⟩ := hmaps.logs
    have hl0 : (s.inode k).d.slot s.blk (fileSlot (o / BSIZE)) ≠ 0 → l = [] := by
      intro hs
      have := (hkeep hs).1
      rw [this] at hl
      exact List.self_eq_append_left.1 hl
    have hstep : ∀ {s2 s' : Fsys P K M} {l' : List ℕ} {d b : ℕ}, Logs s1 s2 l' → (∀ x ∈ l', x = a) →
        LoopLogs s2 J' d b s' → d + 1 ≤ turns n tot o → b + 1 ≤ turns n tot o →
        LoopLogs s J (turns n tot o) (maps s k o (turns n tot o)) s' := by
      intro s2 s' l' d b hl' hm' h hd hb
      refine hturn (a := a) (c := c) (hl.trans hl') (fun x hx => ?_) hsub (fun hs x hx => ?_) h hd hb
      · rcases List.mem_append.1 hx with hx | hx
        · exact .inl (hm' x hx)
        · exact hlm x hx
      · rw [hl0 hs, List.append_nil] at hx
        exact hm' x hx
    have hnow := hstep (.refl s1) (fun x hx => nomatch hx) (.none (d := 0) (b := 0) hmaps.card) hpos hpos
    refine .ite (fun ha => .pure hnow) fun ha => ?_
    have hset := hmaps.settled ha
    refine .bind (Q := fun ok s2 => s2.inode = s1.inode ∧ ∃ l', Logs s1 s2 l' ∧ ∀ x ∈ l', x = a)
      ?_ fun ok s2 h => ?_
    · unfold writeiCopy
      dsimp only
      by_cases hm : mappedLen src tot (min (n - tot) (BSIZE - o % BSIZE)) < min (n - tot) (BSIZE - o % BSIZE)
      · exact .act (r := (false, _)) (if_pos hm) ⟨rfl, [], rfl, fun x hx => nomatch hx⟩
      · exact logWrite_ends (if_neg hm) ⟨rfl, [a], rfl, fun x hx => List.mem_singleton.1 hx⟩ hnow
    obtain ⟨hin, l', hl', hm'⟩ := h
    have hset2 : Settled s2 k J' := by
      have hind : indirect s2 k = indirect s1 k := by
        unfold indirect
        rw [hin]
      exact ⟨by rw [hind]; exact hset.mem, by rw [hind]; exact hset.none, hset.card⟩
    cases ok with
    | false =>
      exact .pure (hstep hl' hm' (.none (d := 0) (b := 0) hmaps.card) hpos hpos)
    | true =>
      have hb : ∀ t, t + 1 ≤ turns n tot o → maps s2 k (o + min (n - tot) (BSIZE - o % BSIZE)) t + 1 ≤
          turns n tot o := fun t ht => by
        unfold maps
        omega
      exact (ih (by omega) hset2).mono (fun _ s' h => hstep hl' hm' h hT (hb _ hT)) fun _ _ h =>
        h.mono fun h => hstep hl' hm' h hT (hb _ hT)

/-- how many blocks the states along a call log -/
theorem Logs.lhN_le {new : List ℕ} (h : Logs s s' new) : s'.lhN ≤ s.lhN + new.toFinset.card := by
  unfold Fsys.lhN
  rw [show s'.logged = _ from h, ← List.card_toFinset, ← List.card_toFinset, List.toFinset_append]
  have := Finset.card_union_le new.toFinset s.logged.toFinset
  omega

theorem LoopLogs.card {J : Finset ℕ} {d b : ℕ} (h : LoopLogs s J d b s') :
    ∃ new, Logs s s' new ∧ ∀ x, (x :: new).toFinset.card ≤ d + b + 3 ∧ new.toFinset.card ≤ d + b + 2 := by
  obtain ⟨new, D, B, J', hlog, hmem, hD, hB, hJ', -⟩ := h
  have hsub : new.toFinset ⊆ D ∪ B ∪ J' := fun x hx => hmem x (List.mem_toFinset.1 hx)
  have hcard : new.toFinset.card ≤ d + b + 2 :=
    calc new.toFinset.card
      _ ≤ (D ∪ B ∪ J').card := Finset.card_le_card hsub
      _ ≤ (D ∪ B).card + J'.card := Finset.card_union_le (D ∪ B) J'
      _ ≤ d + b + 2 := by have := Finset.card_union_le D B; omega
  refine ⟨new, hlog, fun x => ⟨?_, hcard⟩⟩
  rw [List.toFinset_cons]
  exact (Finset.card_insert_le x _).trans (by omega)

/-- how many blocks a call of `writei` may log: two for each turn, and three more -/
def writeiBlocks (s : Fsys P K M) (k : Fin K) (off n : ℕ) : ℕ :=
  turns n 0 off + maps s k off (turns n 0 off) + 3

/-- **`writei`** gives at most `writeiBlocks` blocks to `log_write`, the last of them that of the dinode -/
theorem writei_logs (hsz : sb.size ≤ 2 ^ 32) (p : P) (src : ℕ → Option Byte) (off : ℕ) {n : ℕ} (hn : n < 2 ^ 32) :
    (writei sb p k src off n).Ends
      (Burst sb fun s' => ∃ new, Logs s s' new ∧ new.toFinset.card < writeiBlocks s k off n) s
      fun _ s' => ∃ new, Logs s s' new ∧ new.toFinset.card ≤ writeiBlocks s k off n := by
  have hnone : ∃ new, Logs s s new ∧ new.toFinset.card ≤ writeiBlocks s k off n := ⟨[], rfl, Nat.zero_le _⟩
  refine .bind (Q := fun d s1 => d = (s.inode k).d ∧ s1 = s) (.read ⟨rfl, rfl⟩) fun d s1 h => ?_
  obtain ⟨rfl, rfl⟩ := h
  refine .ite (fun _ => .pure hnone) fun h1 => .ite (fun _ => .pure hnone) fun h2 => ?_
  have hmod : (off + n) % 2 ^ 32 = off + n := by
    have := (s1.inode k).d.size.isLt
    rw [not_or] at h1
    omega
  rw [hmod] at h2
  obtain ⟨J, hJ⟩ := exists_settled s1 k
  refine ((writeiLoop_logs hsz p src n n (by omega) hJ).mono (fun _ _ h => h) fun _ _ h => h.mono fun h => ?_).bind
    fun r s2 h => ?_
  · obtain ⟨new, hl, hc⟩ := h.card
    exact ⟨new, hl, Nat.lt_succ_of_le (hc 0).2⟩
  obtain ⟨new, hlog, hc⟩ := h.card
  refine .bind (Q := fun _ s3 => s3.logged = s2.logged) (.modify rfl) fun _ s3 h3 => ?_
  refine .bind (Q := fun _ s4 => ∃ b, s4.logged = b :: s3.logged) (logWrite_ends rfl ⟨_, rfl⟩
    ⟨new, h3.trans hlog, Nat.lt_succ_of_le (hc 0).2⟩) fun _ s4 h4 => .pure ?_
  obtain ⟨b, h4⟩ := h4
  refine ⟨b :: new, ?_, (hc b).1⟩
  unfold Logs at hlog ⊢
  rw [h4, h3, hlog]
  rfl

/-- the log is not full along a call that it has room for -/
theorem not_room {d : ℕ} (h : s'.LogFull sb ∧ ∃ new, Logs s s' new ∧ new.toFinset.card < d) :
    ¬ s.lhN + d ≤ min LOGSIZE (sb.nlog - 1) := by
  obtain ⟨hf, new, hl, hcard⟩ := h
  have := hl.lhN_le
  rcases hf with hf | hf <;> omega

/-- the turns of a chunk of `filewrite`: one more if it does not start with a block -/
theorem turns_chunk {n off : ℕ} (hn : n ≤ writeMax) :
    turns n 0 off ≤ 3 ∨ turns n 0 off ≤ 4 ∧ off % BSIZE ≠ 0 := by
  have hB : BSIZE = 1024 := rfl
  have hw : writeMax = 3072 := rfl
  unfold turns
  rw [hB] at *
  split <;> omega

/-- **a chunk of `filewrite` fits its reservation**: whatever the size of the disk, the inode and the
offset, `writei` of a chunk gives at most `MAXOPBLOCKS` different blocks to `log_write`. It comes to its
end if the log has room for as many; and else the only other end is the panic of a full log -/
theorem writei_log_fits (hsz : sb.size ≤ 2 ^ 32) (p : P) (src : ℕ → Option Byte) {off n : ℕ}
    (hc : (s.inode k).d.Covers s.blk) (hoff : off ≤ (s.inode k).d.size.toNat) (hn : n ≤ writeMax) :
    (s.lhN + MAXOPBLOCKS ≤ min LOGSIZE (sb.nlog - 1) →
      (writei sb p k src off n).Yields s fun _ s' => ∃ new, s'.logged = new ++ s.logged ∧
        new.toFinset.card ≤ MAXOPBLOCKS) ∧
    (writei sb p k src off n).Ends
      (Burst sb fun s' => ∃ new, s'.logged = new ++ s.logged ∧ new.toFinset.card < MAXOPBLOCKS) s
      fun _ s' => ∃ new, s'.logged = new ++ s.logged ∧ new.toFinset.card ≤ MAXOPBLOCKS := by
  have hten : MAXOPBLOCKS = 10 := rfl
  have hsize := hc.size
  have hmax : MAXFILE * BSIZE + writeMax < 2 ^ 32 := by decide
  have hle : writeiBlocks s k off n ≤ MAXOPBLOCKS := by
    unfold writeiBlocks maps
    rcases @turns_chunk _ off hn with ht | ⟨ht, hal⟩
    · omega
    · -- the first block is below the size, since the chunk starts inside of it
      have hfirst : (s.inode k).d.slot s.blk (fileSlot (off / BSIZE)) ≠ 0 := by
        refine hc.slot _ ?_
        have := Nat.div_add_mod off BSIZE
        rw [Nat.mul_comm]
        omega
      rw [if_pos hfirst]
      omega
  have key := writei_logs (s := s) (k := k) hsz p src off (n := n) (by omega)
  refine ⟨fun hroom => ?_, key.mono (fun _ s' ⟨new, hl, hcard⟩ => ⟨new, hl, hcard.trans hle⟩)
    fun e s' ⟨he, hf, new, hl, hcard⟩ => ⟨he, hf, new, hl, hcard.trans_le hle⟩⟩
  refine ((key.outcome (B := fun _ => False) fun e s' h => not_room h.2 (hroom.trans' ?_)).yields).mono
    fun _ s' ⟨new, hl, hcard⟩ => ⟨new, hl, hcard.trans hle⟩
  omega

end

/-- a file that ends in the last of its direct blocks, on an empty disk -/
def fullDirect : Fsys (Fin 1) 1 1 where
  blk := fun _ _ => 0
  logged := []
  outstanding := 1
  inode := fun _ => ⟨ROOTDEV, 2, 1, true, ⟨T_FILE, 0, 0, 1, 11265, fun i => if i.val < 12 then 100 else 0⟩⟩
  lock := fun _ => some 0
  file := fun _ => ⟨.inode, 1, true, true, some 0, 11265, 0⟩
  cwd := fun _ => none
  ofile := fun _ _ => none

theorem fullDirect_covers : (fullDirect.inode 0).d.Covers fullDirect.blk := by
  have hslot : ∀ bn < 12, (fullDirect.inode 0).d.slot fullDirect.blk (fileSlot bn) ≠ 0 := by decide
  refine ⟨by decide, fun bn hbn => hslot bn ?_⟩
  have hs : (fullDirect.inode 0).d.size.toNat = 11265 := rfl
  rw [hs, show BSIZE = 1024 from rfl] at hbn
  omega

/-- a chunk that begins in the last direct block and needs the indirect one: the log has room for it -/
theorem writei_log_sample : (writei ⟨⟨200000, 30, 2⟩, 200, 32, 45⟩ 0 0 (fun _ => some 1) 11265 3072).Yields
    fullDirect fun _ s' => ∃ new, s'.logged = new ++ fullDirect.logged ∧
      new.toFinset.card ≤ MAXOPBLOCKS := by
  have hroom : fullDirect.lhN + MAXOPBLOCKS ≤ min LOGSIZE (30 - 1) := by decide
  exact (writei_log_fits (by decide) 0 _ fullDirect_covers (by decide) (by decide)).1 hroom

end Xv6.FileSys
