import Xv6.Fs.Defs
import Xv6.Lib.Disk

/-!
# The redo log survives crashes: `write_log`, `write_head`, `install_trans`, `recover_from_log`

The block writes of a commit and of a recovery, as programs over the disk.  The buffer cache writes
through for the blocks of the log, so a `bread` of one of them is a read of the disk; the new contents
of the home blocks come from the cache, which a crash loses.

* `commit`, `recoverFromLog`   the routines of `log.c`;
* `Txn`   a transaction: distinct home blocks, as many as the log has room for;
* `Logged bs c d`  the log of the disk `d` lists the blocks `bs`, and when they have been installed the
  home blocks hold `c`;
* `commit_spec`, `recover_spec`   what holds at the end and at every crash;
* `crash_atomic`   **after any crashes the disk has the contents before or after a transaction.**
-/

namespace Xv6
open Function (update update_of_ne update_self)

abbrev Disk := Nat → Block

section
variable (sb : Superblock)

/-- copy committed blocks from the log to their home location -/
def installTrans (lh : LogHeader) : DiskProg Nat Block Unit :=
  .range (fun tail => do
    let lbuf ← .get (sb.logstart + tail + 1)
    let _dbuf ← .get (lh.block tail)
    .put (lh.block tail) lbuf) lh.n

/-- read the log header from disk into the in-memory log header `lh` -/
def readHead (lh : LogHeader) : DiskProg Nat Block LogHeader := do
  let buf ← .get sb.logstart
  pure (lh.load buf)

/-- write the in-memory log header to disk -/
def writeHead (lh : LogHeader) : DiskProg Nat Block Unit := do
  let buf ← .get sb.logstart
  .put sb.logstart (lh.store buf)

def recoverFromLog (lh : LogHeader) : DiskProg Nat Block Unit := do
  let lh ← readHead sb lh
  installTrans sb lh
  writeHead sb lh.clear

/-- copy the modified blocks, whose contents are `cache`, to the log -/
def writeLog (lh : LogHeader) (cache : Nat → Block) : DiskProg Nat Block Unit :=
  .range (fun tail => do
    let _to ← .get (sb.logstart + tail + 1)
    .put (sb.logstart + tail + 1) (cache (lh.block tail))) lh.n

def commit (lh : LogHeader) (cache : Nat → Block) : DiskProg Nat Block Unit :=
  if lh.n > 0 then do
    writeLog sb lh cache
    writeHead sb lh
    installTrans sb lh
    writeHead sb lh.clear
  else pure ()

/-- what is committed at once: the blocks that `log_write` has listed, with their contents in the cache.
`log_write` lists a block once, and no more of them than fit in the header and in the log. -/
structure Txn where
  blocks : List Nat
  data : Nat → Block
  nodup : blocks.Nodup
  home : ∀ b ∈ blocks, sb.Home b
  header : blocks.length ≤ LOGSIZE
  room : blocks.length < sb.nlog

end

section
variable {sb : Superblock}

/-- the header in memory when the transaction is committed -/
def Txn.lh (t : Txn sb) : LogHeader := ⟨t.blocks.length, fun i => t.blocks.getD i 0⟩

/-- the contents of the home blocks after the transaction -/
def Txn.apply (t : Txn sb) (c : Disk) : Disk := fun b => if b ∈ t.blocks then t.data b else c b

/-- … after several of them -/
def applyAll (ts : List (Txn sb)) (c : Disk) : Disk := ts.foldl (fun c t => t.apply c) c

/-- the blocks listed in a header block -/
def listed (x : Block) : List Nat := (LogHeader.load ⟨0, fun _ => 0⟩ x).blocks

theorem LogHeader.load_blocks (lh : LogHeader) (x : Block) : (lh.load x).blocks = listed x := by
  refine List.map_congr_left fun i hi => ?_
  have hi' : i < (x.int 0).toInt.toNat := List.mem_range.mp hi
  show (if i < (x.int 0).toInt.toNat then _ else _) = if i < (x.int 0).toInt.toNat then _ else _
  rw [if_pos hi', if_pos hi']

theorem LogHeader.blocks_length (lh : LogHeader) : lh.blocks.length = lh.n := by
  simp [LogHeader.blocks]

theorem LogHeader.block_eq {lh : LogHeader} {i : Nat} (h : i < lh.blocks.length) :
    lh.block i = lh.blocks[i] := by
  simp [LogHeader.blocks]

theorem listed_clear (lh : LogHeader) (x : Block) : listed (lh.clear.store x) = [] := by
  have hn : lh.clear.n < 2 ^ 31 := Nat.two_pow_pos 31
  exact (lh.clear.load_store _ x hn fun i hi => absurd hi (Nat.not_lt_zero i)).2

theorem Txn.lh_blocks (t : Txn sb) : t.lh.blocks = t.blocks := by
  refine List.ext_getElem (by simp [LogHeader.blocks, Txn.lh]) fun i h1 h2 => ?_
  simp [LogHeader.blocks, Txn.lh, h2]

theorem Txn.listed_store (t : Txn sb) (x : Block) : listed (t.lh.store x) = t.blocks := by
  have hlen : t.lh.n < 2 ^ 31 := by
    have := t.header
    show t.blocks.length < 2 ^ 31
    have : LOGSIZE = 30 := rfl
    omega
  refine ((t.lh.load_store ⟨0, fun _ => 0⟩ x hlen fun i hi => ?_).2).trans t.lh_blocks
  have hmem : t.blocks.getD i 0 ∈ t.blocks := by
    rw [List.getD_eq_getElem?_getD, List.getElem?_eq_getElem hi]
    exact List.getElem_mem hi
  have := (t.home _ hmem).2.1
  show t.blocks.getD i 0 < 2 ^ 32
  omega

/-! ## what a disk stands for -/

/-- the log lists the blocks `bs` with the contents that `c` gives them, and the other home blocks have
the contents `c` already -/
structure Logged (sb : Superblock) (bs : List Nat) (c d : Disk) : Prop where
  listed : listed (d sb.logstart) = bs
  nodup : bs.Nodup
  home : ∀ b ∈ bs, sb.Home b
  room : bs.length < sb.nlog
  copy : ∀ i (h : i < bs.length), d (sb.logstart + i + 1) = c bs[i]
  rest : ∀ b, sb.Home b → b ∉ bs → d b = c b

/-- the contents of the home blocks after a recovery -/
def contents (sb : Superblock) (d : Disk) : Disk := fun b =>
  let bs := listed (d sb.logstart)
  if b ∈ bs then d (sb.logstart + bs.idxOf b + 1) else d b

/-- the header of the log lists distinct home blocks, no more than the log and `block[LOGSIZE]` have room
for -/
structure Formatted (sb : Superblock) (d : Disk) : Prop where
  nodup : (Xv6.listed (d sb.logstart)).Nodup
  home : ∀ b ∈ Xv6.listed (d sb.logstart), sb.Home b
  room : (Xv6.listed (d sb.logstart)).length < sb.nlog
  bound : (Xv6.listed (d sb.logstart)).length ≤ LOGSIZE

theorem Formatted.logged {d : Disk} (h : Formatted sb d) :
    Logged sb (listed (d sb.logstart)) (contents sb d) d where
  listed := rfl
  nodup := h.nodup
  home := h.home
  room := h.room
  copy i hi := by
    show _ = if _ then _ else _
    rw [if_pos (List.getElem_mem hi), h.nodup.idxOf_getElem i hi]
  rest b _ hb := (if_neg hb).symm

theorem Superblock.Home.ne_log {a b : Nat} (h : sb.Home b) (ha : sb.InLog a) : a ≠ b := by
  intro hab
  exact h.2.2 (hab ▸ ha)

theorem Superblock.inLog {i : Nat} (hi : i + 1 < sb.nlog) : sb.InLog (sb.logstart + i + 1) :=
  ⟨by omega, by omega⟩

theorem Superblock.inLog_head {i : Nat} (hi : i < sb.nlog) : sb.InLog sb.logstart :=
  ⟨by omega, by omega⟩

namespace Logged
variable {bs : List Nat} {c d : Disk}

/-- a home block gets its contents: the disk still stands for the same -/
theorem update_home (h : Logged sb bs c d) {b : Nat} (hb : sb.Home b) :
    Logged sb bs c (update d b (c b)) where
  listed := by
    rw [update_of_ne (hb.ne_log (Superblock.inLog_head h.room))]
    exact h.listed
  nodup := h.nodup
  home := h.home
  room := h.room
  copy i hi := by
    have hr := h.room
    rw [update_of_ne (hb.ne_log (Superblock.inLog (by omega)))]
    exact h.copy i hi
  rest b' hb' hbs := by
    by_cases hbb : b' = b
    · rw [hbb, update_self]
    · rw [update_of_ne hbb]
      exact h.rest b' hb' hbs

theorem update_log (h : Logged sb [] c d) {i : Nat} (hi : i + 1 < sb.nlog) (x : Block) :
    Logged sb [] c (update d (sb.logstart + i + 1) x) where
  listed := by
    rw [update_of_ne (by omega)]
    exact h.listed
  nodup := h.nodup
  home := h.home
  room := h.room
  copy j hj := absurd hj (Nat.not_lt_zero j)
  rest b hb hbs := by
    rw [update_of_ne (hb.ne_log (Superblock.inLog hi)).symm]
    exact h.rest b hb hbs

theorem update_head {x : Block} (hx : Xv6.listed x = bs) (hn : bs.Nodup)
    (hh : ∀ b ∈ bs, sb.Home b) (hr : bs.length < sb.nlog)
    (hc : ∀ i (h : i < bs.length), d (sb.logstart + i + 1) = c bs[i])
    (hd : ∀ b, sb.Home b → b ∉ bs → d b = c b) :
    Logged sb bs c (update d sb.logstart x) where
  listed := by rw [update_self, hx]
  nodup := hn
  home := hh
  room := hr
  copy i hi := by
    rw [update_of_ne (by omega)]
    exact hc i hi
  rest b hb hbs := by
    rw [update_of_ne (hb.ne_log (Superblock.inLog_head hr)).symm]
    exact hd b hb hbs

end Logged

/-- the disk stands for the contents `c` -/
def Means (sb : Superblock) (c d : Disk) : Prop := ∃ bs, Logged sb bs c d

/-! ## the routines -/

section
variable {bs : List Nat} {c : Disk}

open DiskProg

/-- **`install_trans`**: before and after each write the disk stands for the same -/
theorem installTrans_spec {lh : LogHeader} (hlh : lh.blocks = bs) :
    Triple (Logged sb bs c) (installTrans sb lh)
      (fun _ d => Logged sb bs c d ∧ ∀ b, sb.Home b → d b = c b) (Means sb c) := by
  have hn : lh.n = bs.length := by rw [← hlh, lh.blocks_length]
  -- round `i` starts with the blocks before it installed
  have hloop : Triple (fun d => Logged sb bs c d ∧ ∀ j < 0, d (lh.block j) = c (lh.block j))
      (installTrans sb lh)
      (fun _ d => Logged sb bs c d ∧ ∀ j < lh.n, d (lh.block j) = c (lh.block j)) (Means sb c) := by
    refine Triple.range (I := fun i d => Logged sb bs c d ∧ ∀ j < i, d (lh.block j) = c (lh.block j))
      (fun i hi => ?_) fun d hd => ⟨bs, hd.1⟩
    have hib : i < bs.length := by omega
    have hblk : lh.block i = bs[i] := by
      subst hlh
      exact LogHeader.block_eq hib
    have hhome : ∀ d, Logged sb bs c d → sb.Home (lh.block i) := fun d hd => by
      rw [hblk]
      exact hd.home _ (List.getElem_mem hib)
    refine Triple.read fun x => Triple.read fun _ => Triple.write fun d hd => ?_
    obtain ⟨⟨⟨hd, hdone⟩, rfl⟩, -⟩ := hd
    have hup := hd.update_home (hhome d hd)
    rw [show d (sb.logstart + i + 1) = c (lh.block i) by rw [hblk]; exact hd.copy i hib]
    refine ⟨⟨bs, hd⟩, ⟨bs, hup⟩, hup, fun j hj => ?_⟩
    by_cases hji : lh.block j = lh.block i
    · rw [hji, update_self]
    · rw [update_of_ne hji]
      refine hdone j ?_
      have : j ≠ i := fun h => hji (h ▸ rfl)
      omega
  refine hloop.conseq (fun d hd => ⟨hd, fun j hj => absurd hj (Nat.not_lt_zero j)⟩)
    (fun _ d hd => ⟨hd.1, fun b hb => ?_⟩) fun _ => id
  by_cases hmem : b ∈ bs
  · obtain ⟨j, hj, rfl⟩ := List.getElem_of_mem hmem
    have hblk : lh.block j = bs[j] := by
      subst hlh
      exact LogHeader.block_eq hj
    rw [← hblk]
    exact hd.2 j (by omega)
  · exact hd.1.rest b hb hmem

/-- `write_head` after `log.lh.n = 0`, when everything is installed -/
theorem writeHead_clear_spec (lh : LogHeader) :
    Triple (fun d => Logged sb bs c d ∧ ∀ b, sb.Home b → d b = c b) (writeHead sb lh.clear)
      (fun _ => Logged sb [] c) (Means sb c) := by
  refine Triple.read fun x => Triple.write fun d hd => ?_
  obtain ⟨hd, -⟩ := hd
  have hr := hd.1.room
  have hnew : Logged sb [] c (update d sb.logstart (lh.clear.store x)) :=
    .update_head (listed_clear lh x) List.nodup_nil (by simp) (by simp; omega)
      (fun i hi => absurd hi (Nat.not_lt_zero i)) fun b hb _ => hd.2 b hb
  exact ⟨⟨bs, hd.1⟩, ⟨[], hnew⟩, hnew⟩

/-- **`recover_from_log`** keeps what the disk stands for, and clears the log -/
theorem recover_spec (lh : LogHeader) :
    Triple (Means sb c) (recoverFromLog sb lh) (fun _ => Logged sb [] c) (Means sb c) := by
  rintro d ⟨bs, hd⟩
  have h : Triple (Logged sb bs c) (recoverFromLog sb lh) (fun _ => Logged sb [] c)
      (Means sb c) := by
    have hread : Triple (Logged sb bs c) (readHead sb lh)
        (fun lh d => Logged sb bs c d ∧ lh.blocks = bs) (Means sb c) := by
      refine Triple.read fun x => Triple.ret fun d hd => ⟨⟨hd.1, ?_⟩, bs, hd.1⟩
      rw [lh.load_blocks, ← hd.2, hd.1.listed]
    refine hread.bind fun lh' => ?_
    rintro d ⟨hd, hlh⟩
    exact ((installTrans_spec hlh).bind fun _ => writeHead_clear_spec lh') d hd
  exact h d hd

theorem writeLog_spec (t : Txn sb) :
    Triple (Logged sb [] c) (writeLog sb t.lh t.data)
      (fun _ d => Logged sb [] c d ∧
        ∀ i (h : i < t.blocks.length), d (sb.logstart + i + 1) = t.data t.blocks[i])
      (Means sb c) := by
  have hloop : Triple (fun d => Logged sb [] c d ∧
        ∀ j < 0, d (sb.logstart + j + 1) = t.data (t.lh.block j)) (writeLog sb t.lh t.data)
      (fun _ d => Logged sb [] c d ∧
        ∀ j < t.lh.n, d (sb.logstart + j + 1) = t.data (t.lh.block j)) (Means sb c) := by
    refine Triple.range (I := fun i d => Logged sb [] c d ∧
      ∀ j < i, d (sb.logstart + j + 1) = t.data (t.lh.block j)) (fun i hi => ?_)
      fun d hd => ⟨[], hd.1⟩
    refine Triple.read fun _ => Triple.write fun d hd => ?_
    obtain ⟨hd, -⟩ := hd
    have hroom : i + 1 < sb.nlog := Nat.lt_of_le_of_lt (Nat.succ_le_of_lt hi) t.room
    have hup := hd.1.update_log hroom (t.data (t.lh.block i))
    refine ⟨⟨[], hd.1⟩, ⟨[], hup⟩, hup, fun j hj => ?_⟩
    by_cases hji : j = i
    · rw [hji, update_self]
    · rw [update_of_ne (by omega)]
      exact hd.2 j (by omega)
  refine hloop.conseq (fun d hd => ⟨hd, fun j hj => absurd hj (Nat.not_lt_zero j)⟩)
    (fun _ d hd => ⟨hd.1, fun i hi => ?_⟩) fun _ => id
  rw [hd.2 i hi]
  exact congrArg t.data (by simp [Txn.lh, hi])

theorem writeHead_spec (t : Txn sb) :
    Triple (fun d => Logged sb [] c d ∧
        ∀ i (h : i < t.blocks.length), d (sb.logstart + i + 1) = t.data t.blocks[i])
      (writeHead sb t.lh) (fun _ => Logged sb t.blocks (t.apply c))
      (fun d => Means sb c d ∨ Means sb (t.apply c) d) := by
  refine Triple.read fun x => Triple.write fun d hd => ?_
  obtain ⟨hd, -⟩ := hd
  have hnew : Logged sb t.blocks (t.apply c) (update d sb.logstart (t.lh.store x)) := by
    refine .update_head (t.listed_store x) t.nodup t.home t.room (fun i hi => ?_) fun b hb hbs => ?_
    · rw [hd.2 i hi]
      exact (if_pos (List.getElem_mem hi)).symm
    · rw [hd.1.rest b hb List.not_mem_nil]
      exact (if_neg hbs).symm
  exact ⟨.inl ⟨[], hd.1⟩, .inr ⟨_, hnew⟩, hnew⟩

/-- **`commit`**: at every crash the disk stands for the contents before or after the transaction -/
theorem commit_spec (t : Txn sb) :
    Triple (Logged sb [] c) (commit sb t.lh t.data) (fun _ => Logged sb [] (t.apply c))
      (fun d => Means sb c d ∨ Means sb (t.apply c) d) := by
  unfold commit
  split
  · refine ((writeLog_spec t).conseq (fun _ => id) (fun _ _ => id) fun _ => .inl).bind fun _ => ?_
    refine (writeHead_spec t).bind fun _ => ?_
    exact ((installTrans_spec t.lh_blocks).bind fun _ => writeHead_clear_spec t.lh).conseq
      (fun _ => id) (fun _ _ => id) fun _ => .inr
  · rename_i hn
    have hnil : t.blocks = [] := List.length_eq_zero_iff.mp (Nat.le_zero.mp (Nat.not_lt.mp hn))
    have happ : t.apply c = c := by
      funext b
      exact if_neg (by rw [hnil]; exact List.not_mem_nil)
    rw [happ]
    exact Triple.ret fun d hd => ⟨hd, .inl ⟨[], hd⟩⟩

end

/-! ## sessions -/

/-- transactions committed one after the other -/
def commitAll (ts : List (Txn sb)) (d : Disk) : Disk :=
  ts.foldl (fun d t => ((commit sb t.lh t.data).run d).2) d

/-- from the disk `d`, the kernel has been booted again and again: each time it has recovered, after any
number of crashes in the recovery, committed some transactions, and crashed in the commit of one more,
after `j` block writes of it; the last time it has just recovered -/
inductive Sessions (lh : LogHeader) : Disk → List (List (Txn sb) × Txn sb) → Disk → Prop
  | last {d d' : Disk} (h : DiskProg.Recovers (recoverFromLog sb lh) d d') : Sessions lh d [] d'
  | crash {d d1 d' : Disk} {ss : List (List (Txn sb) × Txn sb)} (ts : List (Txn sb)) (t : Txn sb)
      (j : ℕ) (hr : DiskProg.Recovers (recoverFromLog sb lh) d d1)
      (h : Sessions lh ((commit sb t.lh t.data).crashAt (commitAll ts d1) j) ss d') :
      Sessions lh d ((ts, t) :: ss) d'

theorem applyAll_append (ts ts' : List (Txn sb)) (c : Disk) :
    applyAll (ts ++ ts') c = applyAll ts' (applyAll ts c) := List.foldl_append

theorem commitAll_logged {c d : Disk} (ts : List (Txn sb)) (hd : Logged sb [] c d) :
    Logged sb [] (applyAll ts c) (commitAll ts d) := by
  induction ts generalizing c d with
  | nil => exact hd
  | cons t ts ih => exact ih ((commit_spec t) d hd).1

/-- **Crash atomicity of the redo log.**  Whatever the disk stands for at first, and however often the
kernel crashes in a commit or in the recovery: after a recovery the log is clear and the home blocks have
the contents after all transactions of all sessions, where of each session's interrupted transaction
either all blocks are there or none. -/
theorem crash_atomic (lh : LogHeader) {d d' : Disk} {ss : List (List (Txn sb) × Txn sb)}
    (hd : Formatted sb d) (h : Sessions lh d ss d') :
    listed (d' sb.logstart) = [] ∧
    ∃ kept : List (List (Txn sb)),
      List.Forall₂ (fun s ts => ts = s.1 ∨ ts = s.1 ++ [s.2]) ss kept ∧
      ∀ b, sb.Home b → d' b = applyAll kept.flatten (contents sb d) b := by
  -- by induction on the sessions, from any disk that stands for some contents
  have main : ∀ c, Means sb c d → ∃ kept : List (List (Txn sb)),
      List.Forall₂ (fun s ts => ts = s.1 ∨ ts = s.1 ++ [s.2]) ss kept ∧
      Logged sb [] (applyAll kept.flatten c) d' := by
    clear hd
    induction h with
    | last hr => exact fun c hc => ⟨[], .nil, (recover_spec lh).recovers hr hc⟩
    | crash ts t j hr _ ih =>
      intro c hc
      have h2 := commitAll_logged ts ((recover_spec lh).recovers hr hc)
      rcases ((commit_spec t) _ h2).2 j with h3 | h3
      · obtain ⟨kept, hk, hl⟩ := ih _ h3
        refine ⟨ts :: kept, .cons (.inl rfl) hk, ?_⟩
        rw [List.flatten_cons, applyAll_append]
        exact hl
      · obtain ⟨kept, hk, hl⟩ := ih _ h3
        refine ⟨(ts ++ [t]) :: kept, .cons (.inr rfl) hk, ?_⟩
        rw [List.flatten_cons, applyAll_append, applyAll_append]
        exact hl
  obtain ⟨kept, hk, hl⟩ := main _ ⟨_, hd.logged⟩
  exact ⟨hl.listed, kept, hk, fun b hb => hl.rest b hb List.not_mem_nil⟩

end

/-- a transaction on two blocks of the disk that `mkfs` makes -/
def sampleTxn : Txn mkfsSuperblock where
  blocks := [100, 101]
  data b := fun _ => .ofNat 8 b
  nodup := by decide
  home := by decide
  header := by decide
  room := by decide

/-- a crash after the third of the six writes of the commit, and one in the recovery -/
theorem crash_atomic_sample : ∃ d', Sessions ⟨0, fun _ => 0⟩ (fun _ _ => 0) [([], sampleTxn)] d' ∧
    (∃ kept : List (List (Txn mkfsSuperblock)),
      List.Forall₂ (fun s ts => ts = s.1 ∨ ts = s.1 ++ [s.2]) [([], sampleTxn)] kept ∧
      ∀ b, mkfsSuperblock.Home b → d' b = applyAll kept.flatten (fun _ _ => 0) b) ∧
    d' 100 0 = 100 ∧ d' 101 0 = 101 := by
  have hf : Formatted mkfsSuperblock fun _ _ => 0 := ⟨by decide, by decide, by decide, by decide⟩
  have hs : Sessions ⟨0, fun _ => 0⟩ (fun _ _ => 0) [([], sampleTxn)] _ :=
    .crash [] sampleTxn 3 (.done _) (.last (.again 1 (.done _)))
  refine ⟨_, hs, ?_, by decide +kernel, by decide +kernel⟩
  obtain ⟨-, kept, hk, hb⟩ := crash_atomic _ hf hs
  exact ⟨kept, hk, fun b hb' => hb b hb'⟩

end Xv6
