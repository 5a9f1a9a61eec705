import Xv6.Lib.Code
import Xv6.Fs.Defs

/-!
# Inodes and their blocks: the middle of `fs.c`

The routines from `bzero` to `writei`, as concurrent code.  Their acts are the stretches that nothing
interrupts: `bread`, some work on the buffer and `brelse` (the buffer is locked in between), what is done
under `itable.lock`, an access to the fields of an inode by the process that has it locked.  `blk` is
what `bread` returns for a block; the log and the buffer cache below it make that the block as last
written.

* `Dinode`   `struct dinode`, with its 64 bytes in a block (`Dinode.load`, `Dinode.store`);
* `Fsys`   blocks, inode table, file table, what the processes have open;
* `beginOp`, `endOp`   the ends of a transaction; to the file system a commit is one act;
* `balloc`, `bfree`, `ialloc`, `iupdate`, `iget`, `ilock`, `iunlock`, `iput`,
  `bmap`, `itrunc`, `readi`, `writei`.

`log_write` lists a block in the header of the log, and panics if there is no room (`Fsys.logWrite`);
that it is called in a transaction only is shown for the log (`group_commit`).

Where the code keeps a buffer over other calls (the indirect block in `bmap` and `itrunc`, both of an
inode that is locked) it is given back here after each access, which only allows more interleavings.
-/

namespace Xv6

def ROOTINO : ℕ := 1
def NDIRECT : ℕ := 12
def NINDIRECT : ℕ := BSIZE / 4
def MAXFILE : ℕ := NDIRECT + NINDIRECT
/-- inodes per block -/
def IPB : ℕ := BSIZE / 64
/-- bitmap bits per block -/
def BPB : ℕ := BSIZE * 8
def T_DIR : BitVec 16 := 1
def T_FILE : BitVec 16 := 2
def T_DEVICE : BitVec 16 := 3

/-- the super block with the fields of the inode layer -/
structure FsSuper extends Superblock where
  ninodes : ℕ
  inodestart : ℕ
  bmapstart : ℕ

/-- block containing inode `i` -/
def FsSuper.IBLOCK (sb : FsSuper) (i : ℕ) : ℕ := i / IPB + sb.inodestart

/-- block of free map containing bit for block `b` -/
def FsSuper.BBLOCK (sb : FsSuper) (b : ℕ) : ℕ := b / BPB + sb.bmapstart

/-! ## Bits, bytes, dinodes -/

/-- `data[bi/8] & (1 << (bi % 8))` -/
def Block.bit (x : Block) (bi : ℕ) : Bool := (x (bi / 8)).getLsbD (bi % 8)

/-- `data[bi/8] |= m` -/
def Block.setBit (x : Block) (bi : ℕ) : Block :=
  Function.update x (bi / 8) (x (bi / 8) ||| 1#8 <<< (bi % 8))

/-- `data[bi/8] &= ~m` -/
def Block.clearBit (x : Block) (bi : ℕ) : Block :=
  Function.update x (bi / 8) (x (bi / 8) &&& ~~~(1#8 <<< (bi % 8)))

/-- the bytes of a block from `o` on -/
def Block.bytes (x : Block) (o m : ℕ) : List Byte := (List.range m).map fun i => x (o + i)

/-- `m` bytes of `src` from `i` on over the bytes from `o` on -/
def Block.splice (x : Block) (o : ℕ) (src : ℕ → Option Byte) (i m : ℕ) : Block := fun j =>
  if o ≤ j ∧ j < o + m then (src (i + (j - o))).getD 0 else x j

/-- `struct dinode`: the inode on disk, and the copy of it in `struct inode` -/
@[ext] structure Dinode where
  type : BitVec 16
  major : BitVec 16
  minor : BitVec 16
  nlink : BitVec 16
  size : BitVec 32
  addrs : Fin (NDIRECT + 1) → BitVec 32

namespace Dinode

/-- the dinode after `memset` -/
def zero : Dinode := ⟨0, 0, 0, 0, 0, fun _ => 0⟩

/-- `addrs[i]` -/
def addr (d : Dinode) (i : ℕ) : ℕ := if h : i < NDIRECT + 1 then (d.addrs ⟨i, h⟩).toNat else 0

/-- `addrs[i] = a` -/
def setAddr (d : Dinode) (i a : ℕ) : Dinode :=
  { d with addrs := fun j => if j.val = i then BitVec.ofNat 32 a else d.addrs j }

/-- the bytes, in the order of the fields -/
def byte (d : Dinode) (o : ℕ) : Byte :=
  if o < 2 then d.type.extractLsb' (8 * o) 8
  else if o < 4 then d.major.extractLsb' (8 * (o - 2)) 8
  else if o < 6 then d.minor.extractLsb' (8 * (o - 4)) 8
  else if o < 8 then d.nlink.extractLsb' (8 * (o - 6)) 8
  else if o < 12 then d.size.extractLsb' (8 * (o - 8)) 8
  else if h : (o - 12) / 4 < NDIRECT + 1 then (d.addrs ⟨_, h⟩).extractLsb' (8 * ((o - 12) % 4)) 8
  else 0

/-- the dinode with index `i` of a block is written -/
def store (d : Dinode) (x : Block) (i : ℕ) : Block := fun o =>
  if o / 64 = i then d.byte (o % 64) else x o

/-- the dinode with index `i` of a block -/
def load (x : Block) (i : ℕ) : Dinode where
  type := x (64 * i + 1) ++ x (64 * i)
  major := x (64 * i + 3) ++ x (64 * i + 2)
  minor := x (64 * i + 5) ++ x (64 * i + 4)
  nlink := x (64 * i + 7) ++ x (64 * i + 6)
  size := x (64 * i + 11) ++ x (64 * i + 10) ++ x (64 * i + 9) ++ x (64 * i + 8)
  addrs := fun j => x (64 * i + 4 * j + 15) ++ x (64 * i + 4 * j + 14) ++ x (64 * i + 4 * j + 13) ++
    x (64 * i + 4 * j + 12)

end Dinode

/-! ## State -/

/-- `struct inode`; its sleep lock is in `Fsys` -/
structure Inode where
  dev : ℕ
  inum : ℕ
  ref : ℕ
  valid : Bool
  d : Dinode

inductive FileType where
  | none
  | inode
  | device
deriving DecidableEq

/-- `struct file`, but for pipes -/
structure File (K : ℕ) where
  type : FileType
  ref : ℕ
  readable : Bool
  writable : Bool
  ip : Option (Fin K)
  off : BitVec 32
  major : BitVec 16

/-- processes `P`, `K` inode table entries, `M` files -/
structure Fsys (P : Type) (K M : ℕ) where
  blk : ℕ → Block
  /-- the blocks of the current transaction: those given to `log_write`, last first -/
  logged : List ℕ
  /-- `log.outstanding` -/
  outstanding : ℕ
  inode : Fin K → Inode
  lock : Fin K → Option P
  file : Fin M → File K
  cwd : P → Option (Fin K)
  ofile : P → Fin NOFILE → Option (Fin M)

inductive FsPanic where
  | logTooBig
  | freeingFreeBlock
  | bmapOutOfRange
  | igetNoInodes
  | ilock
  | ilockNoType
  | iunlock
  | dirlookupNotDir
  | dirlookupRead
  | dirlinkRead
  | isdiremptyRead
  | unlinkNlink
  | unlinkWritei
  | filedup
  | fileclose
  | nullInode
deriving DecidableEq

/-- what can be seen of the acts: a block that `bmap` allocates, for a `readi` or a `writei`; a stretch
of a file that is written; a chunk of `filewrite`, with the value of its `writei`; what a `filewrite`
returns; an inode of this type is opened in this mode -/
inductive FsLabel (P : Type) where
  | alloc (reading : Bool)
  | store (p : P) (off src m : ℕ)
  | chunk (p : P) (i n1 : ℕ) (off : BitVec 32) (r : ℤ)
  | wrote (p : P) (n r : ℤ)
  | opened (p : P) (type : BitVec 16) (omode : BitVec 32)
deriving DecidableEq

section
variable {P : Type} [DecidableEq P] {K M : ℕ}

abbrev FsM (P : Type) (K M : ℕ) (α : Type) : Type 1 := Code (Fsys P K M) (FsLabel P) FsPanic α

namespace Fsys

/-- a buffer is changed, and its block is in the header of the log -/
def logAdd (s : Fsys P K M) (b : ℕ) (x : Block) : Fsys P K M :=
  { s with blk := Function.update s.blk b x, logged := b :: s.logged }

/-- `log.lh.n`; a block that is logged again is absorbed -/
def lhN (s : Fsys P K M) : ℕ := s.logged.dedup.length

/-- there is no room in the log: `log.size` is `sb.nlog`, and one of these blocks is the header -/
def LogFull (sb : FsSuper) (s : Fsys P K M) : Prop := LOGSIZE ≤ s.lhN ∨ sb.nlog - 1 ≤ s.lhN

instance LogFull.decidable (sb : FsSuper) (s : Fsys P K M) : Decidable (LogFull sb s) :=
  inferInstanceAs (Decidable (_ ∨ _))

/-- a buffer is changed and given to `log_write`; then the routine goes on with `a` -/
def logWrite {α : Type} (sb : FsSuper) (s : Fsys P K M) (b : ℕ) (x : Block) (a : α) :
    Reply FsPanic (α × Fsys P K M) :=
  if LogFull sb s then .panic .logTooBig else .ok (a, s.logAdd b x)

omit [DecidableEq P] in
theorem logWrite_ok {α : Type} {sb : FsSuper} {s s' : Fsys P K M} {b : ℕ} {x : Block} {a r : α}
    (h : s.logWrite sb b x a = .ok (r, s')) : r = a ∧ s' = s.logAdd b x := by
  unfold logWrite at h
  split at h
  · cases h
  · cases h
    exact ⟨rfl, rfl⟩

omit [DecidableEq P] in
theorem logWrite_panic {α : Type} {sb : FsSuper} {s : Fsys P K M} {b : ℕ} {x : Block} {a : α}
    {m : FsPanic} (h : s.logWrite sb b x a = .panic m) : m = .logTooBig ∧ LogFull sb s := by
  unfold logWrite at h
  split at h
  · cases h
    exact ⟨rfl, ‹_›⟩
  · cases h

/-- a buffer is changed, but not logged -/
def poke (s : Fsys P K M) (b : ℕ) (x : Block) : Fsys P K M :=
  { s with blk := Function.update s.blk b x }

def setInode (s : Fsys P K M) (k : Fin K) (ip : Inode) : Fsys P K M :=
  { s with inode := Function.update s.inode k ip }

def setLock (s : Fsys P K M) (k : Fin K) (o : Option P) : Fsys P K M :=
  { s with lock := Function.update s.lock k o }

def setFile (s : Fsys P K M) (f : Fin M) (x : File K) : Fsys P K M :=
  { s with file := Function.update s.file f x }

/-- the dinode with number `i` -/
def dinode (s : Fsys P K M) (sb : FsSuper) (i : ℕ) : Dinode :=
  Dinode.load (s.blk (sb.IBLOCK i)) (i % IPB)

end Fsys

namespace FileSys

/-! ## Transactions -/

/-- `begin_op`: it waits until the log has room for what the operation may write -/
def beginOp : FsM P K M Unit :=
  Code.atom fun s =>
    if s.lhN + (s.outstanding + 1) * MAXOPBLOCKS > LOGSIZE then .wait
    else .ok ((), { s with outstanding := s.outstanding + 1 })

/-- `end_op`: the last operation commits, and the log is empty again -/
def endOp : FsM P K M Unit :=
  Code.modify fun s => { s with
    outstanding := s.outstanding - 1
    logged := if s.outstanding - 1 = 0 then [] else s.logged }

/-- a routine between `begin_op` and `end_op`, which it calls on every way out -/
def inOp {α : Type} (c : FsM P K M α) : FsM P K M α := do
  beginOp
  let a ← c
  endOp
  return a

/-- the fields of a locked inode are read -/
def fields (k : Fin K) : FsM P K M Dinode := Code.read fun s => (s.inode k).d

/-- the fields of a locked inode are changed -/
def setFields (k : Fin K) (f : Dinode → Dinode) : FsM P K M Unit :=
  Code.modify fun s => s.setInode k { s.inode k with d := f (s.inode k).d }

/-! ## Blocks -/

/-- `bzero` -/
def bzero (sb : FsSuper) (b : ℕ) : FsM P K M Unit := Code.atom fun s => s.logWrite sb b (fun _ => 0) ()

/-- the inner loop of `balloc`: the first clear bit from `bi` on, of blocks below `sb.size` -/
def freeBit (x : Block) (b size : ℕ) : ℕ → ℕ → Option ℕ
  | 0, _ => none
  | n + 1, bi =>
    if b + bi < size then
      if x.bit bi then freeBit x b size n (bi + 1) else some bi
    else none

/-- one turn of the outer loop of `balloc` -/
def ballocTurn (sb : FsSuper) (reading : Bool) (b : ℕ) : FsM P K M (Option ℕ) :=
  Code.labelled (.alloc reading) fun s =>
    let x := s.blk (sb.BBLOCK b)
    match freeBit x b sb.size BPB 0 with
    | some bi => s.logWrite sb (sb.BBLOCK b) (x.setBit bi) (some (b + bi))
    | none => .ok (none, s)

def ballocLoop (sb : FsSuper) (reading : Bool) : ℕ → ℕ → FsM P K M ℕ
  | 0, _ => pure 0
  | n + 1, b => do
    if b < sb.size then
      match ← ballocTurn sb reading b with
      | some r =>
        bzero sb r
        return r
      | none => ballocLoop sb reading n (b + BPB)
    else return 0

/-- `balloc`; `reading` says for whom -/
def balloc (sb : FsSuper) (reading : Bool) : FsM P K M ℕ :=
  ballocLoop sb reading (sb.size / BPB + 1) 0

def bfree (sb : FsSuper) (b : ℕ) : FsM P K M Unit :=
  Code.atom fun s =>
    let x := s.blk (sb.BBLOCK b)
    if x.bit (b % BPB) then s.logWrite sb (sb.BBLOCK b) (x.clearBit (b % BPB)) ()
    else .panic .freeingFreeBlock

/-! ## Inodes -/

/-- `iget`; the scan of the table finds the entry, or else the first with no references -/
def iget (dev inum : ℕ) : FsM P K M (Fin K) :=
  Code.atom fun s =>
    match (List.finRange K).find? fun k =>
        0 < (s.inode k).ref && (s.inode k).dev == dev && (s.inode k).inum == inum with
    | some k => .ok (k, s.setInode k { s.inode k with ref := (s.inode k).ref + 1 })
    | none =>
      match (List.finRange K).find? fun k => (s.inode k).ref == 0 with
      | some k =>
        .ok (k, s.setInode k { s.inode k with dev := dev, inum := inum, ref := 1, valid := false })
      | none => .panic .igetNoInodes

/-- one turn of `ialloc`: the dinode is taken if it is free -/
def iallocTurn (sb : FsSuper) (inum : ℕ) (type : BitVec 16) : FsM P K M Bool :=
  Code.atom fun s =>
    if (s.dinode sb inum).type = 0 then
      s.logWrite sb (sb.IBLOCK inum)
        (({ Dinode.zero with type := type } : Dinode).store (s.blk (sb.IBLOCK inum)) (inum % IPB)) true
    else .ok (false, s)

def iallocLoop (sb : FsSuper) (dev : ℕ) (type : BitVec 16) : ℕ → ℕ → FsM P K M (Option (Fin K))
  | 0, _ => pure none
  | n + 1, inum => do
    if inum < sb.ninodes then
      if ← iallocTurn sb inum type then
        return some (← iget dev inum)
      else iallocLoop sb dev type n (inum + 1)
    else return none

def ialloc (sb : FsSuper) (dev : ℕ) (type : BitVec 16) : FsM P K M (Option (Fin K)) :=
  iallocLoop sb dev type sb.ninodes 1

def iupdate (sb : FsSuper) (k : Fin K) : FsM P K M Unit :=
  Code.atom fun s =>
    let b := sb.IBLOCK (s.inode k).inum
    s.logWrite sb b ((s.inode k).d.store (s.blk b) ((s.inode k).inum % IPB)) ()

/-- `acquiresleep(&ip->lock)`, after the check of `ilock` -/
def ilockTake (p : P) (k : Fin K) : FsM P K M Unit :=
  Code.atom fun s =>
    if (s.inode k).ref < 1 then .panic .ilock
    else if s.lock k = none then .ok ((), s.setLock k (some p))
    else .wait

/-- the fields are read from the disk if they are not valid -/
def ilockLoad (sb : FsSuper) (k : Fin K) : FsM P K M Bool :=
  Code.atom fun s =>
    if (s.inode k).valid then .ok (true, s)
    else
      let d := s.dinode sb (s.inode k).inum
      .ok (d.type ≠ 0, s.setInode k { s.inode k with d := d, valid := true })

def ilock (sb : FsSuper) (p : P) (k : Fin K) : FsM P K M Unit := do
  ilockTake p k
  unless ← ilockLoad sb k do Code.panic .ilockNoType

def iunlock (p : P) (k : Fin K) : FsM P K M Unit :=
  Code.atom fun s =>
    if s.lock k ≠ some p ∨ (s.inode k).ref < 1 then .panic .iunlock
    else .ok ((), s.setLock k none)

/-! ## Content -/

/-- `balloc` into `addrs[i]`, if that is 0 -/
def bmapAddr (sb : FsSuper) (reading : Bool) (k : Fin K) (i : ℕ) : FsM P K M ℕ := do
  let d ← fields k
  if d.addr i = 0 then
    let a ← balloc sb reading
    if a ≠ 0 then setFields k fun d => d.setAddr i a
    return a
  else return d.addr i

/-- `bmap` -/
def bmap (sb : FsSuper) (reading : Bool) (k : Fin K) (bn : ℕ) : FsM P K M ℕ := do
  if bn < NDIRECT then bmapAddr sb reading k bn
  else if bn - NDIRECT < NINDIRECT then
    let bp ← bmapAddr sb reading k NDIRECT
    if bp = 0 then return 0
    let a ← Code.read fun s => ((s.blk bp).int (bn - NDIRECT)).toNat
    if a = 0 then
      let a ← balloc sb reading
      if a ≠ 0 then
        Code.atom fun s => s.logWrite sb bp ((s.blk bp).setInt (bn - NDIRECT) (BitVec.ofNat 32 a)) ()
      return a
    else return a
  else Code.panic .bmapOutOfRange

/-- the loop of `itrunc` over the direct blocks -/
def itruncDirect (sb : FsSuper) (k : Fin K) : ℕ → ℕ → FsM P K M Unit
  | 0, _ => pure ()
  | n + 1, i => do
    let d ← fields k
    if d.addr i ≠ 0 then
      bfree sb (d.addr i)
      setFields k fun d => d.setAddr i 0
    itruncDirect sb k n (i + 1)

/-- its loop over the entries of the indirect block `b` -/
def itruncIndirect (sb : FsSuper) (b : ℕ) : ℕ → ℕ → FsM P K M Unit
  | 0, _ => pure ()
  | n + 1, j => do
    let a ← Code.read fun s => ((s.blk b).int j).toNat
    if a ≠ 0 then bfree sb a
    itruncIndirect sb b n (j + 1)

def itrunc (sb : FsSuper) (k : Fin K) : FsM P K M Unit := do
  itruncDirect sb k NDIRECT 0
  let d ← fields k
  if d.addr NDIRECT ≠ 0 then
    itruncIndirect sb (d.addr NDIRECT) NINDIRECT 0
    bfree sb (d.addr NDIRECT)
    setFields k fun d => d.setAddr NDIRECT 0
  setFields k fun d => { d with size := 0 }
  iupdate sb k

/-- `iput`: the last reference to an inode without links frees it -/
def iputCheck (p : P) (k : Fin K) : FsM P K M Bool :=
  Code.atom fun s =>
    let ip := s.inode k
    if ip.ref = 1 ∧ ip.valid = true ∧ ip.d.nlink = 0 then
      if s.lock k = none then .ok (true, s.setLock k (some p)) else .wait
    else .ok (false, s.setInode k { ip with ref := ip.ref - 1 })

def iput (sb : FsSuper) (p : P) (k : Fin K) : FsM P K M Unit := do
  if ← iputCheck p k then
    itrunc sb k
    setFields k fun d => { d with type := 0 }
    iupdate sb k
    Code.modify fun s => s.setInode k { s.inode k with valid := false }
    Code.modify fun s => s.setLock k none
    Code.modify fun s => s.setInode k { s.inode k with ref := (s.inode k).ref - 1 }

def iunlockput (sb : FsSuper) (p : P) (k : Fin K) : FsM P K M Unit := do
  iunlock p k
  iput sb p k

/-- how many of the `m` bytes from `src` on are mapped -/
def mappedLen {α : Type} (src : ℕ → Option α) : ℕ → ℕ → ℕ
  | _, 0 => 0
  | o, m + 1 => if (src o).isSome then mappedLen src (o + 1) m + 1 else 0

theorem mappedLen_le {α : Type} (src : ℕ → Option α) (o m : ℕ) : mappedLen src o m ≤ m := by
  induction m generalizing o with
  | zero => exact Nat.le_refl _
  | succ m ih =>
    unfold mappedLen
    split
    · exact Nat.succ_le_succ (ih _)
    · omega

/-- the loop of `readi`; `dst` has the writable destination bytes.  It returns how much is read, or
`none` after a failed copy, and the bytes copied -/
def readiLoop (sb : FsSuper) (k : Fin K) (dst : ℕ → Option Unit) (n : ℕ) :
    ℕ → ℕ → ℕ → List Byte → FsM P K M (Option ℕ × List Byte)
  | 0, tot, _, out => pure (some tot, out)
  | fuel + 1, tot, off, out => do
    if tot < n then
      let addr ← bmap sb true k (off / BSIZE)
      if addr = 0 then return (some tot, out)
      let m := min (n - tot) (BSIZE - off % BSIZE)
      let x ← Code.read fun s => s.blk addr
      let l := mappedLen dst tot m
      let out := out ++ x.bytes (off % BSIZE) l
      if l < m then return (none, out)
      readiLoop sb k dst n fuel (tot + m) (off + m) out
    else return (some tot, out)

/-- `readi`, with the bytes it stores; `off` and `n` are of type `uint` -/
def readi (sb : FsSuper) (k : Fin K) (dst : ℕ → Option Unit) (off n : ℕ) :
    FsM P K M (ℤ × List Byte) := do
  let d ← fields k
  let size := d.size.toNat
  if off > size ∨ (off + n) % 2 ^ 32 < off then return (0, [])
  let n := if (off + n) % 2 ^ 32 > size then size - off else n
  match ← readiLoop sb k dst n n 0 off [] with
  | (some tot, out) => return (tot, out)
  | (none, out) => return (-1, out)

/-- `either_copyin` into the buffer of `addr`, and `log_write` if all bytes are mapped; `copyin` copies
what comes before the first byte that is not -/
def writeiCopy (sb : FsSuper) (p : P) (src : ℕ → Option Byte) (addr off tot m : ℕ) : FsM P K M Bool :=
  let l := mappedLen src tot m
  Code.labelled (.store p off tot l) fun s =>
    let x := (s.blk addr).splice (off % BSIZE) src tot l
    if l < m then .ok (false, s.poke addr x) else s.logWrite sb addr x true

/-- the loop of `writei`; it returns `tot` and `off` -/
def writeiLoop (sb : FsSuper) (p : P) (k : Fin K) (src : ℕ → Option Byte) (n : ℕ) :
    ℕ → ℕ → ℕ → FsM P K M (ℕ × ℕ)
  | 0, tot, off => pure (tot, off)
  | fuel + 1, tot, off => do
    if tot < n then
      let addr ← bmap sb false k (off / BSIZE)
      if addr = 0 then return (tot, off)
      let m := min (n - tot) (BSIZE - off % BSIZE)
      if ← writeiCopy sb p src addr off tot m then
        writeiLoop sb p k src n fuel (tot + m) (off + m)
      else return (tot, off)
    else return (tot, off)

/-- `writei`; `src i` is the byte at `src + i`, if that is mapped -/
def writei (sb : FsSuper) (p : P) (k : Fin K) (src : ℕ → Option Byte) (off n : ℕ) : FsM P K M ℤ := do
  let d ← fields k
  if off > d.size.toNat ∨ (off + n) % 2 ^ 32 < off then return -1
  if (off + n) % 2 ^ 32 > MAXFILE * BSIZE then return -1
  let (tot, off) ← writeiLoop sb p k src n n 0 off
  setFields k fun d => if off > d.size.toNat then { d with size := BitVec.ofNat 32 off } else d
  iupdate sb k
  return tot

end FileSys
end
end Xv6
