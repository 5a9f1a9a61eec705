import Xv6.Fs.Dir

/-!
# Files: `file.c` and the calls of `sysfile.c`

* `filewriteInode`   `filewrite` on an inode, in chunks that fit a transaction;
* `create`, `sysLink`, `sysUnlink`, `sysOpen`, `sysMkdir`, `sysMknod`, `sysChdir`, `sysClose`, `sysDup`,
  `sysWrite`, `exitFiles`;
* `FsCall`   the calls, with any arguments.

The calls on names are made in one transaction each, from `begin_op` to the `end_op` on every way out
(`FsCall.code`); `p->cwd`, which nobody else sees, is set before the `end_op` of `sys_chdir` here.
-/

namespace Xv6.FileSys

def NDEV : ℕ := 10

def O_RDONLY : BitVec 32 := 0
def O_WRONLY : BitVec 32 := 1
def O_RDWR : BitVec 32 := 2
def O_CREATE : BitVec 32 := 0x200
def O_TRUNC : BitVec 32 := 0x400

section
variable {P : Type} [DecidableEq P] {K M : ℕ}

/-! ## Files -/

/-- `filealloc` -/
def filealloc : FsM P K M (Option (Fin M)) :=
  Code.atom fun s =>
    match (List.finRange M).find? fun f => (s.file f).ref == 0 with
    | some f => .ok (some f, s.setFile f { s.file f with ref := 1 })
    | none => .ok (none, s)

/-- `fdalloc` -/
def fdalloc (p : P) (f : Fin M) : FsM P K M (Option (Fin NOFILE)) :=
  Code.atom fun s =>
    match (List.finRange NOFILE).find? fun fd => (s.ofile p fd).isNone with
    | some fd => .ok (some fd,
        { s with ofile := Function.update s.ofile p (Function.update (s.ofile p) fd (some f)) })
    | none => .ok (none, s)

/-- `filedup` -/
def filedup (f : Fin M) : FsM P K M Unit :=
  Code.atom fun s =>
    if (s.file f).ref < 1 then .panic .filedup
    else .ok ((), s.setFile f { s.file f with ref := (s.file f).ref + 1 })

/-- `fileclose` under `ftable.lock`: the inode of the file if that was the last reference -/
def filecloseDrop (f : Fin M) : FsM P K M (Option (Fin K)) :=
  Code.atom fun s =>
    let x := s.file f
    if x.ref < 1 then .panic .fileclose
    else if 0 < x.ref - 1 then .ok (none, s.setFile f { x with ref := x.ref - 1 })
    else .ok (if x.type = .none then none else x.ip, s.setFile f { x with ref := 0, type := .none })

def fileclose (sb : FsSuper) (p : P) (f : Fin M) : FsM P K M Unit := do
  match ← filecloseDrop f with
  | some ip => inOp (iput sb p ip)
  | none => return ()

/-- `f->ip` -/
def fileIp (f : Fin M) : FsM P K M (Fin K) :=
  Code.atom fun s =>
    match (s.file f).ip with
    | some k => .ok (k, s)
    | none => .panic .nullInode

/-- `max` of `filewrite` -/
def writeMax : ℕ := ((MAXOPBLOCKS - 1 - 1 - 2) / 2) * BSIZE

/-- `if (r > 0) f->off += r` -/
def advance (p : P) (f : Fin M) (i n1 : ℕ) (off : BitVec 32) (r : ℤ) : FsM P K M Unit :=
  Code.labelled (.chunk p i n1 off r) fun s =>
    .ok ((), if r > 0 then s.setFile f { s.file f with off := (s.file f).off + BitVec.ofInt 32 r } else s)

/-- a chunk of `filewrite`: `n1` bytes from byte `i` of the source on -/
def writeChunk (sb : FsSuper) (p : P) (f : Fin M) (src : ℕ → Option Byte) (i n1 : ℕ) : FsM P K M ℤ := do
  let ip ← fileIp f
  ilock sb p ip
  let off ← Code.read fun s => (s.file f).off
  let r ← writei sb p ip (fun j => src (i + j)) off.toNat n1
  advance p f i n1 off r
  iunlock p ip
  return r

/-- the loop of `filewrite`; it returns `i` -/
def filewriteLoop (sb : FsSuper) (p : P) (f : Fin M) (src : ℕ → Option Byte) (n : ℕ) :
    ℕ → ℕ → FsM P K M ℕ
  | 0, i => pure i
  | fuel + 1, i => do
    if i < n then
      let n1 := min (n - i) writeMax
      let r ← inOp (writeChunk sb p f src i n1)
      if r ≠ n1 then return i
      filewriteLoop sb p f src n fuel (i + n1)
    else return i

/-- `filewrite` on a file of type `FD_INODE`; a negative `n` ends the loop at once -/
def filewriteInode (sb : FsSuper) (p : P) (f : Fin M) (src : ℕ → Option Byte) (n : CInt) :
    FsM P K M ℤ := do
  let i ← filewriteLoop sb p f src n.toInt.toNat n.toInt.toNat 0
  let ret : ℤ := if (i : ℤ) = n.toInt then n.toInt else -1
  Code.labelled (.wrote p n.toInt ret) fun s => .ok (ret, s)

/-! ## Names -/

def sysLink (sb : FsSuper) (p : P) (old new : List Byte) : FsM P K M ℤ := do
  match ← namei sb p old with
  | none => return -1
  | some ip =>
    ilock sb p ip
    let d ← fields ip
    if d.type = T_DIR then
      iunlockput sb p ip
      return -1
    else
      setFields ip fun d => { d with nlink := d.nlink + 1 }
      iupdate sb ip
      iunlock p ip
      let ok ← do
        match ← nameiparent sb p new with
        | none => pure false
        | some (dp, name) =>
          ilock sb p dp
          let same ← Code.read fun s => (s.inode dp).dev == (s.inode ip).dev
          let inum ← Code.read fun s => (s.inode ip).inum
          let ok ← if same then dirlink sb p dp name inum else pure false
          iunlockput sb p dp
          pure ok
      if ok then
        iput sb p ip
        return 0
      else
        ilock sb p ip
        setFields ip fun d => { d with nlink := d.nlink - 1 }
        iupdate sb ip
        iunlockput sb p ip
        return -1

def isdiremptyLoop (sb : FsSuper) (dp : Fin K) : ℕ → ℕ → FsM P K M Bool
  | 0, _ => pure true
  | n + 1, off => do
    let d ← fields dp
    if off < d.size.toNat then
      let de ← readDirent sb dp off .isdiremptyRead
      if de.inum ≠ 0 then return false
      isdiremptyLoop sb dp n (off + 16)
    else return true

/-- `isdirempty` -/
def isdirempty (sb : FsSuper) (dp : Fin K) : FsM P K M Bool := do
  let d ← fields dp
  isdiremptyLoop sb dp (d.size.toNat / 16 + 1) 32

def sysUnlink (sb : FsSuper) (p : P) (path : List Byte) : FsM P K M ℤ := do
  match ← nameiparent sb p path with
  | none => return -1
  | some (dp, name) =>
    ilock sb p dp
    if namecmp (cstr name) (cstr dot) = 0 ∨ namecmp (cstr name) (cstr dotdot) = 0 then
      iunlockput sb p dp
      return -1
    else
      match ← dirlookup sb dp name with
      | none =>
        iunlockput sb p dp
        return -1
      | some (ip, off) =>
        ilock sb p ip
        let d ← fields ip
        if d.nlink.toInt < 1 then Code.panic .unlinkNlink
        let keep ← if d.type = T_DIR then (do return !(← isdirempty sb ip)) else pure false
        if keep then
          iunlockput sb p ip
          iunlockput sb p dp
          return -1
        else
          let r ← writei sb p dp (kernelSrc fun _ => 0) off 16
          if r ≠ 16 then Code.panic .unlinkWritei
          if d.type = T_DIR then
            setFields dp fun d => { d with nlink := d.nlink - 1 }
            iupdate sb dp
          iunlockput sb p dp
          setFields ip fun d => { d with nlink := d.nlink - 1 }
          iupdate sb ip
          iunlockput sb p ip
          return 0

/-- `create` after `ialloc` has given it `ip`, with `dp` locked: whether the entries could be made -/
def createLink (sb : FsSuper) (p : P) (dp ip : Fin K) (name : List Byte) (type : BitVec 16) :
    FsM P K M Bool := do
  let inum ← Code.read fun s => (s.inode ip).inum
  let pinum ← Code.read fun s => (s.inode dp).inum
  let dots ←
    if type = T_DIR then do
      if ← dirlink sb p ip dot inum then dirlink sb p ip dotdot pinum else pure false
    else pure true
  if dots then dirlink sb p dp name inum else return false

/-- `create`: the inode, locked -/
def create (sb : FsSuper) (p : P) (path : List Byte) (type major minor : BitVec 16) :
    FsM P K M (Option (Fin K)) := do
  match ← nameiparent sb p path with
  | none => return none
  | some (dp, name) =>
    ilock sb p dp
    match ← dirlookup sb dp name with
    | some (ip, _) =>
      iunlockput sb p dp
      ilock sb p ip
      let d ← fields ip
      if type = T_FILE ∧ (d.type = T_FILE ∨ d.type = T_DEVICE) then return some ip
      else
        iunlockput sb p ip
        return none
    | none =>
      let dev ← Code.read fun s => (s.inode dp).dev
      match ← ialloc sb dev type with
      | none =>
        iunlockput sb p dp
        return none
      | some ip =>
        ilock sb p ip
        setFields ip fun d => { d with major := major, minor := minor, nlink := 1 }
        iupdate sb ip
        if ← createLink sb p dp ip name type then
          if type = T_DIR then
            setFields dp fun d => { d with nlink := d.nlink + 1 }
            iupdate sb dp
          iunlockput sb p dp
          return some ip
        else
          setFields ip fun d => { d with nlink := 0 }
          iupdate sb ip
          iunlockput sb p ip
          iunlockput sb p dp
          return none

/-! ## Calls -/

/-- the fields of the file that `sys_open` fills in -/
def setOpened (p : P) (f : Fin M) (ip : Fin K) (d : Dinode) (omode : BitVec 32) : FsM P K M Unit :=
  Code.labelled (.opened p d.type omode) fun s =>
    .ok ((), s.setFile f { s.file f with
      type := if d.type = T_DEVICE then .device else .inode
      off := if d.type = T_DEVICE then (s.file f).off else 0
      major := if d.type = T_DEVICE then d.major else (s.file f).major
      ip := some ip
      readable := omode &&& O_WRONLY = 0
      writable := omode &&& O_WRONLY ≠ 0 || omode &&& O_RDWR ≠ 0 })

/-- `sys_open` from the locked inode on -/
def openFile (sb : FsSuper) (p : P) (ip : Fin K) (omode : BitVec 32) : FsM P K M ℤ := do
  let d ← fields ip
  if d.type = T_DEVICE ∧ (d.major.toInt < 0 ∨ (NDEV : ℤ) ≤ d.major.toInt) then
    iunlockput sb p ip
    return -1
  else
    match ← filealloc with
    | none =>
      iunlockput sb p ip
      return -1
    | some f =>
      match ← fdalloc p f with
      | none =>
        fileclose sb p f
        iunlockput sb p ip
        return -1
      | some fd =>
        setOpened p f ip d omode
        if omode &&& O_TRUNC ≠ 0 ∧ d.type = T_FILE then itrunc sb ip
        iunlock p ip
        return fd.val

def sysOpen (sb : FsSuper) (p : P) (path : List Byte) (omode : BitVec 32) : FsM P K M ℤ := do
  if omode &&& O_CREATE ≠ 0 then
    match ← create sb p path T_FILE 0 0 with
    | none => return -1
    | some ip => openFile sb p ip omode
  else
    match ← namei sb p path with
    | none => return -1
    | some ip =>
      ilock sb p ip
      let d ← fields ip
      if d.type = T_DIR ∧ omode ≠ O_RDONLY then
        iunlockput sb p ip
        return -1
      else openFile sb p ip omode

def sysMknodType (sb : FsSuper) (p : P) (path : List Byte) (type major minor : BitVec 16) :
    FsM P K M ℤ := do
  match ← create sb p path type major minor with
  | none => return -1
  | some ip =>
    iunlockput sb p ip
    return 0

def sysMkdir (sb : FsSuper) (p : P) (path : List Byte) : FsM P K M ℤ :=
  sysMknodType sb p path T_DIR 0 0

/-- `sys_mknod`; `create` takes the low halves of the two `int`s -/
def sysMknod (sb : FsSuper) (p : P) (path : List Byte) (major minor : CInt) : FsM P K M ℤ :=
  sysMknodType sb p path T_DEVICE (major.setWidth 16) (minor.setWidth 16)

/-- `p->cwd` -/
def getCwd (p : P) : FsM P K M (Fin K) :=
  Code.atom fun s =>
    match s.cwd p with
    | some k => .ok (k, s)
    | none => .panic .nullInode

def sysChdir (sb : FsSuper) (p : P) (path : List Byte) : FsM P K M ℤ := do
  match ← namei sb p path with
  | none => return -1
  | some ip =>
    ilock sb p ip
    let d ← fields ip
    if d.type ≠ T_DIR then
      iunlockput sb p ip
      return -1
    else
      iunlock p ip
      let old ← getCwd p
      iput sb p old
      Code.modify fun s => { s with cwd := Function.update s.cwd p (some ip) }
      return 0

/-- `argfd` -/
def argfd (p : P) (fd : Fin NOFILE) : FsM P K M (Option (Fin M)) := Code.read fun s => s.ofile p fd

def clearFd (p : P) (fd : Fin NOFILE) : FsM P K M Unit :=
  Code.modify fun s =>
    { s with ofile := Function.update s.ofile p (Function.update (s.ofile p) fd none) }

def sysClose (sb : FsSuper) (p : P) (fd : Fin NOFILE) : FsM P K M ℤ := do
  match ← argfd p fd with
  | none => return -1
  | some f =>
    clearFd p fd
    fileclose sb p f
    return 0

def sysDup (p : P) (fd : Fin NOFILE) : FsM P K M ℤ := do
  match ← argfd p fd with
  | none => return -1
  | some f =>
    match ← fdalloc p f with
    | none => return -1
    | some fd' =>
      filedup f
      return fd'.val

/-- `sys_write`; the drivers of devices are not part of the file system -/
def sysWrite (sb : FsSuper) (p : P) (fd : Fin NOFILE) (src : ℕ → Option Byte) (n : CInt) :
    FsM P K M ℤ := do
  match ← argfd p fd with
  | none => return -1
  | some f =>
    let x ← Code.read fun s => s.file f
    if x.writable = false then return -1
    else if x.type = .inode then filewriteInode sb p f src n
    else return -1

/-- `fileread` on an inode -/
def filereadInode (sb : FsSuper) (p : P) (f : Fin M) (dst : ℕ → Option Unit) (n : CInt) :
    FsM P K M (ℤ × List Byte) := do
  let ip ← fileIp f
  ilock sb p ip
  let off ← Code.read fun s => (s.file f).off
  let (r, x) ← readi sb ip dst off.toNat n.toNat
  if r > 0 then
    Code.modify fun s => s.setFile f { s.file f with off := (s.file f).off + BitVec.ofInt 32 r }
  iunlock p ip
  return (r, x)

/-- `fileread`, but for pipes and devices -/
def fileread (sb : FsSuper) (p : P) (f : Fin M) (dst : ℕ → Option Unit) (n : CInt) :
    FsM P K M (ℤ × List Byte) := do
  let x ← Code.read fun s => s.file f
  if x.readable = false then return (-1, [])
  else filereadInode sb p f dst n

def sysRead (sb : FsSuper) (p : P) (fd : Fin NOFILE) (dst : ℕ → Option Unit) (n : CInt) :
    FsM P K M ℤ := do
  match ← argfd p fd with
  | none => return -1
  | some f =>
    let x ← Code.read fun s => s.file f
    if x.readable = false then return -1
    else if x.type = .inode then return (← filereadInode sb p f dst n).1
    else return -1

/-- the loop of `exit` over the open files -/
def exitLoop (sb : FsSuper) (p : P) : List (Fin NOFILE) → FsM P K M Unit
  | [] => pure ()
  | fd :: fds => do
    match ← argfd p fd with
    | none => pure ()
    | some f =>
      fileclose sb p f
      clearFd p fd
    exitLoop sb p fds

/-- what `exit` does to files: it closes them and drops the current directory -/
def exitFiles (sb : FsSuper) (p : P) : FsM P K M Unit := do
  exitLoop sb p (List.finRange NOFILE)
  inOp (do iput sb p (← getCwd p))
  Code.modify fun s => { s with cwd := Function.update s.cwd p none }

/-- the calls of a process -/
inductive FsCall where
  | link (old new : List Byte)
  | unlink (path : List Byte)
  | openAt (path : List Byte) (omode : BitVec 32)
  | mkdir (path : List Byte)
  | mknod (path : List Byte) (major minor : CInt)
  | chdir (path : List Byte)
  | close (fd : Fin NOFILE)
  | dup (fd : Fin NOFILE)
  | write (fd : Fin NOFILE) (src : ℕ → Option Byte) (n : CInt)
  | read (fd : Fin NOFILE) (dst : ℕ → Option Unit) (n : CInt)

def FsCall.code (sb : FsSuper) (p : P) : FsCall → FsM P K M ℤ
  | .link old new => inOp (sysLink sb p old new)
  | .unlink path => inOp (sysUnlink sb p path)
  | .openAt path omode => inOp (sysOpen sb p path omode)
  | .mkdir path => inOp (sysMkdir sb p path)
  | .mknod path major minor => inOp (sysMknod sb p path major minor)
  | .chdir path => inOp (sysChdir sb p path)
  | .close fd => sysClose sb p fd
  | .dup fd => sysDup p fd
  | .write fd src n => sysWrite sb p fd src n
  | .read fd dst n => sysRead sb p fd dst n

end
end Xv6.FileSys
