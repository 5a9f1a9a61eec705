import Xv6.Fs.Inode

/-!
# Directories and paths: the end of `fs.c`

* `Dirent`   `struct dirent`, 16 bytes of a directory;
* `dirlookup`, `dirlink`   entries are found and added;
* `skipelem`, `namex`   a path is followed.

A string is the list of its bytes before the NUL; `cstr` is what a pointer to it sees.
-/

namespace Xv6.FileSys

def DIRSIZ : ℕ := 14

def slash : Byte := 0x2f
/-- `"."` and `".."` -/
def dot : List Byte := [0x2e]
def dotdot : List Byte := [0x2e, 0x2e]

def cstr (l : List Byte) (i : ℕ) : Byte := l.getD i 0

/-- `strncmp` -/
def strncmp (p q : ℕ → Byte) : ℕ → ℕ → ℤ
  | 0, _ => 0
  | n + 1, i =>
    if p i ≠ 0 ∧ p i = q i then strncmp p q n (i + 1) else (p i).toNat - (q i).toNat

/-- `strncpy` into a buffer: the bytes up to the NUL, then zeros -/
def strncpy (t : ℕ → Byte) (i : ℕ) : Byte := if ∀ j < i, t j ≠ 0 then t i else 0

/-- `namecmp` -/
def namecmp (s t : ℕ → Byte) : ℤ := strncmp s t DIRSIZ 0

structure Dirent where
  inum : BitVec 16
  name : ℕ → Byte

/-- the entry in 16 bytes read -/
def Dirent.load (x : List Byte) : Dirent := ⟨x.getD 1 0 ++ x.getD 0 0, fun i => x.getD (i + 2) 0⟩

/-- its bytes -/
def Dirent.byte (de : Dirent) (o : ℕ) : Byte :=
  if o < 2 then de.inum.extractLsb' (8 * o) 8 else de.name (o - 2)

/-- a kernel address, of which every byte is mapped -/
def kernelSrc (f : ℕ → Byte) (i : ℕ) : Option Byte := some (f i)
def kernelDst (_ : ℕ) : Option Unit := some ()

section
variable {P : Type} [DecidableEq P] {K M : ℕ}

/-- `readi` of one entry -/
def readDirent (sb : FsSuper) (dp : Fin K) (off : ℕ) (m : FsPanic) : FsM P K M Dirent := do
  let (r, x) ← readi sb dp kernelDst off 16
  if r ≠ 16 then Code.panic m
  return Dirent.load x

def dirlookupLoop (sb : FsSuper) (dp : Fin K) (name : List Byte) :
    ℕ → ℕ → FsM P K M (Option (Fin K × ℕ))
  | 0, _ => pure none
  | n + 1, off => do
    let d ← fields dp
    if off < d.size.toNat then
      let de ← readDirent sb dp off .dirlookupRead
      if de.inum ≠ 0 ∧ namecmp (cstr name) de.name = 0 then
        let dev ← Code.read fun s => (s.inode dp).dev
        return some (← iget dev de.inum.toNat, off)
      else dirlookupLoop sb dp name n (off + 16)
    else return none

/-- `dirlookup`, with the offset of the entry -/
def dirlookup (sb : FsSuper) (dp : Fin K) (name : List Byte) : FsM P K M (Option (Fin K × ℕ)) := do
  let d ← fields dp
  if d.type ≠ T_DIR then Code.panic .dirlookupNotDir
  dirlookupLoop sb dp name (d.size.toNat / 16 + 1) 0

/-- the loop of `dirlink` that looks for an empty entry -/
def dirlinkLoop (sb : FsSuper) (dp : Fin K) : ℕ → ℕ → FsM P K M ℕ
  | 0, off => pure off
  | n + 1, off => do
    let d ← fields dp
    if off < d.size.toNat then
      let de ← readDirent sb dp off .dirlinkRead
      if de.inum = 0 then return off
      dirlinkLoop sb dp n (off + 16)
    else return off

/-- `dirlink`; whether it succeeds -/
def dirlink (sb : FsSuper) (p : P) (dp : Fin K) (name : List Byte) (inum : ℕ) : FsM P K M Bool := do
  match ← dirlookup sb dp name with
  | some (ip, _) =>
    iput sb p ip
    return false
  | none =>
    let d ← fields dp
    let off ← dirlinkLoop sb dp (d.size.toNat / 16 + 1) 0
    let de : Dirent := ⟨BitVec.ofNat 16 inum, strncpy (cstr name)⟩
    let r ← writei sb p dp (kernelSrc de.byte) off 16
    return r = 16

/-! ## Paths -/

/-- `skipelem`: the next element of the path, cut to `DIRSIZ` bytes, and the rest -/
def skipelem (path : List Byte) : Option (List Byte × List Byte) :=
  let path := path.dropWhile (· == slash)
  if path = [] then none
  else
    some ((path.takeWhile (· != slash)).take DIRSIZ,
      (path.dropWhile (· != slash)).dropWhile (· == slash))

/-- the loop of `namex` from `ip` on -/
def namexLoop (sb : FsSuper) (p : P) (parent : Bool) :
    ℕ → List Byte → List Byte → Fin K → FsM P K M (Option (Fin K × List Byte))
  | 0, _, _, _ => pure none
  | n + 1, path, name, ip => do
    match skipelem path with
    | none =>
      if parent then
        iput sb p ip
        return none
      else return some (ip, name)
    | some (name, path) =>
      ilock sb p ip
      let d ← fields ip
      if d.type ≠ T_DIR then
        iunlockput sb p ip
        return none
      else if parent ∧ path = [] then
        iunlock p ip
        return some (ip, name)
      else
        match ← dirlookup sb ip name with
        | none =>
          iunlockput sb p ip
          return none
        | some (next, _) =>
          iunlockput sb p ip
          namexLoop sb p parent n path name next

/-- `idup(myproc()->cwd)` -/
def idupCwd (p : P) : FsM P K M (Fin K) :=
  Code.atom fun s =>
    match s.cwd p with
    | some k => .ok (k, s.setInode k { s.inode k with ref := (s.inode k).ref + 1 })
    | none => .panic .nullInode

/-- `namex`; the name is that of the last element taken -/
def namex (sb : FsSuper) (p : P) (path : List Byte) (parent : Bool) :
    FsM P K M (Option (Fin K × List Byte)) := do
  let ip ← if path.head? = some slash then iget ROOTDEV ROOTINO else idupCwd p
  namexLoop sb p parent (path.length + 1) path [] ip

def namei (sb : FsSuper) (p : P) (path : List Byte) : FsM P K M (Option (Fin K)) := do
  return (← namex sb p path false).map Prod.fst

def nameiparent (sb : FsSuper) (p : P) (path : List Byte) : FsM P K M (Option (Fin K × List Byte)) :=
  namex sb p path true

end
end Xv6.FileSys
