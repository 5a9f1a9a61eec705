import Xv6.Lib.Zoom
import Xv6.Kernel.Protect
import Xv6.Fs.Dir

/-!
# `exec.c`, and `sys_exec`

`exec` works on the file system and on the tables of the kernel, and counts in the log.  A part of the
code that works on one of them is that part's own code (`Code.zoom`).

* `Elfhdr`, `Proghdr`   `elf.h`, with their bytes in the file;
* `loadseg`, `loadSegments`   the loop over the program headers;
* `pushStack`   the arguments on the user stack;
* `execImage`, `execArgs`   `exec` before the arguments, and from there on;
* `Sys.exec`, `sysExec`;
* `fetchArgs_length`   **`sys_exec` passes fewer than `MAXARG` strings**.

An `argv` of the kernel is the list of its strings, without the NULs.
-/

namespace Xv6

def MAXARG : ℕ := 32
def MAXPATH : ℕ := 128

/-! ## `elf.h` -/

def ELF_MAGIC : ℕ := 0x464C457F
def ELF_PROG_LOAD : ℕ := 1

/-- a number in memory, lowest byte first -/
def leNat (x : List Byte) : ℕ := x.foldr (fun b n => b.toNat + 256 * n) 0

/-- the `n` bytes at offset `o` of a record -/
def field (x : List Byte) (o n : ℕ) : ℕ := leNat ((x.drop o).take n)

/-- a `uint64` in memory -/
def le64 (x : ℕ) : List Byte := (List.range 8).map fun i => BitVec.ofNat 8 (x / 256 ^ i)

/-- `struct elfhdr`, the fields that `exec` uses -/
structure Elfhdr where
  magic : ℕ
  entry : ℕ
  phoff : ℕ
  phnum : ℕ

/-- `sizeof(struct elfhdr)` -/
def Elfhdr.bytes : ℕ := 64

def Elfhdr.load (x : List Byte) : Elfhdr where
  magic := field x 0 4
  entry := field x 24 8
  phoff := field x 32 8
  phnum := field x 56 2

/-- `struct proghdr`, the fields that `exec` uses -/
structure Proghdr where
  type : ℕ
  flags : ℕ
  off : ℕ
  vaddr : ℕ
  filesz : ℕ
  memsz : ℕ

/-- `sizeof(struct proghdr)` -/
def Proghdr.bytes : ℕ := 56

def Proghdr.load (x : List Byte) : Proghdr where
  type := field x 0 4
  flags := field x 4 4
  off := field x 8 8
  vaddr := field x 16 8
  filesz := field x 32 8
  memsz := field x 40 8

/-! ## State -/

/-- the tables of the kernel, the file system, and `log.outstanding` -/
structure Sys (N K M : ℕ) where
  kern : KState N
  fs : Fsys (Slot N) K M
  outstanding : ℤ

/-- a panic of the file system, of the memory routines (`kalloc.c`, `vm.c`), or `loadseg: address should
exist` -/
inductive SysPanic where
  | fs (m : FsPanic)
  | mem
  | loadseg
deriving DecidableEq

section
variable {N K M : ℕ} {α : Type}

abbrev SysM (N K M : ℕ) (α : Type) : Type 1 := Code (Sys N K M) (FsLabel (Slot N)) SysPanic α

def Sys.kernPart : StatePart (Sys N K M) (KState N) where
  get s := s.kern
  put k s := { s with kern := k }
  get_put _ _ := rfl
  put_get _ := rfl
  put_put _ _ _ := rfl

def Sys.fsPart : StatePart (Sys N K M) (Fsys (Slot N) K M) where
  get s := s.fs
  put f s := { s with fs := f }
  get_put _ _ := rfl
  put_get _ := rfl
  put_put _ _ _ := rfl

/-- a routine on the tables of the kernel -/
def onKern (x : KM N α) : SysM N K M α := Code.ofAct Sys.kernPart .mem x

/-- a routine of the file system -/
def onFs (c : FsM (Slot N) K M α) : SysM N K M α := c.zoom Sys.fsPart .fs

/-- `begin_op`, when there is room in the log -/
def beginOp : SysM N K M Unit := Code.modify fun s => { s with outstanding := s.outstanding + 1 }

def endOp : SysM N K M Unit := Code.modify fun s => { s with outstanding := s.outstanding - 1 }

/-! ## `vm.c` -/

/-- `uvmclear`: the page is not for the user any more -/
def uvmclear (pt : PageTable) (va : ℕ) : KM N PageTable := do
  let (_, ok) ← walk pt va false
  if ok then
    match pt.leaf va with
    | none => return pt
    | some l => return pt.setLeaf va (some { l with flags := l.flags ^^^ (l.flags &&& PTE_U) })
  else Act.stop

/-! ## Segments -/

/-- the loop of `loadseg`, with `n` pages to go from `i` on -/
def loadsegLoop (sb : FsSuper) (ip : Fin K) (va offset sz : ℕ) :
    ℕ → ℕ → PageTable → SysM N K M (PageTable × Bool)
  | 0, _, pt => pure (pt, true)
  | n + 1, i, pt =>
    match walkaddr pt ((va + i) % 2 ^ 64) with
    | none => Code.panic .loadseg
    | some l => do
      let m := if sz - i < PGSIZE then sz - i else PGSIZE
      let (r, x) ← onFs (FileSys.readi sb ip FileSys.kernelDst ((offset + i) % 2 ^ 32) m)
      let pt := pt.setLeaf ((va + i) % 2 ^ 64) (some (l.write 0 x))
      if r ≠ m then return (pt, false)
      else loadsegLoop sb ip va offset sz n (i + PGSIZE) pt

/-- `loadseg`; `offset` and `sz` are of type `uint` -/
def loadseg (sb : FsSuper) (pt : PageTable) (va : ℕ) (ip : Fin K) (offset sz : ℕ) :
    SysM N K M (PageTable × Bool) :=
  loadsegLoop sb ip va offset sz ((sz + PGSIZE - 1) / PGSIZE) 0 pt

/-- the loop of `exec` over the program headers, with `n` of them to go; `off` is an `int` that becomes a
`uint` -/
def loadSegments (sb : FsSuper) (ip : Fin K) :
    ℕ → ℕ → PageTable → ℕ → SysM N K M (PageTable × ℕ × Bool)
  | 0, _, pt, sz => pure (pt, sz, true)
  | n + 1, off, pt, sz => do
    let (r, x) ← onFs (FileSys.readi sb ip FileSys.kernelDst off Proghdr.bytes)
    if r ≠ Proghdr.bytes then return (pt, sz, false)
    else
      let ph := Proghdr.load x
      let off := (off + Proghdr.bytes) % 2 ^ 32
      if ph.type ≠ ELF_PROG_LOAD then loadSegments sb ip n off pt sz
      else if ph.memsz < ph.filesz then return (pt, sz, false)
      else if (ph.vaddr + ph.memsz) % 2 ^ 64 < ph.vaddr then return (pt, sz, false)
      else if ph.vaddr % PGSIZE ≠ 0 then return (pt, sz, false)
      else
        let (pt, sz1) ← onKern (uvmalloc pt sz ((ph.vaddr + ph.memsz) % 2 ^ 64) (flags2perm ph.flags))
        if sz1 = 0 then return (pt, sz, false)
        else
          let (pt, ok) ← loadseg sb pt ph.vaddr ip (ph.off % 2 ^ 32) (ph.filesz % 2 ^ 32)
          if ok then loadSegments sb ip n off pt sz1 else return (pt, sz1, false)

/-! ## Arguments -/

/-- `sp -= n; sp -= sp % 16;` -/
def pushDown (sp n : ℕ) : ℕ :=
  let sp := (sp + (2 ^ 64 - n % 2 ^ 64)) % 2 ^ 64
  sp - sp % 16

/-- the loop over `argv`; `ustack` has the addresses of the strings pushed so far -/
def pushArgs (stackbase : ℕ) : PageTable → ℕ → List ℕ → List (List Byte) →
    PageTable × Option (ℕ × List ℕ)
  | pt, sp, ustack, [] => (pt, some (sp, ustack))
  | pt, sp, ustack, s :: argv =>
    if MAXARG ≤ ustack.length then (pt, none)
    else
      let sp := pushDown sp (s.length + 1)
      if sp < stackbase then (pt, none)
      else
        match copyout pt sp (s ++ [0]) with
        | (pt, false) => (pt, none)
        | (pt, true) => pushArgs stackbase pt sp (ustack ++ [sp]) argv

/-- the array of pointers, below the strings; `ustack` has room for it, as `sys_exec` passes fewer than
`MAXARG` strings (`fetchArgs_length`) -/
def pushTable (stackbase : ℕ) (pt : PageTable) (sp : ℕ) (ustack : List ℕ) : PageTable × Option ℕ :=
  let sp := pushDown sp ((ustack.length + 1) * 8)
  if sp < stackbase then (pt, none)
  else
    match copyout pt sp ((ustack ++ [0]).flatMap le64) with
    | (pt, false) => (pt, none)
    | (pt, true) => (pt, some sp)

/-- all of the arguments -/
def pushStack (stackbase : ℕ) (pt : PageTable) (sp : ℕ) (argv : List (List Byte)) :
    PageTable × Option ℕ :=
  match pushArgs stackbase pt sp [] argv with
  | (pt, none) => (pt, none)
  | (pt, some (sp, ustack)) => pushTable stackbase pt sp ustack

/-! ## `exec` -/

/-- the word of the saved `a1` (byte offset 120) -/
def Trapframe.a1 : ℕ := 15

/-- the loop that finds the last element of a path; `last` is what it has so far -/
def lastElem : List Byte → List Byte → List Byte
  | last, [] => last
  | last, c :: s => lastElem (if c = FileSys.slash then s else last) s

/-- the process after `exec` -/
def Proc.execed (q : Proc N) (pt : PageTable) (sz entry sp : ℕ) (path : List Byte) : Proc N :=
  { q with
    pagetable := some pt, sz := sz
    trapframe := q.trapframe.map fun t => (t.1, Function.update (Function.update (Function.update t.2
      Trapframe.a1 (BitVec.ofNat 64 sp)) Trapframe.epc (BitVec.ofNat 64 entry))
      Trapframe.sp (BitVec.ofNat 64 sp))
    name := safestrcpy q.name (fun i => (lastElem path path).getD i 0) 16 }

/-- `bad:` -/
def execBad (sb : FsSuper) (p : Slot N) (pt : Option PageTable) (sz : ℕ) (ip : Option (Fin K)) :
    SysM N K M Unit := do
  match pt with
  | some pt => onKern (procFreepagetable pt sz)
  | none => pure ()
  match ip with
  | some ip =>
    onFs (FileSys.iunlockput sb p ip)
    endOp
  | none => pure ()

/-- `exec` up to `end_op`: the table with the segments, the size and the entry point -/
def execSegments (sb : FsSuper) (p : Slot N) (ip : Fin K) : SysM N K M (Option (PageTable × ℕ × ℕ)) := do
  let (r, x) ← onFs (FileSys.readi sb ip FileSys.kernelDst 0 Elfhdr.bytes)
  let elf := Elfhdr.load x
  if r ≠ Elfhdr.bytes ∨ elf.magic ≠ ELF_MAGIC then
    execBad sb p none 0 (some ip)
    return none
  else
    let q ← onKern (getProc p)
    match ← onKern (procPagetable (q.trapframe.elim 0 Prod.fst)) with
    | none =>
      execBad sb p none 0 (some ip)
      return none
    | some pt =>
      let (pt, sz, ok) ← loadSegments sb ip elf.phnum (elf.phoff % 2 ^ 32) pt 0
      if ok then
        onFs (FileSys.iunlockput sb p ip)
        endOp
        return some (pt, sz, elf.entry)
      else
        execBad sb p (some pt) sz (some ip)
        return none

/-- the guard page and the page of the stack -/
def execStack (sb : FsSuper) (p : Slot N) (pt : PageTable) (sz : ℕ) :
    SysM N K M (Option (PageTable × ℕ)) := do
  let sz := pgroundup sz
  let (pt, sz1) ← onKern (uvmalloc pt sz ((sz + 2 * PGSIZE) % 2 ^ 64) PTE_W)
  if sz1 = 0 then
    execBad sb p (some pt) sz (none : Option (Fin K))
    return none
  else
    let pt ← onKern (uvmclear pt (sz1 - 2 * PGSIZE))
    return some (pt, sz1)

/-- commit to the user image -/
def execCommit (p : Slot N) (path : List Byte) (pt : PageTable) (sz entry sp oldsz : ℕ) : KM N Unit := do
  let q ← getProc p
  match q.pagetable with
  | none => Act.stop
  | some old =>
    setProc p fun q => q.execed pt sz entry sp path
    procFreepagetable old oldsz

/-- the arguments, and the commit -/
def execArgs (sb : FsSuper) (p : Slot N) (path : List Byte) (argv : List (List Byte))
    (entry oldsz : ℕ) (pt : PageTable) (sz : ℕ) : SysM N K M ℤ :=
  match pushStack (sz - PGSIZE) pt sz argv with
  | (pt, none) => do
    execBad sb p (some pt) sz (none : Option (Fin K))
    return -1
  | (pt, some sp) => do
    onKern (execCommit p path pt sz entry sp oldsz)
    return argv.length

/-- `exec` before the arguments: the table, its size, the entry point and the old size -/
def execImage (sb : FsSuper) (p : Slot N) (path : List Byte) :
    SysM N K M (Option (PageTable × ℕ × ℕ × ℕ)) := do
  beginOp
  match ← onFs (FileSys.namei sb p path) with
  | none =>
    endOp
    return none
  | some ip =>
    onFs (FileSys.ilock sb p ip)
    match ← execSegments sb p ip with
    | none => return none
    | some (pt, sz, entry) =>
      let q ← onKern (getProc p)
      match ← execStack sb p pt sz with
      | none => return none
      | some (pt, sz) => return some (pt, sz, entry, q.sz)

def Sys.exec (sb : FsSuper) (p : Slot N) (path : List Byte) (argv : List (List Byte)) : SysM N K M ℤ := do
  match ← execImage sb p path with
  | none => return -1
  | some (pt, sz, entry, oldsz) => execArgs sb p path argv entry oldsz pt sz

/-! ## `sys_exec` -/

/-- `fetchaddr` -/
def fetchaddr (q : Proc N) (addr : ℕ) : Option ℕ :=
  if q.sz ≤ addr ∨ q.sz < (addr + 8) % 2 ^ 64 then none
  else
    match q.pagetable with
    | none => none
    | some pt =>
      match copyin pt (fun _ => 0) addr 8 with
      | (x, true) => some (leNat (bytes x 8))
      | (_, false) => none

/-- `fetchstr`, with the string -/
def fetchstr (q : Proc N) (addr max : ℕ) : Option (List Byte) :=
  match q.pagetable with
  | none => none
  | some pt =>
    match copyinstr pt (fun _ => 0) addr max with
    | (x, true) => some (bytes x (strlen x max))
    | (_, false) => none

/-- the loop of `sys_exec`, with `n` entries of `argv` to go: the pages of the strings, and the strings -/
def fetchArgs (q : Proc N) (uargv : ℕ) :
    ℕ → List ℕ → List (List Byte) → KM N (List ℕ × Option (List (List Byte)))
  | 0, pages, _ => pure (pages, none)
  | n + 1, pages, argv =>
    match fetchaddr q ((uargv + 8 * argv.length) % 2 ^ 64) with
    | none => pure (pages, none)
    | some 0 => pure (pages, some argv)
    | some uarg => do
      match ← kalloc with
      | none => return (pages, none)
      | some pa =>
        match fetchstr q uarg PGSIZE with
        | none => return (pages ++ [pa], none)
        | some s => fetchArgs q uargv n (pages ++ [pa]) (argv ++ [s])

/-- **`sys_exec` passes fewer strings than there is room for**: the NULL that ends `argv` is one of its
`MAXARG` entries -/
theorem fetchArgs_length (q : Proc N) (uargv n : ℕ) (pages : List ℕ) (argv : List (List Byte)) :
    Act.Triple (fun _ => True) (fetchArgs q uargv n pages argv) fun r _ =>
      ∀ l, r.2 = some l → l.length < argv.length + n := by
  induction n generalizing pages argv with
  | zero => exact .pure fun _ _ l h => (nomatch h)
  | succ n ih =>
    unfold fetchArgs
    split
    · exact .pure fun _ _ l h => (nomatch h)
    · refine .pure fun _ _ l h => ?_
      rw [← Option.some.inj h]
      omega
    · refine .bind (Q := fun _ _ => True) (fun _ _ _ _ _ => trivial) fun r => ?_
      cases r with
      | none => exact .pure fun _ _ l h => (nomatch h)
      | some pa =>
        dsimp only
        split
        · exact .pure fun _ _ l h => (nomatch h)
        · refine (ih _ _).conseq (fun _ h => h) fun r _ h l hl => ?_
          have := h l hl
          rw [List.length_append, List.length_singleton] at this
          omega

/-- `sys_exec`; the arguments are the addresses in `a0` and `a1` -/
def sysExec (sb : FsSuper) (p : Slot N) (upath uargv : ℕ) : SysM N K M ℤ := do
  let q ← onKern (getProc p)
  match fetchstr q upath MAXPATH with
  | none => return -1
  | some path =>
    let (pages, argv) ← onKern (fetchArgs q uargv MAXARG [] [])
    match argv with
    | none =>
      onKern (Act.each kfree pages)
      return -1
    | some argv =>
      let ret ← Sys.exec sb p path argv
      onKern (Act.each kfree pages)
      return ret

end
end Xv6
