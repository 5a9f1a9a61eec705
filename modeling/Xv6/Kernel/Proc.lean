import Xv6.Kernel.Copy

/-!
# Processes: `proc.c`

The routines of `proc.c` in direct style, on one CPU.  Each is called by process `p` (`myproc()`).
`-1` from `fork` and `wait` is `none`, so that it is not confused with a pid; `forkn`, `waitall`,
`kill` and `growproc` return C's `int`.

* `allocprocFound`, `freeproc`, `copyChild`, `waitReap`, `copyoutTo`   the pieces of code between
  two operations on a `p->lock` or on `wait_lock`;
* `allocproc`, `fork`, `forkn`, `wait`, `waitall`, `kill`, `growproc`   the routines;
* `Proc.freed`, `Proc.filled`, `Proc.onKill`, `Pass.visit`   what they do to one slot.
-/

namespace Xv6
variable {N : ℕ}

/-! ## slots -/

def allocpid : KM N CInt := do
  acquire .pid
  let pid ← Act.read fun s => s.k.nextpid
  setKern fun k => { k with nextpid := pid + 1 }
  release .pid
  return pid

/-- the record after `freeproc`: `ofile`, `cwd`, `exit_msg` and the rest of `name` stay -/
def Proc.freed (q : Proc N) : Proc N :=
  { q with
    trapframe := none, pagetable := none, sz := 0, pid := 0, parent := none,
    name := Function.update q.name 0 0, chan := none, killed := false, xstate := 0,
    state := .unused }

/-- the first `if` of `freeproc` -/
def freeTrapframe : Option (Nat × Trapframe) → KM N Unit
  | some (pa, _) => kfree pa
  | none => pure ()

/-- the second `if` of `freeproc` -/
def freeUserMem : Option PageTable → Nat → KM N Unit
  | some pt, sz => procFreepagetable pt sz
  | none, _ => pure ()

def freeproc (j : Slot N) : KM N Unit := do
  let q ← getProc j
  freeTrapframe q.trapframe
  freeUserMem q.pagetable q.sz
  setProc j Proc.freed

theorem freeTrapframe_memOnly (tf : Option (Nat × Trapframe)) :
    MemOnly (freeTrapframe tf : KM N Unit) := by
  cases tf with
  | none => exact .pure ()
  | some r => exact kfree_memOnly _

theorem freeUserMem_memOnly (pt : Option PageTable) (sz : Nat) :
    MemOnly (freeUserMem pt sz : KM N Unit) := by
  cases pt with
  | none => exact .pure ()
  | some pt => exact procFreepagetable_memOnly _ _

/-- `kalloc` fills the page of a trapframe with 5s -/
def junk : Trapframe := fun _ => 0x0505050505050505

/-- `allocproc` from `found:` on, without the release of the failure paths -/
def allocprocFound (j : Slot N) : KM N Bool := do
  let pid ← allocpid
  setProc j fun q => { q with pid := pid, state := .used }
  match ← kalloc with
  | none =>
    setProc j fun q => { q with trapframe := none }
    freeproc j
    return false
  | some pa =>
    setProc j fun q => { q with trapframe := some (pa, junk) }
    match ← procPagetable pa with
    | none =>
      setProc j fun q => { q with pagetable := none }
      freeproc j
      return false
    | some pt =>
      setProc j fun q => { q with pagetable := some pt, context := [.forkret] }
      return true

/-- the search of `allocproc`; a slot comes back with its lock held -/
def allocprocScan : List (Slot N) → KM N (Option (Slot N))
  | [] => return none
  | j :: js => do
    acquire (.proc j)
    let q ← getProc j
    if q.state = .unused then
      if ← allocprocFound j then return some j
      else
        release (.proc j)
        return none
    else
      release (.proc j)
      allocprocScan js

def allocproc : KM N (Option (Slot N)) := allocprocScan (slots N)

/-- the program of the first process, which calls `exec("/init")` -/
def initcode : List Byte :=
  [0x17, 0x05, 0x00, 0x00, 0x13, 0x05, 0x45, 0x02,
   0x97, 0x05, 0x00, 0x00, 0x93, 0x85, 0x35, 0x02,
   0x93, 0x08, 0x70, 0x00, 0x73, 0x00, 0x00, 0x00,
   0x93, 0x08, 0x20, 0x00, 0x73, 0x00, 0x00, 0x00,
   0xef, 0xf0, 0x9f, 0xff, 0x2f, 0x69, 0x6e, 0x69,
   0x74, 0x00, 0x00, 0x24, 0x00, 0x00, 0x00, 0x00,
   0x00, 0x00, 0x00, 0x00]

/-- `"initcode"` -/
def initname : Nat → Byte := fun i =>
  ([0x69, 0x6e, 0x69, 0x74, 0x63, 0x6f, 0x64, 0x65] : List Byte).getD i 0

/-- `namei("/")` takes the first entry of the inode table -/
def rootDir : KM N Nat := do
  setKern fun k => { k with iref := Function.update k.iref 0 (k.iref 0 + 1) }
  return 0

def userinit : KM N Unit := do
  match ← allocproc with
  | none => Act.stop
  | some p =>
    let q ← getProc p
    match q.pagetable, q.trapframe with
    | some pt, some (pa, tf) =>
      let pt ← uvmfirst pt (fun o => initcode.getD o 0) initcode.length
      let tf := Function.update (Function.update tf Trapframe.epc 0) Trapframe.sp 4096
      setProc p fun q =>
        { q with pagetable := some pt, sz := PGSIZE, trapframe := some (pa, tf),
                 name := safestrcpy q.name initname 16 }
      let ip ← rootDir
      setProc p fun q => { q with cwd := some ip, state := .runnable }
      release (.proc p)
    | _, _ => Act.stop

/-- Grow or shrink user memory by `n` bytes. -/
def growproc (p : Slot N) (n : CInt) : KM N Int := do
  let q ← getProc p
  match q.pagetable with
  | none => Act.stop
  | some pt =>
    let newsz := ((q.sz + n.toInt) % 2 ^ 64).toNat
    if 0 < n.toInt then
      let (pt, sz) ← uvmalloc pt q.sz newsz PTE_W
      setProc p fun q => { q with pagetable := some pt }
      if sz = 0 then return -1
      else
        setProc p fun q => { q with sz := sz }
        return 0
    else if n.toInt < 0 then
      let (pt, sz) ← uvmdealloc pt q.sz newsz
      setProc p fun q => { q with pagetable := some pt, sz := sz }
      return 0
    else return 0

/-! ## `fork` and `forkn` -/

def filedup (f : Nat) : KM N Unit := do
  acquire .ftable
  let r ← Act.read fun s => s.k.fref f
  if r < 1 then Act.stop
  else
    setKern fun k => { k with fref := Function.update k.fref f (r + 1) }
    release .ftable

def idup (ip : Nat) : KM N Unit := do
  acquire .itable
  setKern fun k => { k with iref := Function.update k.iref ip (k.iref ip + 1) }
  release .itable

/-- the child's open files: descriptor `fd` of the parent, if it is open -/
def dupFile (ofile : Nat → Option Nat) (np : Slot N) (fd : Nat) : KM N Unit :=
  match ofile fd with
  | none => pure ()
  | some f => do
    filedup f
    setProc np fun q => { q with ofile := Function.update q.ofile fd (some f) }

/-- the child's size and saved registers -/
def Proc.filled (q : Proc N) (sz pa : Nat) (tf : Trapframe) (a0 : BitVec 64) : Proc N :=
  { q with sz := sz, trapframe := some (pa, Function.update tf Trapframe.a0 a0) }

/-- what `fork` and `forkn` copy from the parent to the child once it has its memory: size, saved
registers with `a0`, open files, current directory, name; the kernel faults on a null pointer -/
def copyRest (p np : Slot N) (a0 : BitVec 64) : KM N Unit := do
  let pp ← getProc p
  let nn ← getProc np
  match pp.trapframe, nn.trapframe, pp.cwd with
  | some (_, tf), some (pa, _), some ip =>
    setProc np fun q => q.filled pp.sz pa tf a0
    Act.each (dupFile pp.ofile np) (List.range NOFILE)
    idup ip
    setProc np fun q => { q with cwd := some ip, name := safestrcpy q.name pp.name 16 }
  | _, _, _ => Act.stop

/-- `uvmcopy` from the parent to the child, and the rest if it succeeds; if it fails the child is
freed -/
def copyChild (p np : Slot N) (a0 : BitVec 64) : KM N Bool := do
  let pp ← getProc p
  let nn ← getProc np
  match pp.pagetable, nn.pagetable with
  | some old, some new =>
    let (new, ok) ← uvmcopy old new pp.sz
    setProc np fun q => { q with pagetable := some new }
    if ok then
      copyRest p np a0
      return true
    else
      freeproc np
      return false
  | _, _ => Act.stop

def fork (p : Slot N) : KM N (Option CInt) := do
  match ← allocproc with
  | none => return none
  | some np =>
    if ← copyChild p np 0 then
      let q ← getProc np
      release (.proc np)
      acquire .wait
      setProc np fun q => { q with parent := some p }
      release .wait
      acquire (.proc np)
      setProc np fun q => { q with state := .runnable }
      release (.proc np)
      return some q.pid
    else
      release (.proc np)
      return none

/-- the cleanup loop of `forkn` -/
def forknClean (kids : List (Slot N)) : KM N Unit :=
  Act.each (fun j => do
    acquire (.proc j)
    setProc j fun q => { q with state := .unused }
    freeproc j
    release (.proc j)) kids

/-- the first loop of `forkn`, with `m` children to go.  Where `uvmcopy` fails, the lock of the
child is not released. -/
def forknLoop (p : Slot N) : Nat → List (Slot N) → List CInt →
    KM N (Option (List (Slot N) × List CInt))
  | 0, kids, pl => return some (kids, pl)
  | m + 1, kids, pl => do
    match ← allocproc with
    | none =>
      forknClean kids
      return none
    | some np =>
      let q ← getProc np
      if ← copyChild p np (kids.length + 1) then
        release (.proc np)
        forknLoop p m (kids ++ [np]) (pl ++ [q.pid])
      else
        forknClean kids
        return none

/-- the second loop of `forkn` -/
def forknLink (p : Slot N) (kids : List (Slot N)) : KM N Unit :=
  Act.each (fun j => do
    setProc j fun q => { q with parent := some p }
    acquire (.proc j)
    setProc j fun q => { q with state := .runnable }
    release (.proc j)) kids

/-- `copyout` to the memory of `p` -/
def copyoutTo (p : Slot N) (va : Nat) (src : List Byte) : KM N Bool := do
  let q ← getProc p
  match q.pagetable with
  | none => Act.stop
  | some pt =>
    setProc p fun q => { q with pagetable := some (copyout pt va src).1 }
    return (copyout pt va src).2

/-- a copy to the user unless the pointer is null; a failure is not noticed -/
def tryCopyout (p : Slot N) (va : Nat) (src : List Byte) : KM N Unit :=
  if va = 0 then pure ()
  else do
    let _ ← copyoutTo p va src

def forkn (p : Slot N) (n : CInt) (pids : Nat) : KM N Int := do
  if n.toInt < 1 ∨ 16 < n.toInt then return -1
  else
    match ← forknLoop p n.toNat [] [] with
    | none => return -1
    | some (kids, pl) =>
      acquire .wait
      forknLink p kids
      release .wait
      if pids = 0 then return 0
      else if ← copyoutTo p pids (pl.flatMap le32) then return 0
      else return -1

/-! ## `wait` and `waitall` -/

/-- the status to the user, unless the pointer is null -/
def storeStatus (p : Slot N) (addr : Nat) (xstate : CInt) : KM N Bool :=
  if addr = 0 then pure true else copyoutTo p addr (le32 xstate)

/-- `wait` on a zombie child up to the releases: the message (whose copy may fail), the status, and
the slot is freed; `none` if the status cannot be stored -/
def waitReap (p j : Slot N) (addr msg : Nat) : KM N (Option CInt) := do
  let q ← getProc j
  tryCopyout p msg (bytes q.exitMsg (strlen q.exitMsg 32 + 1))
  if ← storeStatus p addr q.xstate then
    freeproc j
    return some q.pid
  else return none

/-- the search of `wait`; `inl r` is a return with `r`, `inr havekids` the end of the table -/
def waitScan (p : Slot N) (addr msg : Nat) :
    List (Slot N) → Bool → KM N (Option CInt ⊕ Bool)
  | [], havekids => return .inr havekids
  | j :: js, havekids => do
    let q ← getProc j
    if q.parent = some p then
      acquire (.proc j)
      let q ← getProc j
      if q.state = .zombie then
        let r ← waitReap p j addr msg
        release (.proc j)
        release .wait
        return .inl r
      else
        release (.proc j)
        waitScan p addr msg js true
    else waitScan p addr msg js havekids

/-- `!havekids || killed(p)` -/
def waitGivesUp (p : Slot N) (havekids : Bool) : KM N Bool :=
  if havekids then killed p else pure true

/-- the loop of `wait`; a turn that does not return sleeps -/
def waitLoop (p : Slot N) (addr msg : Nat) : Nat → KM N (Option CInt)
  | 0 => Act.stop
  | f + 1 => do
    match ← waitScan p addr msg (slots N) false with
    | .inl r => return r
    | .inr havekids =>
      if ← waitGivesUp p havekids then
        release .wait
        return none
      else
        sleep p (.proc p) .wait
        waitLoop p addr msg f

/-- as many turns as there are sleeps, and one more, are enough -/
def wait (p : Slot N) (addr msg : Nat) : KM N (Option CInt) := do
  acquire .wait
  let n ← Act.read fun s => s.env.length
  waitLoop p addr msg (n + 1)

/-- the locals at the start of a pass; `statuses_local` keeps what the last pass left in it -/
def Pass.start (statuses : Nat → CInt) : Pass N := ⟨0, statuses, [], false, true⟩

/-- slot `j`, with the record `q`, in a pass of `p` -/
def Pass.visit (p j : Slot N) (q : Proc N) (l : Pass N) : Pass N :=
  if q.parent = some p then
    if q.state ≠ .zombie then
      { l with foundChild := true, allDone := false, count := l.count + 1 }
    else
      { l with
        foundChild := true, statuses := Function.update l.statuses l.count q.xstate,
        toFree := l.toFree ++ [j], count := l.count + 1 }
  else l

def waitallScan (p : Slot N) : List (Slot N) → Pass N → KM N (Pass N)
  | [], l => return l
  | j :: js, l => do
    acquire (.proc j)
    let q ← getProc j
    release (.proc j)
    waitallScan p js (l.visit p j q)

def waitallFree (kids : List (Slot N)) : KM N Unit :=
  Act.each (fun j => do
    acquire (.proc j)
    freeproc j
    release (.proc j)) kids

/-- the first `n` entries of `statuses_local` -/
def statusBytes (statuses : Nat → CInt) (n : Nat) : List Byte :=
  ((List.range n).map statuses).flatMap le32

def waitallLoop (p : Slot N) (nAddr statusesAddr : Nat) : Nat → (Nat → CInt) → KM N Int
  | 0, _ => Act.stop
  | f + 1, statuses => do
    let l ← waitallScan p (slots N) (Pass.start statuses)
    if !l.foundChild then
      release .wait
      tryCopyout p nAddr (le32 0)
      return 0
    else if l.allDone then
      waitallFree l.toFree
      release .wait
      tryCopyout p nAddr (le32 (.ofNat 32 l.count))
      tryCopyout p statusesAddr (statusBytes l.statuses l.count)
      return 0
    else if ← killed p then
      release .wait
      return -1
    else
      sleep p (.proc p) .wait
      waitallLoop p nAddr statusesAddr f l.statuses

def waitall (p : Slot N) (nAddr statusesAddr : Nat) : KM N Int := do
  acquire .wait
  let n ← Act.read fun s => s.env.length
  waitallLoop p nAddr statusesAddr (n + 1) fun _ => 0

/-! ## `kill` -/

/-- the slot `kill` finds -/
def Proc.onKill (q : Proc N) : Proc N :=
  { q with killed := true, state := if q.state = .sleeping then .runnable else q.state }

def killScan (pid : CInt) : List (Slot N) → KM N Int
  | [] => return -1
  | j :: js => do
    acquire (.proc j)
    let q ← getProc j
    if q.pid = pid then
      setProc j Proc.onKill
      release (.proc j)
      return 0
    else
      release (.proc j)
      killScan pid js

def kill (pid : CInt) : KM N Int := killScan pid (slots N)

/-- the first process, running, in a table of three slots with `m` free pages -/
def sample (m : Nat) : Option (KState 3) := do
  let pages := (List.range (m + 7)).map fun i => 0x80100000 + 4096 * i
  let (_, s) ← userinit ⟨Kern.zero pages, ∅, 0, []⟩
  return { s with k := s.k.upd 0 fun q => { q with state := .running } }

end Xv6
