import Xv6.Lib.Act

/-!
# The kernel's tables: `param.h`, `riscv.h`, `memlayout.h`, `proc.h`, `spinlock.c`

* `Kern N`   what the kernel shares between CPUs: the process table of `N` slots (`NPROC` in
  `param.h`), the allocator's free list, `nextpid`, the reference counts;
* `Frame N`   where a kernel thread is in the code: one frame per active routine;
* `KM N`   routines run by one CPU: the tables, the spinlocks it holds, its `noff`, and what
  the others do to the tables each time it sleeps;
* `acquire`, `release`, `sched`, `sleep`, `killed`   `spinlock.c` and the blocking part of `proc.c`.

A page table is kept as the tree its pages form, each node with its physical address, and a user
page sits with its contents in the leaf that maps it.  So a frame is mapped once: no two addresses of
user tables, and no two tables, share a page, as is so in this kernel.
-/

namespace Xv6

def NOFILE : Nat := 16
def PGSIZE : Nat := 4096
def KERNBASE : Nat := 0x80000000
def PHYSTOP : Nat := KERNBASE + 128 * 1024 * 1024
/-- `end`, the first address after the kernel (`kernel.sym`) -/
def kend : Nat := 0x80022580
def MAXVA : Nat := 2 ^ 38
def TRAMPOLINE : Nat := MAXVA - PGSIZE
def TRAPFRAME : Nat := TRAMPOLINE - PGSIZE
/-- the physical address of the trampoline page, the last page of the kernel's text -/
def trampoline : Nat := 0x80007000

def PTE_V : Nat := 1
def PTE_R : Nat := 2
def PTE_W : Nat := 4
def PTE_X : Nat := 8
def PTE_U : Nat := 16

def pgrounddown (a : Nat) : Nat := a / PGSIZE * PGSIZE
def pgroundup (sz : Nat) : Nat := pgrounddown ((sz + PGSIZE - 1) % 2 ^ 64)

/-- index of `va` in a page-table page of the level -/
def px (level va : Nat) : Nat := va / 2 ^ (12 + 9 * level) % 512

abbrev Byte := BitVec 8
/-- C's `int` -/
abbrev CInt := BitVec 32
abbrev Page := Nat → Byte

/-- a valid PTE of level 0 with the page it maps -/
structure Leaf where
  pa : Nat
  flags : Nat
  data : Page

/-- a page-table page and its 512 entries -/
structure Table (β : Type) where
  pa : Nat
  ent : Nat → Option β

abbrev PageTable := Table (Table (Table Leaf))

/-- `struct trapframe` as 64-bit words: the field at byte offset `8 * i` is word `i` -/
abbrev Trapframe := Nat → BitVec 64

/-- words of the saved `a0`, `epc` and `sp` (byte offsets 112, 24 and 48) -/
def Trapframe.a0 : Nat := 14
def Trapframe.epc : Nat := 3
def Trapframe.sp : Nat := 6

inductive ProcState where
  | unused | used | sleeping | runnable | running | zombie
  deriving DecidableEq, Repr

abbrev Slot (N : ℕ) := Fin N

instance Slot.lawful (N : ℕ) : LawfulBEq (Slot N) := inferInstance

-- the numbers of descriptors, and of slots in the sample tables
instance NOFILE.neZero : NeZero NOFILE := ⟨by decide⟩
instance neZeroTwo : NeZero 2 := ⟨by decide⟩
instance neZeroThree : NeZero 3 := ⟨by decide⟩

section
variable (N : ℕ)

/-- what a process sleeps on: a `struct proc` (in `wait` and `waitall`) or another address -/
inductive Chan where
  | proc (p : Slot N)
  | other (a : Nat)
  deriving DecidableEq

inductive Lock where
  | wait
  | proc (p : Slot N)
  | pid
  | kmem
  | ftable
  | itable
  | other (a : Nat)
  deriving DecidableEq

/-- system calls with their arguments; `other` is any call that does not create, end or signal
processes -/
inductive Syscall where
  | fork
  | forkn (n : CInt) (pids : Nat)
  | exit (status : CInt) (msg : Nat)
  | wait (addr msg : Nat)
  | waitall (nAddr statusesAddr : Nat)
  | kill (pid : CInt)
  | other

end

/-! ## where a thread is

A place is just before a lock operation, a context switch, or a piece of code without either. -/

section
variable (N : ℕ)

inductive SleepAt where
  | acq | relLk | set | swtch | relP | reacq
  deriving DecidableEq

inductive YieldAt where
  | acq | swtch | rel
  deriving DecidableEq

/-- in `killed` and `setkilled` -/
inductive KilledAt where
  | acq | rel (k : Bool)
  deriving DecidableEq

inductive WakeAt where
  | acq (rem : List (Slot N))
  | rel (j : Slot N) (rem : List (Slot N))
  deriving DecidableEq

inductive AllocAt where
  | acq (rem : List (Slot N))
  | rel (j : Slot N) (rem : List (Slot N))
  | relFail (j : Slot N)

/-- in kernel code that does not touch the process table: the spinlocks it has taken, or a `sleep`
or a `wakeup` it has called -/
inductive KernAt where
  | run (held : List Nat)
  | sleep (a lk : Nat) (s : SleepAt)
  | wake (a : Nat) (held : List Nat) (w : WakeAt N)

inductive ForkAt where
  | alloc (a : AllocAt N)
  | fill (np : Slot N)
  | relFail (np : Slot N)
  | rel (np : Slot N) (pid : CInt)
  | acqW (np : Slot N) (pid : CInt)
  | relW (np : Slot N) (pid : CInt)
  | acqPub (np : Slot N) (pid : CInt)
  | relPub (np : Slot N) (pid : CInt)

inductive ForknAt where
  | check
  | alloc (a : AllocAt N) (kids : List (Slot N)) (pl : List CInt)
  | fill (np : Slot N) (kids : List (Slot N)) (pl : List CInt)
  | rel (np : Slot N) (kids : List (Slot N)) (pl : List CInt)
  | clean (rem : List (Slot N))
  | cleanRel (j : Slot N) (rem : List (Slot N))
  | acqW (kids : List (Slot N)) (pl : List CInt)
  | link (rem : List (Slot N)) (pl : List CInt)
  | linkAcq (j : Slot N) (rem : List (Slot N)) (pl : List CInt)
  | linkRel (j : Slot N) (rem : List (Slot N)) (pl : List CInt)
  | relW (pl : List CInt)
  | out (pl : List CInt)

inductive ExitAt where
  | start
  | close (k : KernAt N)
  | acqW
  | reparent (rem : List (Slot N))
  | wakeInit (rem : List (Slot N)) (w : WakeAt N)
  | wakeParent (ch : Option (Chan N)) (w : WakeAt N)
  | acqP
  | relW
  | swtch
  | dead

inductive WaitAt where
  | acqW
  | scan (rem : List (Slot N)) (havekids : Bool)
  | rel (j : Slot N) (rem : List (Slot N))
  | relReap (j : Slot N) (r : Option CInt)
  | relW (r : Option CInt)
  | killed (s : KilledAt)
  | sleeping (s : SleepAt)

/-- the locals of one pass of `waitall` -/
structure Pass where
  count : Nat
  statuses : Nat → CInt
  toFree : List (Slot N)
  foundChild : Bool
  allDone : Bool

inductive WaitallAt where
  | acqW
  | scan (rem : List (Slot N)) (l : Pass N)
  | rel (j : Slot N) (rem : List (Slot N)) (l : Pass N)
  | relWNone
  | outNone
  | free (rem : List (Slot N)) (l : Pass N)
  | freeRel (j : Slot N) (rem : List (Slot N)) (l : Pass N)
  | relW (l : Pass N)
  | outN (l : Pass N)
  | outS (l : Pass N)
  | done (l : Pass N)
  | killed (statuses : Nat → CInt) (s : KilledAt)
  | relWKilled
  | sleeping (statuses : Nat → CInt) (s : SleepAt)

inductive KillAt where
  | acq (rem : List (Slot N))
  | rel (j : Slot N) (rem : List (Slot N))
  | relFound (j : Slot N)

/-- an active routine of a kernel thread and the place it has reached -/
inductive Frame where
  /-- in user mode -/
  | user
  /-- `usertrap` on a system call: `if(killed(p)) exit(-1, "")` -/
  | trapSyscall (sc : Syscall) (s : KilledAt)
  /-- `usertrap` on a fault: `setkilled(p)` -/
  | trapFault (s : KilledAt)
  /-- `usertrap` on an interrupt: `devintr()` -/
  | trapDev (timer : Bool) (k : KernAt N)
  /-- the end of `usertrap`: `if(killed(p)) exit(-1, "")` and the `yield` of the timer -/
  | trapRet (timer : Bool) (s : KilledAt)
  | trapYield (s : YieldAt)
  /-- `syscall` storing the return value -/
  | sysRet (r : BitVec 64)
  | sysExit (status : CInt) (msg : Nat)
  /-- another system call, or (`sys = false`) `fsinit` called by the first `forkret` -/
  | kern (sys : Bool) (k : KernAt N)
  | fork (p : ForkAt N)
  | forkn (n : CInt) (pids : Nat) (p : ForknAt N)
  | exit (status : CInt) (msg : Nat → Byte) (p : ExitAt N)
  | wait (addr msg : Nat) (p : WaitAt N)
  | waitall (nAddr statusesAddr : Nat) (p : WaitallAt N)
  | kill (pid : CInt) (p : KillAt N)
  | forkret
  /-- `kerneltrap` on an interrupt: `devintr()` and the `yield` of the timer -/
  | intr (timer : Bool) (k : KernAt N)
  | intrYield (s : YieldAt)
  /-- `scheduler`, with the slots still to be visited in this round -/
  | schedLoop (rem : List (Slot N))
  | schedGo (j : Slot N) (rem : List (Slot N))
  | schedBack (j : Slot N) (rem : List (Slot N))
  | schedRel (j : Slot N) (rem : List (Slot N))

/-- `struct proc`; `context` is the kernel thread of the process: where it is, if it is on a CPU,
else where `swtch` will resume it -/
structure Proc where
  state : ProcState
  chan : Option (Chan N)
  killed : Bool
  xstate : CInt
  pid : CInt
  parent : Option (Slot N)
  sz : Nat
  pagetable : Option PageTable
  trapframe : Option (Nat × Trapframe)
  context : List (Frame N)
  ofile : Nat → Option Nat
  cwd : Option Nat
  name : Nat → Byte
  exitMsg : Nat → Byte

/-- the tables the CPUs share -/
structure Kern where
  proc : Slot N → Proc N
  nextpid : CInt
  freelist : List Nat
  fref : Nat → Nat
  iref : Nat → Nat

/-- the state of a routine run by one CPU -/
structure KState where
  k : Kern N
  held : Finset (Lock N)
  noff : Nat
  /-- what the other CPUs and the scheduler do to the tables during the sleeps to come -/
  env : List (Kern N → Kern N)

abbrev KM (α : Type) := Act (KState N) α

end

variable {N : ℕ}

/-- a slot of the zeroed table -/
def Proc.zero : Proc N where
  state := .unused
  chan := none
  killed := false
  xstate := 0
  pid := 0
  parent := none
  sz := 0
  pagetable := none
  trapframe := none
  context := []
  ofile := fun _ => none
  cwd := none
  name := fun _ => 0
  exitMsg := fun _ => 0

/-- the tables as `main` leaves them before `userinit`, with the pages of `kinit` -/
def Kern.zero (freelist : List Nat) : Kern N where
  proc := fun _ => Proc.zero
  nextpid := 1
  freelist := freelist
  fref := fun _ => 0
  iref := fun _ => 0

/-- all slots, in table order -/
def slots (N : ℕ) : List (Slot N) := List.finRange N

/-- the first process: `userinit` takes the first slot of an empty table -/
def initproc [NeZero N] : Slot N := 0

namespace Kern

/-- change one slot -/
def upd (k : Kern N) (j : Slot N) (f : Proc N → Proc N) : Kern N :=
  { k with proc := Function.update k.proc j (f (k.proc j)) }

@[simp] theorem upd_same (k : Kern N) (j : Slot N) (f : Proc N → Proc N) :
    (k.upd j f).proc j = f (k.proc j) := by simp [upd]
theorem upd_ne (k : Kern N) {i j : Slot N} (f : Proc N → Proc N) (h : i ≠ j) :
    (k.upd j f).proc i = k.proc i := by simp [upd, h]
theorem upd_proc (k : Kern N) (i j : Slot N) (f : Proc N → Proc N) :
    (k.upd j f).proc i = if i = j then f (k.proc j) else k.proc i := by
  by_cases h : i = j
  · subst h; simp
  · rw [upd_ne k f h, if_neg h]

/-- the children of `p`, in table order -/
def children (k : Kern N) (p : Slot N) : List (Slot N) :=
  (slots N).filter fun j => (k.proc j).parent = some p

end Kern

/-! ## `spinlock.c` -/

def acquire (l : Lock N) : KM N Unit := fun s =>
  if l ∈ s.held then none
  else some ((), { s with held := insert l s.held, noff := s.noff + 1 })

def release (l : Lock N) : KM N Unit := fun s =>
  if l ∈ s.held ∧ 1 ≤ s.noff then
    some ((), { s with held := s.held.erase l, noff := s.noff - 1 })
  else none

def getProc (j : Slot N) : KM N (Proc N) := Act.read fun s => s.k.proc j

def setKern (f : Kern N → Kern N) : KM N Unit := Act.modify fun s => { s with k := f s.k }

def setProc (j : Slot N) (f : Proc N → Proc N) : KM N Unit := setKern fun k => k.upd j f

/-! ## blocking -/

/-- `sched` with the switch to the scheduler and back: the head of `env` is what happens to the
tables until this process runs again -/
def sched (p : Slot N) : KM N Unit := fun s =>
  if .proc p ∈ s.held ∧ s.noff = 1 ∧ (s.k.proc p).state ≠ .running then
    match s.env with
    | [] => none
    | f :: fs => some ((), { s with k := f s.k, env := fs })
  else none

def sleep (p : Slot N) (ch : Chan N) (lk : Lock N) : KM N Unit := do
  acquire (.proc p)
  release lk
  setProc p fun q => { q with chan := some ch, state := .sleeping }
  sched p
  setProc p fun q => { q with chan := none }
  release (.proc p)
  acquire lk

def killed (p : Slot N) : KM N Bool := do
  acquire (.proc p)
  let q ← getProc p
  release (.proc p)
  return q.killed

end Xv6
