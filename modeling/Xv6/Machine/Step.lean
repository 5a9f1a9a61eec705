import Xv6.Kernel.Block
import Xv6.Lib.Run
import Xv6.Lib.Spin

/-!
# The machine: any number of CPUs running the kernel's threads

A CPU executes the kernel thread of a process or its own scheduler thread.  A step is one `acquire`
together with the code up to the next lock operation, one `release`, one `swtch`, or a piece of code
without any of them.  `acquire` waits until the lock is free; a step that would panic is no step.

* `sleepInstr`, `wakeInstr`, `killedInstr`, `yieldInstr`, `allocInstr`   routines called by others;
* `kernInstr`   kernel code that leaves the process table alone, with its `sleep`s and `wakeup`s;
* `forkInstr`, `forknInstr`, `exitInstr`, `waitInstr`, `waitallInstr`, `killInstr`, `trapInstr`
  the routines of `proc.c` and `usertrap`, place by place; the code between two lock operations is
  that of `Kernel/Proc.lean`, run by `exec`;
* `Machine.step`, `Run`   the machine and its runs;
* `sampleRun`   a run with a `fork`, a `wait` and an `exit`.
-/

namespace Xv6
variable {N : ℕ}

/-- one step of a thread: what it does to the locks, the tables after it, and where it is then -/
structure Out (N : ℕ) (α : Type) where
  op : Op (Lock N)
  k : Kern N
  next : α

def Out.map {α β : Type} (f : α → β) (o : Out N α) : Out N β := ⟨o.op, o.k, f o.next⟩

/-- what code outside `proc.c` may change: the fields of its own process that no other process
reads, the free list and the reference counts -/
structure Private where
  sz : Nat
  pagetable : Option PageTable
  trapframe : Option (Nat × Trapframe)
  ofile : Nat → Option Nat
  cwd : Option Nat
  name : Nat → Byte
  freelist : List Nat
  fref : Nat → Nat
  iref : Nat → Nat

/-- what is not decided by the state: what the user program does, interrupts, and what code outside
`proc.c` does -/
inductive Choice where
  | go
  /-- the user program writes to its memory and registers -/
  | store (va : Nat) (bs : List Byte) (tf : Trapframe)
  | syscall (sc : Syscall)
  | fault
  | irq (timer : Bool)
  /-- what is on the kernel stack when `sys_exit` declares its buffer -/
  | stack (b : Nat → Byte)
  | lock (a : Nat)
  | unlock (a : Nat)
  | sleep (a lk : Nat)
  | wake (a : Nat)
  | work (w : Private)
  | leave (r : BitVec 64)

/-! ## routines called by others -/

def sleepInstr (i : Slot N) (ch : Chan N) (lk : Lock N) (k : Kern N) :
    SleepAt → Out N (SleepAt ⊕ Unit)
  | .acq => ⟨.acq (.proc i), k, .inl .relLk⟩
  | .relLk => ⟨.rel lk, k, .inl .set⟩
  | .set => ⟨.tau, k.upd i fun q => { q with chan := some ch, state := .sleeping }, .inl .swtch⟩
  | .swtch => ⟨.swtch, k, .inl .relP⟩
  | .relP => ⟨.rel (.proc i), k.upd i fun q => { q with chan := none }, .inl .reacq⟩
  | .reacq => ⟨.acq lk, k, .inr ()⟩

/-- the body of the loop of `wakeup` -/
def Proc.woken (ch : Option (Chan N)) (q : Proc N) : Proc N :=
  if q.state = .sleeping ∧ q.chan = ch then { q with state := .runnable } else q

/-- `self` is `myproc()` -/
def wakeInstr (self : Option (Slot N)) (ch : Option (Chan N)) (k : Kern N) :
    WakeAt N → Out N (WakeAt N ⊕ Unit)
  | .acq [] => ⟨.tau, k, .inr ()⟩
  | .acq (j :: rem) =>
    if self = some j then ⟨.tau, k, .inl (.acq rem)⟩
    else ⟨.acq (.proc j), k.upd j (Proc.woken ch), .inl (.rel j rem)⟩
  | .rel j rem => ⟨.rel (.proc j), k, .inl (.acq rem)⟩

def killedInstr (i : Slot N) (k : Kern N) : KilledAt → Out N (KilledAt ⊕ Bool)
  | .acq => ⟨.acq (.proc i), k, .inl (.rel (k.proc i).killed)⟩
  | .rel b => ⟨.rel (.proc i), k, .inr b⟩

def setkilledInstr (i : Slot N) (k : Kern N) : KilledAt → Out N (KilledAt ⊕ Unit)
  | .acq => ⟨.acq (.proc i), k.upd i fun q => { q with killed := true }, .inl (.rel true)⟩
  | .rel _ => ⟨.rel (.proc i), k, .inr ()⟩

def yieldInstr (i : Slot N) (k : Kern N) : YieldAt → Out N (YieldAt ⊕ Unit)
  | .acq => ⟨.acq (.proc i), k.upd i fun q => { q with state := .runnable }, .inl .swtch⟩
  | .swtch => ⟨.swtch, k, .inl .rel⟩
  | .rel => ⟨.rel (.proc i), k, .inr ()⟩

/-- a slot is delivered with its lock held -/
def allocInstr (k : Kern N) : AllocAt N → Option (Out N (AllocAt N ⊕ Option (Slot N)))
  | .acq [] => some ⟨.tau, k, .inr none⟩
  | .acq (j :: rem) =>
    if (k.proc j).state = .unused then
      match exec (allocprocFound j) k with
      | none => none
      | some (true, k) => some ⟨.acq (.proc j), k, .inr (some j)⟩
      | some (false, k) => some ⟨.acq (.proc j), k, .inl (.relFail j)⟩
    else some ⟨.acq (.proc j), k, .inl (.rel j rem)⟩
  | .rel j rem => some ⟨.rel (.proc j), k, .inl (.acq rem)⟩
  | .relFail j => some ⟨.rel (.proc j), k, .inr none⟩

def Kern.work (k : Kern N) (i : Slot N) (w : Private) : Kern N :=
  let k := k.upd i fun q =>
    { q with sz := w.sz, pagetable := w.pagetable, trapframe := w.trapframe, ofile := w.ofile,
             cwd := w.cwd, name := w.name }
  { k with freelist := w.freelist, fref := w.fref, iref := w.iref }

/-- code outside `proc.c`, as far as the process table can see it.  It calls `sleep` with one
spinlock held and on a channel that is not a process; an interrupt handler (`proper = false`) does
not sleep and does not work for the process it interrupts. -/
def kernInstr (self : Option (Slot N)) (proper : Bool) (k : Kern N) (ch : Choice) :
    KernAt N → Option (Out N (KernAt N ⊕ BitVec 64))
  | .run held =>
    match ch with
    | .lock a => if a ∈ held then none else some ⟨.acq (.other a), k, .inl (.run (a :: held))⟩
    | .unlock a =>
      if a ∈ held then some ⟨.rel (.other a), k, .inl (.run (held.filter (· ≠ a)))⟩ else none
    | .sleep a lk => if proper ∧ held = [lk] then some ⟨.tau, k, .inl (.sleep a lk .acq)⟩ else none
    | .wake a => some ⟨.tau, k, .inl (.wake a held (.acq (slots N)))⟩
    | .work w =>
      match self with
      | some i => if proper then some ⟨.tau, k.work i w, .inl (.run held)⟩ else none
      | none => none
    | .leave r => if held = [] then some ⟨.tau, k, .inr r⟩ else none
    | _ => none
  | .sleep a lk s =>
    match self with
    | none => none
    | some i => some ((sleepInstr i (.other a) (.other lk) k s).map
        (Sum.elim (fun s => .inl (.sleep a lk s)) fun _ => .inl (.run [lk])))
  | .wake a held w =>
    some ((wakeInstr self (some (.other a)) k w).map
      (Sum.elim (fun w => .inl (.wake a held w)) fun _ => .inl (.run held)))

/-! ## the routines of `proc.c` -/

/-- a return value of type `int` -/
def retInt (r : Option CInt) : BitVec 64 :=
  match r with
  | none => -1
  | some x => x.signExtend 64

/-- `fork` with the result of `allocproc` -/
def forkWith : Option (Slot N) → Frame N
  | none => .sysRet (-1)
  | some np => .fork (.fill np)

def forkInstr (i : Slot N) (k : Kern N) : ForkAt N → Option (Out N (Frame N))
  | .alloc a => (allocInstr k a).map (Out.map (Sum.elim (fun a => .fork (.alloc a)) forkWith))
  | .fill np =>
    match exec (copyChild i np 0) k with
    | none => none
    | some (true, k) => some ⟨.tau, k, .fork (.rel np (k.proc np).pid)⟩
    | some (false, k) => some ⟨.tau, k, .fork (.relFail np)⟩
  | .relFail np => some ⟨.rel (.proc np), k, .sysRet (-1)⟩
  | .rel np pid => some ⟨.rel (.proc np), k, .fork (.acqW np pid)⟩
  | .acqW np pid =>
    some ⟨.acq .wait, k.upd np fun q => { q with parent := some i }, .fork (.relW np pid)⟩
  | .relW np pid => some ⟨.rel .wait, k, .fork (.acqPub np pid)⟩
  | .acqPub np pid =>
    some ⟨.acq (.proc np), k.upd np fun q => { q with state := .runnable }, .fork (.relPub np pid)⟩
  | .relPub np pid => some ⟨.rel (.proc np), k, .sysRet (pid.signExtend 64)⟩

/-- `forkn` with the result of `allocproc` -/
def forknWith (n : CInt) (pids : Nat) (kids : List (Slot N)) (pl : List CInt) :
    Option (Slot N) → Frame N
  | none => .forkn n pids (.clean kids)
  | some np => .forkn n pids (.fill np kids pl)

def forknInstr (i : Slot N) (k : Kern N) (n : CInt) (pids : Nat) :
    ForknAt N → Option (Out N (Frame N))
  | .check =>
    if n.toInt < 1 ∨ 16 < n.toInt then some ⟨.tau, k, .sysRet (-1)⟩
    else some ⟨.tau, k, .forkn n pids (.alloc (.acq (slots N)) [] [])⟩
  | .alloc a kids pl =>
    (allocInstr k a).map (Out.map
      (Sum.elim (fun a => .forkn n pids (.alloc a kids pl)) (forknWith n pids kids pl)))
  | .fill np kids pl =>
    match exec (copyChild i np (kids.length + 1)) k with
    | none => none
    | some (true, k) => some ⟨.tau, k, .forkn n pids (.rel np kids (pl ++ [(k.proc np).pid]))⟩
    -- the lock of `np` stays held
    | some (false, k) => some ⟨.tau, k, .forkn n pids (.clean kids)⟩
  | .rel np kids pl =>
    if kids.length + 1 < n.toNat then
      some ⟨.rel (.proc np), k, .forkn n pids (.alloc (.acq (slots N)) (kids ++ [np]) pl)⟩
    else some ⟨.rel (.proc np), k, .forkn n pids (.acqW (kids ++ [np]) pl)⟩
  | .clean [] => some ⟨.tau, k, .sysRet (-1)⟩
  | .clean (j :: rem) =>
    (exec (do setProc j (fun q => { q with state := .unused }); freeproc j) k).map fun r =>
      ⟨.acq (.proc j), r.2, .forkn n pids (.cleanRel j rem)⟩
  | .cleanRel j rem => some ⟨.rel (.proc j), k, .forkn n pids (.clean rem)⟩
  | .acqW kids pl => some ⟨.acq .wait, k, .forkn n pids (.link kids pl)⟩
  | .link [] pl => some ⟨.tau, k, .forkn n pids (.relW pl)⟩
  | .link (j :: rem) pl =>
    some ⟨.tau, k.upd j fun q => { q with parent := some i }, .forkn n pids (.linkAcq j rem pl)⟩
  | .linkAcq j rem pl =>
    some ⟨.acq (.proc j), k.upd j fun q => { q with state := .runnable },
      .forkn n pids (.linkRel j rem pl)⟩
  | .linkRel j rem pl => some ⟨.rel (.proc j), k, .forkn n pids (.link rem pl)⟩
  | .relW pl => some ⟨.rel .wait, k, .forkn n pids (.out pl)⟩
  | .out pl =>
    if pids = 0 then some ⟨.tau, k, .sysRet 0⟩
    else
      (exec (copyoutTo i pids (pl.flatMap le32)) k).map fun r =>
        ⟨.tau, r.2, .sysRet (if r.1 then 0 else -1)⟩

section
variable [NeZero N]

def exitInstr (i : Slot N) (k : Kern N) (ch : Choice) (status : CInt) (msg : Nat → Byte) :
    ExitAt N → Option (Out N (Frame N))
  | .start => if i = initproc then none else some ⟨.tau, k, .exit status msg (.close (.run []))⟩
  | .close ks =>
    match kernInstr (some i) true k ch ks with
    | none => none
    | some ⟨op, k, .inl ks⟩ => some ⟨op, k, .exit status msg (.close ks)⟩
    | some ⟨op, k, .inr _⟩ =>
      some ⟨op, k.upd i fun q => { q with ofile := fun _ => none, cwd := none },
        .exit status msg .acqW⟩
  | .acqW =>
    some ⟨.acq .wait, k.upd i fun q => { q with exitMsg := safestrcpy q.exitMsg msg 32 },
      .exit status msg (.reparent (slots N))⟩
  | .reparent [] =>
    some ⟨.tau, k, .exit status msg (.wakeParent ((k.proc i).parent.map .proc) (.acq (slots N)))⟩
  | .reparent (j :: rem) =>
    if (k.proc j).parent = some i then
      some ⟨.tau, k.upd j fun q => { q with parent := some initproc },
        .exit status msg (.wakeInit rem (.acq (slots N)))⟩
    else some ⟨.tau, k, .exit status msg (.reparent rem)⟩
  | .wakeInit rem w =>
    some ((wakeInstr (some i) (some (.proc initproc)) k w).map
      (Sum.elim (fun w => .exit status msg (.wakeInit rem w))
        fun _ => .exit status msg (.reparent rem)))
  | .wakeParent pch w =>
    some ((wakeInstr (some i) pch k w).map
      (Sum.elim (fun w => .exit status msg (.wakeParent pch w)) fun _ => .exit status msg .acqP))
  | .acqP =>
    some ⟨.acq (.proc i), k.upd i fun q => { q with xstate := status, state := .zombie },
      .exit status msg .relW⟩
  | .relW => some ⟨.rel .wait, k, .exit status msg .swtch⟩
  | .swtch => some ⟨.swtch, k, .exit status msg .dead⟩
  | .dead => none

end

/-- `wait`, whose look at `pp->parent` is in the step that takes `pp->lock`: `wait_lock` is held -/
def waitInstr (i : Slot N) (k : Kern N) (addr msg : Nat) : WaitAt N → Option (Out N (Frame N))
  | .acqW => some ⟨.acq .wait, k, .wait addr msg (.scan (slots N) false)⟩
  | .scan [] havekids =>
    some ⟨.tau, k, .wait addr msg (if havekids then .killed .acq else .relW none)⟩
  | .scan (j :: rem) havekids =>
    if (k.proc j).parent = some i then
      if (k.proc j).state = .zombie then
        (exec (waitReap i j addr msg) k).map fun r =>
          ⟨.acq (.proc j), r.2, .wait addr msg (.relReap j r.1)⟩
      else some ⟨.acq (.proc j), k, .wait addr msg (.rel j rem)⟩
    else some ⟨.tau, k, .wait addr msg (.scan rem havekids)⟩
  | .rel j rem => some ⟨.rel (.proc j), k, .wait addr msg (.scan rem true)⟩
  | .relReap j r => some ⟨.rel (.proc j), k, .wait addr msg (.relW r)⟩
  | .relW r => some ⟨.rel .wait, k, .sysRet (retInt r)⟩
  | .killed s => some ((killedInstr i k s).map
      (Sum.elim (fun s => .wait addr msg (.killed s))
        fun b => .wait addr msg (if b then .relW none else .sleeping .acq)))
  | .sleeping s => some ((sleepInstr i (.proc i) .wait k s).map
      (Sum.elim (fun s => .wait addr msg (.sleeping s))
        fun _ => .wait addr msg (.scan (slots N) false)))

def waitallInstr (i : Slot N) (k : Kern N) (nAddr statusesAddr : Nat) :
    WaitallAt N → Option (Out N (Frame N))
  | .acqW =>
    some ⟨.acq .wait, k, .waitall nAddr statusesAddr (.scan (slots N) (Pass.start fun _ => 0))⟩
  | .scan [] l =>
    some ⟨.tau, k, .waitall nAddr statusesAddr
      (if !l.foundChild then .relWNone
       else if l.allDone then .free l.toFree l else .killed l.statuses .acq)⟩
  | .scan (j :: rem) l =>
    some ⟨.acq (.proc j), k, .waitall nAddr statusesAddr (.rel j rem (l.visit i j (k.proc j)))⟩
  | .rel j rem l => some ⟨.rel (.proc j), k, .waitall nAddr statusesAddr (.scan rem l)⟩
  | .relWNone => some ⟨.rel .wait, k, .waitall nAddr statusesAddr .outNone⟩
  | .outNone =>
    (exec (tryCopyout i nAddr (le32 0)) k).map fun r => ⟨.tau, r.2, .sysRet 0⟩
  | .free [] l => some ⟨.tau, k, .waitall nAddr statusesAddr (.relW l)⟩
  | .free (j :: rem) l =>
    (exec (freeproc j) k).map fun r =>
      ⟨.acq (.proc j), r.2, .waitall nAddr statusesAddr (.freeRel j rem l)⟩
  | .freeRel j rem l => some ⟨.rel (.proc j), k, .waitall nAddr statusesAddr (.free rem l)⟩
  | .relW l => some ⟨.rel .wait, k, .waitall nAddr statusesAddr (.outN l)⟩
  | .outN l =>
    (exec (tryCopyout i nAddr (le32 (.ofNat 32 l.count))) k).map fun r =>
      ⟨.tau, r.2, .waitall nAddr statusesAddr (.outS l)⟩
  | .outS l =>
    (exec (tryCopyout i statusesAddr (statusBytes l.statuses l.count)) k).map fun r =>
      ⟨.tau, r.2, .waitall nAddr statusesAddr (.done l)⟩
  | .done _ => some ⟨.tau, k, .sysRet 0⟩
  | .killed st s => some ((killedInstr i k s).map
      (Sum.elim (fun s => .waitall nAddr statusesAddr (.killed st s))
        fun b => .waitall nAddr statusesAddr (if b then .relWKilled else .sleeping st .acq)))
  | .relWKilled => some ⟨.rel .wait, k, .sysRet (-1)⟩
  | .sleeping st s => some ((sleepInstr i (.proc i) .wait k s).map
      (Sum.elim (fun s => .waitall nAddr statusesAddr (.sleeping st s))
        fun _ => .waitall nAddr statusesAddr (.scan (slots N) (Pass.start st))))

def killInstr (k : Kern N) (pid : CInt) : KillAt N → Out N (Frame N)
  | .acq [] => ⟨.tau, k, .sysRet (-1)⟩
  | .acq (j :: rem) =>
    if (k.proc j).pid = pid then ⟨.acq (.proc j), k.upd j Proc.onKill, .kill pid (.relFound j)⟩
    else ⟨.acq (.proc j), k, .kill pid (.rel j rem)⟩
  | .rel j rem => ⟨.rel (.proc j), k, .kill pid (.acq rem)⟩
  | .relFound j => ⟨.rel (.proc j), k, .sysRet 0⟩

/-! ## traps -/

/-- where a system call starts -/
def Syscall.start : Syscall → Frame N
  | .fork => .fork (.alloc (.acq (slots N)))
  | .forkn n pids => .forkn n pids .check
  | .exit status msg => .sysExit status msg
  | .wait addr msg => .wait addr msg .acqW
  | .waitall nAddr statusesAddr => .waitall nAddr statusesAddr .acqW
  | .kill pid => .kill pid (.acq (slots N))
  | .other => .kern true (.run [])

/-- `""` -/
def emptyMsg : Nat → Byte := fun _ => 0

/-- the buffer of `sys_exit`, which starts as the junk `b` -/
def sysExitMsg (b : Nat → Byte) (pt : PageTable) (msg : Nat) : Nat → Byte :=
  if msg = 0 then Function.update b 0 0
  else
    match copyinstr pt b msg 32 with
    | (buf, true) => buf
    | (buf, false) => Function.update buf 0 0

/-- `usertrap`, from user mode and back -/
def trapInstr (i : Slot N) (k : Kern N) (ch : Choice) : Frame N → Option (Out N (Frame N))
  | .user =>
    match ch with
    | .store va bs tf =>
      some ⟨.tau, k.upd i fun q =>
        { q with pagetable := q.pagetable.map fun pt => (copyout pt va bs).1,
                 trapframe := q.trapframe.map fun r => (r.1, tf) }, .user⟩
    | .syscall sc => some ⟨.tau, k, .trapSyscall sc .acq⟩
    | .fault => some ⟨.tau, k, .trapFault .acq⟩
    | .irq timer => some ⟨.tau, k, .trapDev timer (.run [])⟩
    | _ => none
  | .trapSyscall sc s => some ((killedInstr i k s).map
      (Sum.elim (fun s => .trapSyscall sc s)
        fun b => if b then .exit (-1) emptyMsg .start else sc.start))
  | .trapFault s => some ((setkilledInstr i k s).map
      (Sum.elim (fun s => .trapFault s) fun _ => .trapRet false .acq))
  | .trapDev timer ks => (kernInstr (some i) false k ch ks).map (Out.map
      (Sum.elim (fun ks => .trapDev timer ks) fun _ => .trapRet timer .acq))
  | .trapRet timer s => some ((killedInstr i k s).map
      (Sum.elim (fun s => .trapRet timer s) fun b =>
        if b then .exit (-1) emptyMsg .start else if timer then .trapYield .acq else .user))
  | .trapYield s => some ((yieldInstr i k s).map (Sum.elim (fun s => .trapYield s) fun _ => .user))
  | .sysRet r =>
    some ⟨.tau, k.upd i fun q =>
      { q with trapframe := q.trapframe.map fun t => (t.1, Function.update t.2 Trapframe.a0 r) },
      .trapRet false .acq⟩
  | .sysExit status msg =>
    match ch, (k.proc i).pagetable with
    | .stack b, some pt => some ⟨.tau, k, .exit status (sysExitMsg b pt msg) .start⟩
    | _, _ => none
  | .kern sys ks => (kernInstr (some i) true k ch ks).map (Out.map
      (Sum.elim (fun ks => .kern sys ks) fun r => if sys then .sysRet r else .user))
  | .forkret => some ⟨.rel (.proc i), k, .kern false (.run [])⟩
  | _ => none

section
variable [NeZero N]

/-- one step of the thread of process `i` from its lowest frame -/
def instr (i : Slot N) (k : Kern N) (ch : Choice) : Frame N → Option (Out N (Frame N))
  | .fork p => forkInstr i k p
  | .forkn n pids p => forknInstr i k n pids p
  | .exit status msg p => exitInstr i k ch status msg p
  | .wait addr msg p => waitInstr i k addr msg p
  | .waitall nAddr statusesAddr p => waitallInstr i k nAddr statusesAddr p
  | .kill pid p => some (killInstr k pid p)
  | f => trapInstr i k ch f

/-- `kerneltrap` on a thread with `myproc() = self`; the `yield` of the timer is for processes -/
def intrInstr (self : Option (Slot N)) (k : Kern N) (ch : Choice) :
    Frame N → Option (Out N (Option (Frame N)))
  | .intr timer ks => (kernInstr self false k ch ks).map (Out.map
      (Sum.elim (fun ks => some (.intr timer ks)) fun _ =>
        match self with
        | some i => if timer ∧ (k.proc i).state = .running then some (.intrYield .acq) else none
        | none => none))
  | .intrYield s =>
    match self with
    | some i => some ((yieldInstr i k s).map
        (Sum.elim (fun s => some (.intrYield s)) fun _ => none))
    | none => none
  | _ => none

/-- one step of the thread of process `i`: an interrupt is taken where none is being handled and no
spinlock is held -/
def threadInstr (i : Slot N) (k : Kern N) (ch : Choice) (noff : Nat) :
    List (Frame N) → Option (Out N (List (Frame N)))
  | [f] =>
    match ch, f with
    | .irq timer, .user => some ⟨.tau, k, [.trapDev timer (.run [])]⟩
    | .irq timer, f => if noff = 0 then some ⟨.tau, k, [.intr timer (.run []), f]⟩ else none
    | ch, f => (instr i k ch f).map (Out.map fun f => [f])
  | [g, f] => (intrInstr (some i) k ch g).map (Out.map fun g => g.toList ++ [f])
  | _ => none

end

/-! ## the machine -/

/-- the tables, the spinlocks (their depth is `noff`), and for each CPU the process whose thread it
executes (none: its scheduler), `c->proc` and its scheduler thread -/
structure Machine (N : ℕ) (C : Type) where
  k : Kern N
  locks : Spin (Lock N) C
  cur : C → Option (Slot N)
  cproc : C → Option (Slot N)
  sch : C → List (Frame N)

/-- the thread of `i` has got to `st` -/
def Kern.setContext (k : Kern N) (i : Slot N) (st : List (Frame N)) : Kern N :=
  k.upd i fun q => { q with context := st }

namespace Machine
variable {C : Type} [DecidableEq C]

/-- a step of the scheduler thread of `c` that does `op` and goes on at `st` -/
def schedTo (m : Machine N C) (c : C) (op : Op (Lock N)) (st : List (Frame N)) :
    Option (Machine N C) :=
  (m.locks.apply c op).map fun locks =>
    { m with locks := locks, sch := Function.update m.sch c st }

section
variable [NeZero N]

/-- a step of the thread of process `i` on CPU `c`; `swtch` is guarded by the checks of `sched` -/
def procStep (m : Machine N C) (c : C) (ch : Choice) (i : Slot N) : Option (Machine N C) :=
  match threadInstr i m.k ch (m.locks.depth c) (m.k.proc i).context with
  | none => none
  | some ⟨op, k, next⟩ =>
    let k := k.setContext i next
    match op with
    | .swtch =>
      if m.locks.owner (.proc i) = some c ∧ m.locks.depth c = 1 ∧ (k.proc i).state ≠ .running then
        some { m with k := k, cur := Function.update m.cur c none }
      else none
    | op => (m.locks.apply c op).map fun locks => { m with k := k, locks := locks }

/-- a step of the scheduler thread of CPU `c` -/
def schedStep (m : Machine N C) (c : C) (ch : Choice) : Option (Machine N C) :=
  match m.sch c with
  | [.schedLoop rem] =>
    match ch, rem with
    | .irq timer, rem =>
      if m.locks.depth c = 0 then m.schedTo c .tau [.intr timer (.run []), .schedLoop rem] else none
    | _, [] => m.schedTo c .tau [.schedLoop (slots N)]
    | _, j :: rem =>
      if (m.k.proc j).state = .runnable then
        (m.schedTo c (.acq (.proc j)) [.schedGo j rem]).map fun m =>
          { m with k := m.k.upd j fun q => { q with state := .running },
                   cproc := Function.update m.cproc c (some j) }
      else m.schedTo c (.acq (.proc j)) [.schedRel j rem]
  | [.schedGo j rem] =>
    (m.schedTo c .tau [.schedBack j rem]).map fun m =>
      { m with cur := Function.update m.cur c (some j) }
  | [.schedBack j rem] =>
    (m.schedTo c .tau [.schedRel j rem]).map fun m =>
      { m with cproc := Function.update m.cproc c none }
  | [.schedRel j rem] => m.schedTo c (.rel (.proc j)) [.schedLoop rem]
  | [g, f] =>
    match intrInstr none m.k ch g with
    | none => none
    | some ⟨op, k, next⟩ => (m.schedTo c op (next.toList ++ [f])).map fun m => { m with k := k }
  | _ => none

/-- one step of CPU `c` -/
def step (c : C) (ch : Choice) (m : Machine N C) : Option (Machine N C) :=
  match m.cur c with
  | some i => m.procStep c ch i
  | none => m.schedStep c ch

/-- the machine when the CPUs enter `scheduler`, after `userinit` with the free pages `pages` -/
def boot (pages : List Nat) : Option (Machine N C) :=
  (exec userinit (Kern.zero pages)).map fun r =>
    { k := r.2, locks := .free, cur := fun _ => none, cproc := fun _ => none,
      sch := fun _ => [.schedLoop []] }

def Init (m : Machine N C) : Prop := ∃ pages, boot pages = some m

def Next (m m' : Machine N C) : Prop := ∃ c ch, step c ch m = some m'

/-- a run of the machine, from `userinit` on -/
abbrev Run (σ : Nat → Machine N C) : Prop := Runs Init Next σ

/-- the run from `m` in which the CPUs take the given steps -/
def schedule (m : Machine N C) (acts : List (C × Choice)) : Nat → Machine N C :=
  Runs.drive (fun t m => acts[t]?.bind fun a => m.step a.1 a.2) m

theorem schedule_run {m : Machine N C} (h : Init m) (acts : List (C × Choice)) :
    Run (m.schedule acts) := by
  refine Runs.of_drive h fun t s s' e => ?_
  obtain ⟨⟨c, ch⟩, -, e⟩ := Option.bind_eq_some_iff.mp e
  exact ⟨c, ch, e⟩

end

end Machine

/-! ## a sample run -/

/-- a machine with three slots, two CPUs and 40 pages -/
def sampleBoot : Option (Machine 3 (Fin 2)) :=
  Machine.boot ((List.range 40).map fun i => 0x80100000 + 4096 * i)

/-- CPU 1 runs the first process, which calls `fork` and `wait(64, 128)`, then its child, which
calls `exit(7, "hi")`, and again the first process, which returns from `wait` -/
def sampleRun : List (Fin 2 × Choice) :=
  let go (n : Nat) : List (Fin 2 × Choice) := List.replicate n (1, .go)
  go 4 ++ [(1, .leave 0), (1, .syscall .fork)] ++ go 14 ++ [(1, .syscall (.wait 64 128))] ++ go 19 ++
  [(1, .leave 0), (1, .store 16 [104, 105, 0] fun _ => 0), (1, .syscall (.exit 7 16))] ++ go 2 ++
  [(1, .stack fun _ => 1), (1, .go), (1, .leave 0)] ++ go 32

theorem sample_any (P : Machine 3 (Fin 2) → Prop) [DecidablePred P]
    (h : sampleBoot.any (fun m => decide (P m)) = true) : ∃ m, sampleBoot = some m ∧ P m := by
  obtain ⟨m, hm, hP⟩ := (Option.any_eq_true _ _).mp h
  exact ⟨m, hm, of_decide_eq_true hP⟩

end Xv6
