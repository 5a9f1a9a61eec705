import Xv6.Machine.Step

/-!
# What a step of a thread can do

Every place of a thread comes with the locks it relies on and the state its process is in there.
One lemma says what a step does to the locks, to the place and to the process table; the invariants
of the machine are derived from it.

* `Frame.need`   the spinlocks that are held at a place;
* `Frame.mode`   the state of the process at a place, when it is on a CPU;
* `Frame.point`   the places where `swtch` leaves a thread;
* `Frame.making`   slots that the routine has allocated and not yet made `RUNNABLE`;
* `Frame.reaping`  zombies that `waitall` has collected and not yet freed;
* `Touch`   the changes that a step makes to one slot;
* `instr_does`   **every step keeps the lock discipline and makes one such change.**
-/

namespace Xv6
variable {N : ℕ}

/-! ## the locks held at a place -/

def sleepNeed (i : Slot N) (lk : Lock N) : SleepAt → List (Lock N)
  | .acq => [lk]
  | .relLk => [.proc i, lk]
  | .set => [.proc i]
  | .swtch => [.proc i]
  | .relP => [.proc i]
  | .reacq => []

def yieldNeed (i : Slot N) : YieldAt → List (Lock N)
  | .acq => []
  | .swtch => [.proc i]
  | .rel => [.proc i]

def killedNeed (i : Slot N) : KilledAt → List (Lock N)
  | .acq => []
  | .rel _ => [.proc i]

def wakeNeed : WakeAt N → List (Lock N)
  | .acq _ => []
  | .rel j _ => [.proc j]

def allocNeed : AllocAt N → List (Lock N)
  | .acq _ => []
  | .rel j _ => [.proc j]
  | .relFail j => [.proc j]

def kernNeed (self : Option (Slot N)) : KernAt N → List (Lock N)
  | .run held => held.map .other
  | .sleep _ lk s =>
    match self with
    | some i => sleepNeed i (.other lk) s
    | none => []
  | .wake _ held w => wakeNeed w ++ held.map .other

def forkNeed : ForkAt N → List (Lock N)
  | .alloc a => allocNeed a
  | .fill np => [.proc np]
  | .relFail np => [.proc np]
  | .rel np _ => [.proc np]
  | .acqW _ _ => []
  | .relW _ _ => [.wait]
  | .acqPub _ _ => []
  | .relPub np _ => [.proc np]

def forknNeed : ForknAt N → List (Lock N)
  | .check => []
  | .alloc a _ _ => allocNeed a
  | .fill np _ _ => [.proc np]
  | .rel np _ _ => [.proc np]
  | .clean _ => []
  | .cleanRel j _ => [.proc j]
  | .acqW _ _ => []
  | .link _ _ => [.wait]
  | .linkAcq _ _ _ => [.wait]
  | .linkRel j _ _ => [.proc j, .wait]
  | .relW _ => [.wait]
  | .out _ => []

def exitNeed (i : Slot N) : ExitAt N → List (Lock N)
  | .start => []
  | .close ks => kernNeed (some i) ks
  | .acqW => []
  | .reparent _ => [.wait]
  | .wakeInit _ w => wakeNeed w ++ [.wait]
  | .wakeParent _ w => wakeNeed w ++ [.wait]
  | .acqP => [.wait]
  | .relW => [.proc i, .wait]
  | .swtch => [.proc i]
  | .dead => [.proc i]

def waitNeed (i : Slot N) : WaitAt N → List (Lock N)
  | .acqW => []
  | .scan _ _ => [.wait]
  | .rel j _ => [.proc j, .wait]
  | .relReap j _ => [.proc j, .wait]
  | .relW _ => [.wait]
  | .killed s => killedNeed i s ++ [.wait]
  | .sleeping s => sleepNeed i .wait s

def waitallNeed (i : Slot N) : WaitallAt N → List (Lock N)
  | .acqW => []
  | .scan _ _ => [.wait]
  | .rel j _ _ => [.proc j, .wait]
  | .relWNone => [.wait]
  | .outNone => []
  | .free _ _ => [.wait]
  | .freeRel j _ _ => [.proc j, .wait]
  | .relW _ => [.wait]
  | .outN _ => []
  | .outS _ => []
  | .done _ => []
  | .killed _ s => killedNeed i s ++ [.wait]
  | .relWKilled => [.wait]
  | .sleeping _ s => sleepNeed i .wait s

def killNeed : KillAt N → List (Lock N)
  | .acq _ => []
  | .rel j _ => [.proc j]
  | .relFound j => [.proc j]

namespace Frame

def need (i : Slot N) : Frame N → List (Lock N)
  | .trapSyscall _ s => killedNeed i s
  | .trapFault s => killedNeed i s
  | .trapDev _ ks => kernNeed (some i) ks
  | .trapRet _ s => killedNeed i s
  | .trapYield s => yieldNeed i s
  | .kern _ ks => kernNeed (some i) ks
  | .fork p => forkNeed p
  | .forkn _ _ p => forknNeed p
  | .exit _ _ p => exitNeed i p
  | .wait _ _ p => waitNeed i p
  | .waitall _ _ p => waitallNeed i p
  | .kill _ p => killNeed p
  | .forkret => [.proc i]
  | .intr _ ks => kernNeed (some i) ks
  | .intrYield s => yieldNeed i s
  | _ => []

/-! ## the state of the process at a place -/

/-- the state of a process on a CPU -/
inductive Mode (N : ℕ) where
  | run
  /-- in `sleep`, before the switch -/
  | asleep (ch : Chan N)
  /-- in `yield`, before the switch -/
  | ready
  /-- in `exit`, before the switch -/
  | dead (status : CInt)

end Frame

open Xv6.Frame (Mode)

def sleepMode (ch : Chan N) : SleepAt → Mode N
  | .swtch => .asleep ch
  | _ => .run

def yieldMode : YieldAt → Mode N
  | .swtch => .ready
  | _ => .run

def kernMode : KernAt N → Mode N
  | .sleep a _ s => sleepMode (.other a) s
  | _ => .run

def exitMode (status : CInt) : ExitAt N → Mode N
  | .close ks => kernMode ks
  | .relW => .dead status
  | .swtch => .dead status
  | _ => .run

def waitMode (i : Slot N) : WaitAt N → Mode N
  | .sleeping s => sleepMode (.proc i) s
  | _ => .run

def waitallMode (i : Slot N) : WaitallAt N → Mode N
  | .sleeping _ s => sleepMode (.proc i) s
  | _ => .run

namespace Frame

def mode (i : Slot N) : Frame N → Mode N
  | .trapDev _ ks => kernMode ks
  | .trapYield s => yieldMode s
  | .kern _ ks => kernMode ks
  | .exit status _ p => exitMode status p
  | .wait _ _ p => waitMode i p
  | .waitall _ _ p => waitallMode i p
  | .intr _ ks => kernMode ks
  | .intrYield s => yieldMode s
  | _ => .run

end Frame

/-- a process with the record `q` in the mode -/
def Frame.Mode.Of (q : Proc N) : Mode N → Prop
  | .run => q.state = .running
  | .asleep ch => q.state = .sleeping ∧ q.chan = some ch
  | .ready => q.state = .runnable
  | .dead status => q.state = .zombie ∧ q.xstate = status

/-- where `swtch` leaves the thread of a process -/
inductive Point (N : ℕ) where
  | sleep (ch : Chan N)
  | yield
  | start
  | dead (status : CInt)

def sleepPoint (ch : Chan N) : SleepAt → Option (Point N)
  | .relP => some (.sleep ch)
  | _ => none

def yieldPoint : YieldAt → Option (Point N)
  | .rel => some .yield
  | _ => none

def kernPoint : KernAt N → Option (Point N)
  | .sleep a _ s => sleepPoint (.other a) s
  | _ => none

def exitPoint (status : CInt) : ExitAt N → Option (Point N)
  | .close ks => kernPoint ks
  | .dead => some (.dead status)
  | _ => none

def waitPoint (i : Slot N) : WaitAt N → Option (Point N)
  | .sleeping s => sleepPoint (.proc i) s
  | _ => none

def waitallPoint (i : Slot N) : WaitallAt N → Option (Point N)
  | .sleeping _ s => sleepPoint (.proc i) s
  | _ => none

def Frame.point (i : Slot N) : Frame N → Option (Point N)
  | .trapDev _ ks => kernPoint ks
  | .trapYield s => yieldPoint s
  | .kern _ ks => kernPoint ks
  | .exit status _ p => exitPoint status p
  | .wait _ _ p => waitPoint i p
  | .waitall _ _ p => waitallPoint i p
  | .forkret => some .start
  | .intr _ ks => kernPoint ks
  | .intrYield s => yieldPoint s
  | _ => none

/-- where a process in the mode is after `swtch` -/
def Frame.Mode.point : Mode N → Option (Point N)
  | .run => none
  | .asleep ch => some (.sleep ch)
  | .ready => some .yield
  | .dead status => some (.dead status)

/-- without locks, a process is running and not at a place where `swtch` leaves a thread -/
theorem Frame.run_of_need {i : Slot N} {f : Frame N} (h : f.need i = []) :
    f.mode i = .run ∧ f.point i = none := by
  have hs : ∀ ch lk s, sleepNeed i lk s = [] → sleepMode (N := N) ch s = .run ∧
      sleepPoint (N := N) ch s = none := by
    rintro ch lk (_ | _ | _ | _ | _ | _) hn <;> first | exact ⟨rfl, rfl⟩ | cases hn
  have hy : ∀ s, yieldNeed i s = [] → yieldMode (N := N) s = .run ∧
      yieldPoint (N := N) s = none := by
    rintro (_ | _ | _) hn <;> first | exact ⟨rfl, rfl⟩ | cases hn
  have hk : ∀ ks, kernNeed (some i) ks = [] → kernMode ks = .run ∧ kernPoint ks = none := by
    rintro (_ | ⟨a, lk, s⟩ | _) hn
    · exact ⟨rfl, rfl⟩
    · exact hs _ _ s hn
    · exact ⟨rfl, rfl⟩
  cases f with
  | trapDev _ ks => exact hk ks h
  | trapYield s => exact hy s h
  | kern _ ks => exact hk ks h
  | exit status msg p =>
    cases p with
    | close ks => exact hk ks h
    | relW | swtch | dead => cases h
    | _ => exact ⟨rfl, rfl⟩
  | wait _ _ p =>
    cases p with
    | sleeping s => exact hs _ _ s h
    | _ => exact ⟨rfl, rfl⟩
  | waitall _ _ p =>
    cases p with
    | sleeping _ s => exact hs _ _ s h
    | _ => exact ⟨rfl, rfl⟩
  | forkret => cases h
  | intr _ ks => exact hk ks h
  | intrYield s => exact hy s h
  | _ => exact ⟨rfl, rfl⟩

theorem Frame.mode_facts (i : Slot N) (f : Frame N) : f.mode i = .run ∨ .proc i ∈ f.need i := by
  have hs : ∀ ch lk s, sleepMode (N := N) ch s = .run ∨ .proc i ∈ sleepNeed i lk s := by
    rintro ch lk (_ | _ | _ | _ | _ | _)
    all_goals first | exact .inl rfl | exact .inr List.mem_cons_self
  have hy : ∀ s, yieldMode (N := N) s = .run ∨ .proc i ∈ yieldNeed i s := by
    rintro (_ | _ | _)
    all_goals first | exact .inl rfl | exact .inr List.mem_cons_self
  have hk : ∀ ks, kernMode ks = .run ∨ .proc i ∈ kernNeed (some i) ks := by
    rintro (_ | ⟨a, lk, s⟩ | _)
    · exact .inl rfl
    · exact hs _ _ s
    · exact .inl rfl
  cases f with
  | trapDev _ ks => exact hk ks
  | trapYield s => exact hy s
  | kern _ ks => exact hk ks
  | exit status msg p =>
    cases p with
    | close ks => exact hk ks
    | relW | swtch => exact .inr List.mem_cons_self
    | _ => exact .inl rfl
  | wait _ _ p =>
    cases p with
    | sleeping s => exact hs _ _ s
    | _ => exact .inl rfl
  | waitall _ _ p =>
    cases p with
    | sleeping _ s => exact hs _ _ s
    | _ => exact .inl rfl
  | intr _ ks => exact hk ks
  | intrYield s => exact hy s
  | _ => exact .inl rfl

/-! ## slots that a routine has in its hands -/

/-- slots that have their parent and are not yet `RUNNABLE` -/
def Frame.linked : Frame N → List (Slot N)
  | .fork (.relW np _) => [np]
  | .fork (.acqPub np _) => [np]
  | .forkn _ _ (.linkAcq j _ _) => [j]
  | _ => []

/-- allocated slots that have no parent -/
def Frame.loose : Frame N → List (Slot N)
  | .fork (.fill np) => [np]
  | .fork (.rel np _) => [np]
  | .fork (.acqW np _) => [np]
  | .forkn _ _ (.alloc _ kids _) => kids
  | .forkn _ _ (.fill np kids _) => kids ++ [np]
  | .forkn _ _ (.rel np kids _) => kids ++ [np]
  | .forkn _ _ (.clean rem) => rem
  | .forkn _ _ (.cleanRel _ rem) => rem
  | .forkn _ _ (.acqW kids _) => kids
  | .forkn _ _ (.link rem _) => rem
  | .forkn _ _ (.linkAcq _ rem _) => rem
  | .forkn _ _ (.linkRel _ rem _) => rem
  | _ => []

/-- slots that the routine is making: allocated, and not yet `RUNNABLE` -/
def Frame.making (f : Frame N) : List (Slot N) := f.linked ++ f.loose

def WaitallAt.reaping : WaitallAt N → List (Slot N)
  | .scan _ l => l.toFree
  | .rel _ _ l => l.toFree
  | .free rem _ => rem
  | .freeRel _ rem _ => rem
  | _ => []

def Frame.reaping : Frame N → List (Slot N)
  | .waitall _ _ p => p.reaping
  | _ => []

/-! ## threads

The thread of a process is its lowest frame, or that under the frame of an interrupt. -/

def needs (i : Slot N) : List (Frame N) → List (Lock N)
  | [f] => f.need i
  | [g, f] => g.need i ++ f.need i
  | _ => []

def modeOf (i : Slot N) : List (Frame N) → Mode N
  | f :: _ => f.mode i
  | [] => .run

def pointOf (i : Slot N) : List (Frame N) → Option (Point N)
  | f :: _ => f.point i
  | [] => none

/-- the lowest frame -/
def mainOf : List (Frame N) → Frame N
  | [f] => f
  | [_, f] => f
  | _ => .user

def makingOf (st : List (Frame N)) : List (Slot N) := (mainOf st).making

/-- the slots being made, those that have their parent first -/
def handsOf (st : List (Frame N)) : List (Slot N) × List (Slot N) :=
  ((mainOf st).linked, (mainOf st).loose)

theorem makingOf_hands {st : List (Frame N)} {L U : List (Slot N)} (h : handsOf st = (L, U)) :
    makingOf st = L ++ U := by
  show (handsOf st).1 ++ (handsOf st).2 = L ++ U
  rw [h]

theorem makingOf_same {st st' : List (Frame N)} (h : handsOf st' = handsOf st) :
    makingOf st' = makingOf st := makingOf_hands h

theorem makingOf_more {st st' : List (Frame N)} {j : Slot N}
    (h : handsOf st' = ((handsOf st).1, (handsOf st).2 ++ [j])) :
    makingOf st' = makingOf st ++ [j] :=
  (makingOf_hands h).trans (List.append_assoc _ _ _).symm

theorem makingOf_less {st st' : List (Frame N)} {j : Slot N}
    (h : handsOf st = ([], j :: (handsOf st').2)) (h' : (handsOf st').1 = []) :
    makingOf st = j :: makingOf st' := by
  rw [makingOf_hands h, makingOf_hands (show handsOf st' = ([], (handsOf st').2) by rw [← h'])]
  rfl

theorem makingOf_link {st st' : List (Frame N)} {j : Slot N}
    (h : handsOf st = ([], j :: (handsOf st').2)) (h' : (handsOf st').1 = [j]) :
    makingOf st' = makingOf st := by
  rw [makingOf_hands h, makingOf_hands (show handsOf st' = ([j], (handsOf st').2) by rw [← h'])]
  rfl

theorem makingOf_publish {st st' : List (Frame N)} {j : Slot N}
    (h : handsOf st = ([j], (handsOf st').2)) (h' : (handsOf st').1 = []) :
    makingOf st = j :: makingOf st' := by
  rw [makingOf_hands h, makingOf_hands (show handsOf st' = ([], (handsOf st').2) by rw [← h'])]
  rfl

def reapingOf (st : List (Frame N)) : List (Slot N) := (mainOf st).reaping

/-! ## changes of the process table -/

/-- the same process, but for the fields that only its own thread uses -/
structure Proc.Same (q q' : Proc N) : Prop where
  state : q'.state = q.state
  chan : q'.chan = q.chan
  killed : q'.killed = q.killed
  xstate : q'.xstate = q.xstate
  pid : q'.pid = q.pid
  parent : q'.parent = q.parent
  exitMsg : q'.exitMsg = q.exitMsg
  context : q'.context = q.context

theorem Proc.Same.refl (q : Proc N) : q.Same q := ⟨rfl, rfl, rfl, rfl, rfl, rfl, rfl, rfl⟩

theorem Proc.Same.trans {q r u : Proc N} (h : q.Same r) (h' : r.Same u) : q.Same u where
  state := h'.state.trans h.state
  chan := h'.chan.trans h.chan
  killed := h'.killed.trans h.killed
  xstate := h'.xstate.trans h.xstate
  pid := h'.pid.trans h.pid
  parent := h'.parent.trans h.parent
  exitMsg := h'.exitMsg.trans h.exitMsg
  context := h'.context.trans h.context

/-- what a step of the thread of `i` from `st` to `st'` does to slot `j`: its record goes through `g`,
which is the identity where the step only works on fields of its own -/
inductive Touch [NeZero N] (i : Slot N) (k : Kern N) (st : List (Frame N)) :
    Op (Lock N) → List (Frame N) → Slot N → (Proc N → Proc N) → Prop
  | keep {op st'} (h : op ≠ .swtch) (hm : modeOf i st' = modeOf i st) (hk : handsOf st' = handsOf st) :
    Touch i k st op st' i id
  | swtch {st'} (hp : pointOf i st' = (modeOf i st).point) (hk : handsOf st' = handsOf st) :
    Touch i k st .swtch st' i id
  | sleep {st'} (ch : Chan N) (hn : .proc i ∈ needs i st) (hm : modeOf i st = .run)
    (hm' : modeOf i st' = .asleep ch) (hk : handsOf st' = handsOf st) :
    Touch i k st .tau st' i fun q => { q with chan := some ch, state := .sleeping }
  | unsleep {st'} (ch : Chan N) (hp : pointOf i st = some (.sleep ch)) (hm : modeOf i st = .run)
    (hm' : modeOf i st' = .run) (hk : handsOf st' = handsOf st) :
    Touch i k st (.rel (.proc i)) st' i fun q => { q with chan := none }
  | yield {st'} (hm : modeOf i st = .run) (hm' : modeOf i st' = .ready) (hk : handsOf st' = handsOf st) :
    Touch i k st (.acq (.proc i)) st' i fun q => { q with state := .runnable }
  | setkilled {st'} (hm : modeOf i st = .run) (hm' : modeOf i st' = .run) (hk : handsOf st' = handsOf st) :
    Touch i k st (.acq (.proc i)) st' i fun q => { q with killed := true }
  | exitMsg {status msg} (hf : st = [.exit status msg .acqW]) :
    Touch i k st (.acq .wait) [.exit status msg (.reparent (slots N))] i
      fun q => { q with exitMsg := safestrcpy q.exitMsg msg 32 }
  | zombie {status msg} (hf : st = [.exit status msg .acqP]) :
    Touch i k st (.acq (.proc i)) [.exit status msg .relW] i
      fun q => { q with xstate := status, state := .zombie }
  | reparent {status msg j rem} (hf : st = [.exit status msg (.reparent (j :: rem))])
    (hc : (k.proc j).parent = some i) :
    Touch i k st .tau [.exit status msg (.wakeInit rem (.acq (slots N)))] j
      fun q => { q with parent := some initproc }
  | wake {st' j} (ch : Option (Chan N)) (hj : j ≠ i) (hm : modeOf i st = .run) (hm' : modeOf i st' = .run)
    (hk : handsOf st' = handsOf st) : Touch i k st (.acq (.proc j)) st' j (Proc.woken ch)
  | kill {pid j rem} (hf : st = [.kill pid (.acq (j :: rem))]) (hp : (k.proc j).pid = pid) :
    Touch i k st (.acq (.proc j)) [.kill pid (.relFound j)] j Proc.onKill
  | allocFail {st' j} (hu : (k.proc j).state = .unused) (hm : modeOf i st = .run)
    (hm' : modeOf i st' = .run) (hk : handsOf st' = handsOf st) : Touch i k st (.acq (.proc j)) st' j Proc.freed
  | alloc {st' j} (hu : (k.proc j).state = .unused) (hm : modeOf i st = .run) (hm' : modeOf i st' = .run)
    (hk : handsOf st' = ((handsOf st).1, (handsOf st).2 ++ [j])) :
    Touch i k st (.acq (.proc j)) st' j
      fun q => { q with pid := k.nextpid, state := .used, context := [.forkret] }
  | fill {st' j} (hm : modeOf i st = .run) (hm' : modeOf i st' = .run) (hj : j ∈ (handsOf st).2)
    (hk : handsOf st' = handsOf st) : Touch i k st .tau st' j id
  | fillFail {st' j} (hm : modeOf i st = .run) (hm' : modeOf i st' = .run)
    (hk : handsOf st = ((handsOf st').1, (handsOf st').2 ++ [j])) : Touch i k st .tau st' j Proc.freed
  | link {op st' j} (hop : op ≠ .swtch) (hm : modeOf i st = .run) (hm' : modeOf i st' = .run)
    (hk : handsOf st = ([], j :: (handsOf st').2)) (hk' : (handsOf st').1 = [j])
    (hw : op = .acq .wait ∨ .wait ∈ needs i st) :
    Touch i k st op st' j fun q => { q with parent := some i }
  | publish {st' j} (hm : modeOf i st = .run) (hm' : modeOf i st' = .run) (hk : handsOf st = ([j], (handsOf st').2))
    (hk' : (handsOf st').1 = []) :
    Touch i k st (.acq (.proc j)) st' j fun q => { q with state := .runnable }
  | clean {st' j} (hm : modeOf i st = .run) (hm' : modeOf i st' = .run) (hk : handsOf st = ([], j :: (handsOf st').2))
    (hk' : (handsOf st').1 = []) :
    Touch i k st (.acq (.proc j)) st' j Proc.freed
  | reap {st' j} (hc : (k.proc j).parent = some i) (hz : (k.proc j).state = .zombie)
    (hr : reapingOf st' = []) (hm : modeOf i st = .run) (hm' : modeOf i st' = .run)
    (hk : handsOf st' = handsOf st) (hw : .wait ∈ needs i st) :
    Touch i k st (.acq (.proc j)) st' j Proc.freed
  | free {st' j} (hr : reapingOf st = j :: reapingOf st') (hm : modeOf i st = .run) (hm' : modeOf i st' = .run)
    (hk : handsOf st' = handsOf st) (hw : .wait ∈ needs i st) : Touch i k st (.acq (.proc j)) st' j Proc.freed

/-- from the tables `k` to `k'`, a step of the thread of `i` changes slot `j` by `g` and fields of
its own -/
structure Changes (i : Slot N) (k k' : Kern N) (j : Slot N) (g : Proc N → Proc N) : Prop where
  here : (g (k.proc j)).Same (k'.proc j)
  own : i ≠ j → (k.proc i).Same (k'.proc i)
  other : ∀ x, x ≠ i → x ≠ j → k'.proc x = k.proc x

theorem Changes.none (i : Slot N) (k : Kern N) : Changes i k k i id :=
  ⟨.refl _, fun _ => .refl _, fun _ _ _ => rfl⟩

theorem Changes.upd (i : Slot N) (k : Kern N) (j : Slot N) (g : Proc N → Proc N) :
    Changes i k (k.upd j g) j g where
  here := by
    rw [Kern.upd_same]
    exact .refl _
  own h := by
    rw [Kern.upd_ne k g h]
    exact .refl _
  other x _ hj := Kern.upd_ne k g hj

/-- the routine a frame belongs to -/
inductive Kind where
  | trap | fork | forkn | exit | wait | waitall | kill | intr | sched
  deriving DecidableEq

namespace Frame

def kind : Frame N → Kind
  | .fork _ => .fork
  | .forkn _ _ _ => .forkn
  | .exit _ _ _ => .exit
  | .wait _ _ _ => .wait
  | .waitall _ _ _ => .waitall
  | .kill _ _ => .kill
  | .intr _ _ => .intr
  | .intrYield _ => .intr
  | .schedLoop _ => .sched
  | .schedGo _ _ => .sched
  | .schedBack _ _ => .sched
  | .schedRel _ _ => .sched
  | _ => .trap

/-- the places where a routine starts, and those of `usertrap` -/
def Entry : Frame N → Prop
  | .trapDev _ _ => False
  | .forkret => False
  | .kern _ ks => ks = .run []
  | .fork p => p = .alloc (.acq (slots N))
  | .forkn _ _ p => p = .check
  | .exit _ _ p => p = .start
  | .wait _ _ p => p = .acqW
  | .waitall _ _ p => p = .acqW
  | .kill _ p => p = .acq (slots N)
  | f => f.kind = .trap ∧ f.making = []

end Frame

/-- a step of the thread of `i` -/
structure Does [NeZero N] (i : Slot N) (k : Kern N) (st : List (Frame N))
    (o : Out N (List (Frame N))) : Prop where
  disc : Disc (needs i st) o.op (needs i o.next)
  touch : ∃ j g, Touch i k st o.op o.next j g ∧ Changes i k o.k j g
  mem : ∀ x, x ≠ i → (o.k.proc x).pagetable = (k.proc x).pagetable ∨
    (k.proc x).state = .unused ∨ (k.proc x).state = .zombie ∨ x ∈ makingOf st ∨
    x ∈ reapingOf st
  kind : (mainOf o.next).kind = (mainOf st).kind ∨ (mainOf o.next).Entry

theorem Changes.update {i j : Slot N} {k k' : Kern N} {q : Proc N} {g : Proc N → Proc N}
    (h : k'.proc = Function.update k.proc j q) (hq : (g (k.proc j)).Same q) :
    Changes i k k' j g where
  here := by
    rw [h, Function.update_self]
    exact hq
  own hij := by
    rw [h, Function.update_of_ne hij]
    exact .refl _
  other x _ hx := by rw [h, Function.update_of_ne hx]

/-! ## the routines called by others -/

theorem Kern.work_proc (k : Kern N) (i : Slot N) (w : Private) :
    ∃ q, (k.work i w).proc = Function.update k.proc i q ∧ (k.proc i).Same q :=
  ⟨_, rfl, ⟨rfl, rfl, rfl, rfl, rfl, rfl, rfl, rfl⟩⟩

theorem Proc.woken_cases (ch : Option (Chan N)) (q : Proc N) :
    q.woken ch = q ∨
    (q.state = .sleeping ∧ q.chan = ch ∧ q.woken ch = { q with state := .runnable }) := by
  unfold Proc.woken
  split
  · rename_i h
    exact .inr ⟨h.1, h.2, rfl⟩
  · exact .inl rfl

theorem Proc.woken_pagetable (ch : Option (Chan N)) (q : Proc N) :
    (q.woken ch).pagetable = q.pagetable := by
  unfold Proc.woken
  split <;> rfl

/-- the places `A` of a routine as frames of its caller, with what is held and known at each -/
structure Embeds {A : Type} (i : Slot N) (F : A → List (Frame N)) (need : A → List (Lock N))
    (mode : A → Mode N) (point : A → Option (Point N)) : Prop where
  need : ∀ a, needs i (F a) = need a
  mode : ∀ a, modeOf i (F a) = mode a
  point : ∀ a, pointOf i (F a) = point a
  hands : ∀ a b, handsOf (F a) = handsOf (F b)
  kind : ∀ a b, (mainOf (F a)).kind = (mainOf (F b)).kind ∨ (mainOf (F a)).Entry

abbrev EmbedsSleep (i : Slot N) (F : SleepAt ⊕ Unit → List (Frame N)) (ch : Chan N) (lk : Lock N) : Prop :=
  Embeds i F (Sum.elim (sleepNeed i lk) fun _ => [lk]) (Sum.elim (sleepMode ch) fun _ => .run)
    (Sum.elim (sleepPoint ch) fun _ => none)

abbrev EmbedsYield (i : Slot N) (F : YieldAt ⊕ Unit → List (Frame N)) : Prop :=
  Embeds i F (Sum.elim (yieldNeed i) fun _ => []) (Sum.elim yieldMode fun _ => .run)
    (Sum.elim yieldPoint fun _ => none)

/-- `killed` called with the locks `E` held -/
abbrev EmbedsKilled {R : Type} (i : Slot N) (F : KilledAt ⊕ R → List (Frame N)) (E : List (Lock N)) : Prop :=
  Embeds i F (Sum.elim (fun s => killedNeed i s ++ E) fun _ => E) (fun _ => .run) fun _ => none

/-- `wakeup` called with the locks `E` held -/
abbrev EmbedsWake (i : Slot N) (F : WakeAt N ⊕ Unit → List (Frame N)) (E : List (Lock N)) : Prop :=
  Embeds i F (Sum.elim (fun w => wakeNeed w ++ E) fun _ => E) (fun _ => .run) fun _ => none

abbrev EmbedsKern (i : Slot N) (F : KernAt N ⊕ BitVec 64 → List (Frame N)) : Prop :=
  Embeds i F (Sum.elim (kernNeed (some i)) fun _ => []) (Sum.elim kernMode fun _ => .run)
    (Sum.elim kernPoint fun _ => none)

section
variable [NeZero N] {i : Slot N} {k : Kern N}

theorem Does.own {st st' : List (Frame N)} {op : Op (Lock N)} {g : Proc N → Proc N}
    (hd : Disc (needs i st) op (needs i st')) (ht : Touch i k st op st' i g)
    (hk : (mainOf st').kind = (mainOf st).kind ∨ (mainOf st').Entry) : Does i k st ⟨op, k.upd i g, st'⟩ where
  disc := hd
  touch := ⟨i, g, ht, .upd i k i g⟩
  mem x hx := .inl (by rw [Kern.upd_ne k g hx])
  kind := hk

theorem Does.still {st st' : List (Frame N)} {op : Op (Lock N)}
    (hd : Disc (needs i st) op (needs i st')) (ht : Touch i k st op st' i id)
    (hk : (mainOf st').kind = (mainOf st).kind ∨ (mainOf st').Entry) : Does i k st ⟨op, k, st'⟩ where
  disc := hd
  touch := ⟨i, id, ht, .none i k⟩
  mem _ _ := .inl rfl
  kind := hk

theorem sleepInstr_does {F : SleepAt ⊕ Unit → List (Frame N)} {ch : Chan N} {lk : Lock N}
    (hF : EmbedsSleep i F ch lk) (hlk : lk ≠ .proc i) (s : SleepAt) :
    Does i k (F (.inl s)) ((sleepInstr i ch lk k s).map F) := by
  cases s with
  | acq =>
    show Does i k _ ⟨.acq (.proc i), k, F (.inl .relLk)⟩
    exact .still (by simp [hF.need, Disc, sleepNeed])
      (.keep nofun (by simp [hF.mode, sleepMode]) (hF.hands _ _)) (hF.kind _ _)
  | relLk =>
    show Does i k _ ⟨.rel lk, k, F (.inl .set)⟩
    exact .still (by simp [hF.need, Disc, sleepNeed, hlk])
      (.keep nofun (by simp [hF.mode, sleepMode]) (hF.hands _ _)) (hF.kind _ _)
  | set =>
    show Does i k _ ⟨.tau, k.upd i fun q => { q with chan := some ch, state := .sleeping },
      F (.inl .swtch)⟩
    exact .own (by simp [hF.need, Disc, sleepNeed])
      (.sleep ch (by simp [hF.need, sleepNeed]) (by simp [hF.mode, sleepMode])
        (by simp [hF.mode, sleepMode]) (hF.hands _ _)) (hF.kind _ _)
  | swtch =>
    show Does i k _ ⟨.swtch, k, F (.inl .relP)⟩
    refine .still (by simp [hF.need, Disc, sleepNeed]) (.swtch ?_ (hF.hands _ _)) (hF.kind _ _)
    rw [hF.mode, hF.point]
    rfl
  | relP =>
    show Does i k _ ⟨.rel (.proc i), k.upd i fun q => { q with chan := none }, F (.inl .reacq)⟩
    exact .own (by simp [hF.need, Disc, sleepNeed])
      (.unsleep ch (by simp [hF.point, sleepPoint]) (by simp [hF.mode, sleepMode])
        (by simp [hF.mode, sleepMode]) (hF.hands _ _)) (hF.kind _ _)
  | reacq =>
    show Does i k _ ⟨.acq lk, k, F (.inr ())⟩
    exact .still (by simp [hF.need, Disc, sleepNeed])
      (.keep nofun (by simp [hF.mode, sleepMode]) (hF.hands _ _)) (hF.kind _ _)

theorem yieldInstr_does {F : YieldAt ⊕ Unit → List (Frame N)} (hF : EmbedsYield i F) (s : YieldAt) :
    Does i k (F (.inl s)) ((yieldInstr i k s).map F) := by
  cases s with
  | acq =>
    show Does i k _ ⟨.acq (.proc i), k.upd i fun q => { q with state := .runnable },
      F (.inl .swtch)⟩
    exact .own (by simp [hF.need, Disc, yieldNeed])
      (.yield (by simp [hF.mode, yieldMode]) (by simp [hF.mode, yieldMode]) (hF.hands _ _))
      (hF.kind _ _)
  | swtch =>
    show Does i k _ ⟨.swtch, k, F (.inl .rel)⟩
    refine .still (by simp [hF.need, Disc, yieldNeed]) (.swtch ?_ (hF.hands _ _)) (hF.kind _ _)
    rw [hF.mode, hF.point]
    rfl
  | rel =>
    show Does i k _ ⟨.rel (.proc i), k, F (.inr ())⟩
    exact .still (by simp [hF.need, Disc, yieldNeed])
      (.keep nofun (by simp [hF.mode, yieldMode]) (hF.hands _ _)) (hF.kind _ _)

theorem killedInstr_does {F : KilledAt ⊕ Bool → List (Frame N)} {E : List (Lock N)}
    (hF : EmbedsKilled i F E) (hE : .proc i ∉ E) (s : KilledAt) :
    Does i k (F (.inl s)) ((killedInstr i k s).map F) := by
  cases s with
  | acq =>
    show Does i k _ ⟨.acq (.proc i), k, F (.inl (.rel (k.proc i).killed))⟩
    exact .still (by simp [hF.need, Disc, killedNeed])
      (.keep nofun (by simp [hF.mode]) (hF.hands _ _)) (hF.kind _ _)
  | rel b =>
    show Does i k _ ⟨.rel (.proc i), k, F (.inr b)⟩
    exact .still (by simp [hF.need, Disc, killedNeed, hE])
      (.keep nofun (by simp [hF.mode]) (hF.hands _ _)) (hF.kind _ _)

theorem setkilledInstr_does {F : KilledAt ⊕ Unit → List (Frame N)} (hF : EmbedsKilled i F [])
    (s : KilledAt) : Does i k (F (.inl s)) ((setkilledInstr i k s).map F) := by
  cases s with
  | acq =>
    show Does i k _ ⟨.acq (.proc i), k.upd i fun q => { q with killed := true },
      F (.inl (.rel true))⟩
    exact .own (by simp [hF.need, Disc, killedNeed])
      (.setkilled (by simp [hF.mode]) (by simp [hF.mode]) (hF.hands _ _)) (hF.kind _ _)
  | rel b =>
    show Does i k _ ⟨.rel (.proc i), k, F (.inr ())⟩
    exact .still (by simp [hF.need, Disc, killedNeed])
      (.keep nofun (by simp [hF.mode]) (hF.hands _ _)) (hF.kind _ _)

theorem Does.touch_one {st st' : List (Frame N)} {op : Op (Lock N)} {j : Slot N}
    {g : Proc N → Proc N} (hd : Disc (needs i st) op (needs i st')) (ht : Touch i k st op st' j g)
    (hg : ∀ q, (g q).pagetable = q.pagetable) (hk : (mainOf st').kind = (mainOf st).kind ∨ (mainOf st').Entry) :
    Does i k st ⟨op, k.upd j g, st'⟩ where
  disc := hd
  touch := ⟨j, g, ht, .upd i k j g⟩
  mem x _ := .inl (by
    by_cases hx : x = j
    · rw [hx]
      simp [hg]
    · simp [Kern.upd_ne k g hx])
  kind := hk

theorem wakeInstr_does {F : WakeAt N ⊕ Unit → List (Frame N)} {E : List (Lock N)}
    (hF : EmbedsWake i F E) (hE : ∀ j, .proc j ∉ E) (ch : Option (Chan N)) (w : WakeAt N) :
    Does i k (F (.inl w)) ((wakeInstr (some i) ch k w).map F) := by
  rcases w with rem | ⟨j, rem⟩
  · cases rem with
    | nil =>
      show Does i k _ ⟨.tau, k, F (.inr ())⟩
      exact .still (by simp [hF.need, Disc, wakeNeed])
        (.keep nofun (by simp [hF.mode]) (hF.hands _ _)) (hF.kind _ _)
    | cons j rem =>
      by_cases hj : some i = some j
      · rw [show (wakeInstr (some i) ch k (.acq (j :: rem))) = ⟨.tau, k, .inl (.acq rem)⟩ from
          if_pos hj]
        exact .still (by simp [hF.need, Disc, wakeNeed])
          (.keep nofun (by simp [hF.mode]) (hF.hands _ _)) (hF.kind _ _)
      · rw [show (wakeInstr (some i) ch k (.acq (j :: rem)))
          = ⟨.acq (.proc j), k.upd j (Proc.woken ch), .inl (.rel j rem)⟩ from if_neg hj]
        exact .touch_one (by simp [hF.need, Disc, wakeNeed])
          (.wake ch (fun e => hj (congrArg some e.symm)) (by simp [hF.mode]) (by simp [hF.mode])
            (hF.hands _ _))
          (Proc.woken_pagetable ch) (hF.kind _ _)
  · show Does i k _ ⟨.rel (.proc j), k, F (.inl (.acq rem))⟩
    exact .still (by simp [hF.need, Disc, wakeNeed, hE])
      (.keep nofun (by simp [hF.mode]) (hF.hands _ _)) (hF.kind _ _)

theorem Does.update {st st' : List (Frame N)} {op : Op (Lock N)} {k' : Kern N} {j : Slot N}
    {q : Proc N} {g : Proc N → Proc N} (h : k'.proc = Function.update k.proc j q)
    (hq : (g (k.proc j)).Same q) (hd : Disc (needs i st) op (needs i st')) (ht : Touch i k st op st' j g)
    (hm : j = i ∨ (k.proc j).state = .unused ∨ (k.proc j).state = .zombie ∨ j ∈ makingOf st ∨
      j ∈ reapingOf st) (hk : (mainOf st').kind = (mainOf st).kind ∨ (mainOf st').Entry) : Does i k st ⟨op, k', st'⟩ where
  disc := hd
  touch := ⟨j, g, ht, .update h hq⟩
  mem x hx := by
    by_cases hxj : x = j
    · subst hxj
      exact .inr (hm.resolve_left hx)
    · exact .inl (by
        show (k'.proc x).pagetable = _
        rw [h, Function.update_of_ne hxj])
  kind := hk

theorem kernInstr_does {F : KernAt N ⊕ BitVec 64 → List (Frame N)} {b : Bool} {ch : Choice}
    (hF : EmbedsKern i F) {ks : KernAt N} {o : Out N (KernAt N ⊕ BitVec 64)}
    (e : kernInstr (some i) b k ch ks = some o) : Does i k (F (.inl ks)) (o.map F) := by
  have hrun : ∀ (held held' : List Nat) (op : Op (Lock N)), op ≠ .swtch →
      Disc (kernNeed (some i) (.run held)) op (kernNeed (some i) (.run held')) →
      Does i k (F (.inl (.run held))) ⟨op, k, F (.inl (.run held'))⟩ := by
    intro held held' op hop hd
    exact .still (by simpa [hF.need] using hd)
      (.keep hop (by simp [hF.mode, kernMode]) (hF.hands _ _)) (hF.kind _ _)
  rcases ks with held | ⟨a, lk, s⟩ | ⟨a, held, w⟩
  · cases ch with
    | lock a =>
      dsimp only [kernInstr] at e
      split at e
      · cases e
      · cases e
        exact hrun _ _ _ nofun (by simp [Disc, kernNeed])
    | unlock a =>
      dsimp only [kernInstr] at e
      split at e
      · rename_i ha
        cases e
        refine hrun _ _ _ nofun ⟨List.mem_map_of_mem ha, ?_, ?_⟩
        · exact List.map_subset _ fun _ hx => List.mem_of_mem_filter hx
        · simp [kernNeed]
      · cases e
    | sleep a lk =>
      dsimp only [kernInstr] at e
      split at e
      · rename_i hh
        cases e
        exact .still (by simp [hF.need, Disc, kernNeed, sleepNeed, hh.2])
          (.keep nofun (by simp [hF.mode, kernMode, sleepMode]) (hF.hands _ _)) (hF.kind _ _)
      · cases e
    | wake a =>
      cases e
      exact .still (by simp [hF.need, Disc, kernNeed, wakeNeed])
        (.keep nofun (by simp [hF.mode, kernMode]) (hF.hands _ _)) (hF.kind _ _)
    | work w =>
      dsimp only [kernInstr] at e
      split at e
      · cases e
        obtain ⟨q, h1, h2⟩ := Kern.work_proc k i w
        exact .update h1 h2 (by simp [hF.need, Disc])
          (.keep nofun (by simp [hF.mode, kernMode]) (hF.hands _ _)) (.inl rfl) (hF.kind _ _)
      · cases e
    | leave r =>
      dsimp only [kernInstr] at e
      split at e
      · cases e
        exact .still (by simp [hF.need, Disc])
          (.keep nofun (by simp [hF.mode, kernMode]) (hF.hands _ _)) (hF.kind _ _)
      · cases e
    | _ => cases e
  · cases e
    have hs : EmbedsSleep i (fun x => F (Sum.elim (fun s => .inl (.sleep a lk s))
        (fun _ => .inl (.run [lk])) x)) (.other a) (.other lk) := by
      refine ⟨?_, ?_, ?_, fun _ _ => hF.hands _ _, fun _ _ => hF.kind _ _⟩
      · rintro (s | _) <;> exact hF.need _
      · rintro (s | _) <;> exact hF.mode _
      · rintro (s | _) <;> exact hF.point _
    exact sleepInstr_does hs nofun s
  · cases e
    have hw : EmbedsWake i (fun x => F (Sum.elim (fun w => .inl (.wake a held w))
        (fun _ => .inl (.run held)) x)) (held.map .other) := by
      refine ⟨?_, ?_, ?_, fun _ _ => hF.hands _ _, fun _ _ => hF.kind _ _⟩
      · rintro (s | _) <;> exact hF.need _
      · rintro (s | _) <;> exact hF.mode _
      · rintro (s | _) <;> exact hF.point _
    exact wakeInstr_does hw (by simp) _ w

end

end Xv6
