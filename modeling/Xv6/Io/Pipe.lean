import Xv6.Lib.Run
import Xv6.Lib.RingBuf
import Xv6.Kernel.Defs

/-!
# Pipes

`pipe.c`: any number of processes write to, read from and close one pipe.  A step is what a process
does between two points where another may run: it takes the lock, makes one turn of a loop, goes to
sleep and lets the lock go, or returns.  A byte is copied from or to user memory in the turn that moves
it; the choice of the step says whether that copy succeeds.  The test of `killed` and the sleep that
follows it are one step (`waitTurn`, `writeTurn`): a `kill` in between is not modelled here.

* `Pipes.step`   the steps, with the byte accepted or delivered and the value returned;
* `Pipes.Does`   what the steps do, one constructor per branch of the source;
* `pipe_fifo`   **the bytes delivered, followed by what is in the buffer, are the bytes accepted**.
-/

set_option linter.unusedSectionVars false

namespace Xv6

def PIPESIZE : ℕ := 512

/-- `struct pipe`; its lock is in `Pipes` -/
structure Pipe where
  data : ℕ → Byte
  nread : BitVec 32
  nwrite : BitVec 32
  readopen : Bool
  writeopen : Bool

/-- the sleep channels `&pi->nread` and `&pi->nwrite` -/
inductive PipeChan where
  | nread
  | nwrite
deriving DecidableEq

/-- where a process is; `src i` is the byte at `addr + i` -/
inductive PipePc where
  | idle
  /-- `pipewrite`: before `acquire`, in the loop, in `sleep`, out of `sleep` without the lock -/
  | wAcquire (src : ℕ → Byte) (n : CInt)
  | wLoop (src : ℕ → Byte) (n : CInt) (i : ℕ)
  | wSleep (src : ℕ → Byte) (n : CInt) (i : ℕ)
  | wWoken (src : ℕ → Byte) (n : CInt) (i : ℕ)
  /-- the `wakeup` after the loop -/
  | wEnd (n : CInt) (i : ℕ)
  /-- `piperead`: the first loop waits, the second copies -/
  | rAcquire (n : CInt)
  | rWait (n : CInt)
  | rSleep (n : CInt)
  | rWoken (n : CInt)
  | rLoop (n : CInt) (i : ℕ)
  | rEnd (n : CInt) (i : ℕ)
  /-- `pipeclose` -/
  | cAcquire (writable : Bool)
  | cClose (writable : Bool)

/-- the places at which the lock is held -/
def PipePc.holds : PipePc → Bool
  | .wLoop .. | .wEnd .. | .rWait .. | .rLoop .. | .rEnd .. | .cClose .. => true
  | _ => false

/-- the channel it sleeps on -/
def PipePc.chan : PipePc → Option PipeChan
  | .wSleep .. => some .nwrite
  | .rSleep .. => some .nread
  | _ => none

/-- out of the sleep, if it is in one -/
def PipePc.rouse : PipePc → PipePc
  | .wSleep src n i => .wWoken src n i
  | .rSleep n => .rWoken n
  | pc => pc

/-- a `wakeup` on `c` reaches the process -/
def PipePc.wake (c : PipeChan) (pc : PipePc) : PipePc := if pc.chan = some c then pc.rouse else pc

structure Pipes (P : Type) where
  pi : Pipe
  lock : Option P
  pc : P → PipePc
  killed : P → Bool

/-- what a step shows: bytes moved, a copy that failed, the value of a call -/
inductive PipeEvent (P : Type) where
  | tau
  | accept (b : Byte)
  | deliver (b : Byte)
  | fault (p : P)
  | writeReturns (p : P) (n r : CInt)
  | readReturns (p : P) (n r : CInt)
deriving DecidableEq

/-- a new call, a `kill`, or the next step of the call under way; `copied` says whether `copyin` or
`copyout` succeeds in it -/
inductive PipeChoice (P : Type) where
  | write (src : ℕ → Byte) (n : CInt)
  | read (n : CInt)
  | close (writable : Bool)
  | kill (q : P)
  | go (copied : Bool)

section
variable {P : Type} [DecidableEq P]

namespace Pipe

def Empty (pi : Pipe) : Prop := pi.nread = pi.nwrite

def Full (pi : Pipe) : Prop := pi.nwrite = pi.nread + BitVec.ofNat 32 PIPESIZE

instance (pi : Pipe) : Decidable pi.Empty := inferInstanceAs (Decidable (_ = _))
instance (pi : Pipe) : Decidable pi.Full := inferInstanceAs (Decidable (_ = _))

/-- `pi->data[pi->nwrite++ % PIPESIZE] = ch` -/
def put (pi : Pipe) (ch : Byte) : Pipe :=
  { pi with
    data := Function.update pi.data (pi.nwrite.toNat % PIPESIZE) ch
    nwrite := pi.nwrite + 1#32 }

/-- `pi->data[pi->nread % PIPESIZE]` -/
def next (pi : Pipe) : Byte := pi.data (pi.nread.toNat % PIPESIZE)

/-- `pi->nread++` -/
def drop (pi : Pipe) : Pipe := { pi with nread := pi.nread + 1#32 }

def close (pi : Pipe) (writable : Bool) : Pipe :=
  if writable then { pi with writeopen := false } else { pi with readopen := false }

end Pipe

namespace Pipes

def goto (s : Pipes P) (p : P) (pc : PipePc) : Pipes P :=
  { s with pc := Function.update s.pc p pc }

def wakeup (s : Pipes P) (c : PipeChan) : Pipes P := { s with pc := fun q => (s.pc q).wake c }

/-- `acquire(&pi->lock)`; it spins while another holds the lock -/
def acquire (s : Pipes P) (p : P) (pc : PipePc) : Option (Pipes P × PipeEvent P) :=
  if s.lock = none then some (({ s with lock := some p } : Pipes P).goto p pc, .tau) else none

def release (s : Pipes P) : Pipes P := { s with lock := none }

/-- one turn of the loop of `pipewrite` -/
def writeTurn (s : Pipes P) (p : P) (src : ℕ → Byte) (n : CInt) (i : ℕ) (copied : Bool) :
    Pipes P × PipeEvent P :=
  if (i : ℤ) < n.toInt then
    if s.pi.readopen = false ∨ s.killed p = true then
      (s.release.goto p .idle, .writeReturns p n (-1))
    else if s.pi.Full then
      (((s.wakeup .nread).release).goto p (.wSleep src n i), .tau)
    else if copied then
      (({ s with pi := s.pi.put (src i) } : Pipes P).goto p (.wLoop src n (i + 1)), .accept (src i))
    else (s.goto p (.wEnd n i), .fault p)
  else (s.goto p (.wEnd n i), .tau)

/-- one turn of the first loop of `piperead` -/
def waitTurn (s : Pipes P) (p : P) (n : CInt) : Pipes P × PipeEvent P :=
  if s.pi.Empty ∧ s.pi.writeopen = true then
    if s.killed p = true then (s.release.goto p .idle, .readReturns p n (-1))
    else (s.release.goto p (.rSleep n), .tau)
  else (s.goto p (.rLoop n 0), .tau)

/-- one turn of the second; the byte is taken before it is copied out -/
def readTurn (s : Pipes P) (p : P) (n : CInt) (i : ℕ) (copied : Bool) : Pipes P × PipeEvent P :=
  if (i : ℤ) < n.toInt then
    if s.pi.Empty then (s.goto p (.rEnd n i), .tau)
    else if copied then
      (({ s with pi := s.pi.drop } : Pipes P).goto p (.rLoop n (i + 1)), .deliver s.pi.next)
    else (({ s with pi := s.pi.drop } : Pipes P).goto p (.rEnd n i), .fault p)
  else (s.goto p (.rEnd n i), .tau)

/-- the next step of the call that `p` is in -/
def go (s : Pipes P) (p : P) (copied : Bool) : Option (Pipes P × PipeEvent P) :=
  match s.pc p with
  | .idle => none
  | .wAcquire src n => s.acquire p (.wLoop src n 0)
  | .wLoop src n i => some (s.writeTurn p src n i copied)
  | .wSleep .. => none
  | .wWoken src n i => s.acquire p (.wLoop src n i)
  | .wEnd n i =>
    some (((s.wakeup .nread).release).goto p .idle, .writeReturns p n (BitVec.ofNat 32 i))
  | .rAcquire n => s.acquire p (.rWait n)
  | .rWait n => some (s.waitTurn p n)
  | .rSleep .. => none
  | .rWoken n => s.acquire p (.rWait n)
  | .rLoop n i => some (s.readTurn p n i copied)
  | .rEnd n i =>
    some (((s.wakeup .nwrite).release).goto p .idle, .readReturns p n (BitVec.ofNat 32 i))
  | .cAcquire w => s.acquire p (.cClose w)
  | .cClose w =>
    -- the page goes back to the allocator when both ends are closed; no process has it then
    let s := ({ s with pi := s.pi.close w } : Pipes P)
    some (((s.wakeup (if w then .nread else .nwrite)).release).goto p .idle, .tau)

/-- a step of `p` -/
def step (s : Pipes P) (p : P) (c : PipeChoice P) : Option (Pipes P × PipeEvent P) :=
  match c with
  | .go copied => s.go p copied
  | .kill q =>
    some ({ s with
      killed := Function.update s.killed q true
      pc := Function.update s.pc q (s.pc q).rouse }, .tau)
  | .write src n => if s.pc p matches .idle then some (s.goto p (.wAcquire src n), .tau) else none
  | .read n => if s.pc p matches .idle then some (s.goto p (.rAcquire n), .tau) else none
  | .close w => if s.pc p matches .idle then some (s.goto p (.cAcquire w), .tau) else none

/-- `pipealloc`: both ends are open, the counters are 0, the cells have any bytes -/
structure Init (s : Pipes P) : Prop where
  nread : s.pi.nread = 0
  nwrite : s.pi.nwrite = 0
  readopen : s.pi.readopen = true
  writeopen : s.pi.writeopen = true
  lock : s.lock = none
  idle : ∀ p, s.pc p = .idle

def Next (s : Pipes P) (e : PipeEvent P) (s' : Pipes P) : Prop :=
  ∃ p c, s.step p c = some (s', e)

/-- the runs with their events -/
abbrev Run (σ : ℕ → Pipes P) (ev : ℕ → Option (PipeEvent P)) : Prop := Traces Init Next σ ev

end Pipes

/-! ## What a step does -/

/-- what `piperead` knows at a place: at the start of its second loop the pipe has a byte or no writer,
and it leaves the loop with none read only if there is neither a byte nor a writer -/
def PipePc.Safe (pi : Pipe) : PipePc → Prop
  | .rLoop n i => (i = 0 ∨ (i : ℤ) ≤ n.toInt) ∧ (i = 0 → ¬(pi.Empty ∧ pi.writeopen = true))
  | .rEnd n i => (i = 0 ∨ (i : ℤ) ≤ n.toInt) ∧
      (i = 0 → 0 < n.toInt → pi.Empty ∧ pi.writeopen = false)
  | _ => True

theorem PipePc.holds_rouse (pc : PipePc) : pc.rouse.holds = pc.holds := by
  cases pc <;> rfl

theorem PipePc.safe_of_not_holds {pc : PipePc} (h : pc.holds = false) (pi : Pipe) : pc.Safe pi := by
  cases pc <;> trivial

theorem PipePc.safe_rouse {pc : PipePc} {pi : Pipe} (h : pc.Safe pi) : pc.rouse.Safe pi := by
  cases pc <;> exact h

theorem PipePc.wake_eq (c : PipeChan) (pc : PipePc) : pc.wake c = pc ∨ pc.wake c = pc.rouse := by
  unfold wake
  split
  · exact .inr rfl
  · exact .inl rfl

namespace Pipes
variable {s s' : Pipes P} {p q : P} {e : PipeEvent P} {l : List (PipeEvent P)}

/-- what a step of `p` at `a` does to the pipe and the lock, and where `p` is then -/
inductive Does (s : Pipes P) (p : P) (a : PipePc) :
    PipeEvent P → Pipe → Option P → PipePc → Prop where
  | move {b : PipePc} (hb : b.holds = a.holds) (hs : a.Safe s.pi → b.Safe s.pi) :
      Does s p a .tau s.pi s.lock b
  | take {b : PipePc} (hl : s.lock = none) (hs : b.Safe s.pi) : Does s p a .tau s.pi (some p) b
  | leave {b : PipePc} (ha : a.holds = true) (hb : b.holds = false) : Does s p a .tau s.pi none b
  | wrote {n r : CInt} (ha : a.holds = true) : Does s p a (.writeReturns p n r) s.pi none .idle
  | gaveUp {n : CInt} (ha : a.holds = true) : Does s p a (.readReturns p n (-1)) s.pi none .idle
  | read {n : CInt} {i : ℕ} (ha : a = .rEnd n i) :
      Does s p a (.readReturns p n (BitVec.ofNat 32 i)) s.pi none .idle
  | put {b : PipePc} {ch : Byte} (ha : a.holds = true) (hf : ¬s.pi.Full) (hb : b.holds = true)
      (hs : b.Safe (s.pi.put ch)) : Does s p a (.accept ch) (s.pi.put ch) s.lock b
  | drop {b : PipePc} (ha : a.holds = true) (hf : ¬s.pi.Empty) (hb : b.holds = true)
      (hs : b.Safe s.pi.drop) : Does s p a (.deliver s.pi.next) s.pi.drop s.lock b
  | close {w : Bool} (ha : a.holds = true) : Does s p a .tau (s.pi.close w) none .idle
  | fault {pi : Pipe} {lk : Option P} {b : PipePc} : Does s p a (.fault p) pi lk b

theorem goto_self (s : Pipes P) (p : P) (pc : PipePc) : (s.goto p pc).pc p = pc :=
  Function.update_self ..

theorem goto_ne (s : Pipes P) (pc : PipePc) (h : q ≠ p) : (s.goto p pc).pc q = s.pc q :=
  Function.update_of_ne h ..

/-- the others stay, or are woken -/
def Others (s s' : Pipes P) (p : P) : Prop :=
  ∀ q, q ≠ p → s'.pc q = s.pc q ∨ s'.pc q = (s.pc q).rouse

theorem others_goto (s : Pipes P) (p : P) (pc : PipePc) : Others s (s.goto p pc) p :=
  fun _ h => .inl (goto_ne s pc h)

theorem others_wakeup (s : Pipes P) (c : PipeChan) (p : P) (pc : PipePc) :
    Others s (((s.wakeup c).release).goto p pc) p := by
  intro q h
  rw [goto_ne _ _ h]
  exact PipePc.wake_eq c (s.pc q)

/-- the step of a call: `Does` for the caller, and `Others` -/
def Acts (s : Pipes P) (p : P) (a : PipePc) (r : Pipes P × PipeEvent P) : Prop :=
  Does s p a r.2 r.1.pi r.1.lock (r.1.pc p) ∧ Others s r.1 p

theorem acts_acquire {a b : PipePc} {r : Pipes P × PipeEvent P} (h : s.acquire p b = some r)
    (hb : b.Safe s.pi) : Acts s p a r := by
  unfold acquire at h
  split at h
  · rename_i hl
    cases h
    refine ⟨?_, others_goto _ p b⟩
    rw [goto_self]
    exact .take hl hb
  · cases h

theorem acts_writeTurn (src : ℕ → Byte) (n : CInt) (i : ℕ) (copied : Bool) :
    Acts s p (.wLoop src n i) (s.writeTurn p src n i copied) := by
  unfold writeTurn
  split
  · split
    · refine ⟨?_, others_goto _ _ _⟩
      rw [goto_self]
      exact .wrote rfl
    · split
      · refine ⟨?_, others_wakeup _ _ _ _⟩
        rw [goto_self]
        exact .leave rfl rfl
      · rename_i hf
        split <;> refine ⟨?_, others_goto _ _ _⟩ <;> rw [goto_self]
        · exact .put rfl hf rfl trivial
        · exact .fault
  · refine ⟨?_, others_goto _ _ _⟩
    rw [goto_self]
    exact .move rfl fun _ => trivial

theorem acts_waitTurn (n : CInt) : Acts s p (.rWait n) (s.waitTurn p n) := by
  unfold waitTurn
  split
  · split <;> refine ⟨?_, others_goto _ _ _⟩ <;> rw [goto_self]
    · exact .gaveUp rfl
    · exact .leave rfl rfl
  · rename_i h
    refine ⟨?_, others_goto _ _ _⟩
    rw [goto_self]
    exact .move rfl fun _ => ⟨.inl rfl, fun _ => h⟩

theorem acts_readTurn (n : CInt) (i : ℕ) (copied : Bool) :
    Acts s p (.rLoop n i) (s.readTurn p n i copied) := by
  unfold readTurn
  split
  · rename_i hi
    split
    · rename_i he
      refine ⟨?_, others_goto _ _ _⟩
      rw [goto_self]
      refine .move rfl fun h => ⟨h.1, fun h0 _ => ⟨he, ?_⟩⟩
      exact Bool.eq_false_iff.2 fun hw => h.2 h0 ⟨he, hw⟩
    · rename_i he
      split <;> refine ⟨?_, others_goto _ _ _⟩ <;> rw [goto_self]
      · exact .drop rfl he rfl ⟨.inr (by omega), fun h => by omega⟩
      · exact .fault
  · rename_i hi
    refine ⟨?_, others_goto _ _ _⟩
    rw [goto_self]
    exact .move rfl fun h => ⟨h.1, fun h0 hn => absurd hn (by omega)⟩

theorem acts_go {copied : Bool} {r : Pipes P × PipeEvent P} (h : s.go p copied = some r) :
    Acts s p (s.pc p) r := by
  unfold go at h
  split at h
  case h_1 | h_4 | h_9 => cases h
  case h_2 | h_5 | h_7 | h_10 | h_13 => exact acts_acquire h trivial
  case h_3 src n i hp =>
    cases h
    rw [hp]
    exact acts_writeTurn src n i copied
  case h_6 n i hp =>
    cases h
    refine ⟨?_, others_wakeup _ _ _ _⟩
    rw [goto_self, hp]
    exact .wrote rfl
  case h_8 n hp =>
    cases h
    rw [hp]
    exact acts_waitTurn n
  case h_11 n i hp =>
    cases h
    rw [hp]
    exact acts_readTurn n i copied
  case h_12 n i hp =>
    cases h
    refine ⟨?_, others_wakeup _ _ _ _⟩
    rw [goto_self, hp]
    exact .read rfl
  case h_14 w hp =>
    cases h
    refine ⟨?_, others_wakeup { s with pi := s.pi.close w } _ _ _⟩
    rw [goto_self, hp]
    exact .close rfl

theorem acts_enter {pc : PipePc} {r : Pipes P × PipeEvent P} (hpc : pc.holds = false)
    (h : (if s.pc p matches .idle then some (s.goto p pc, PipeEvent.tau) else none) = some r) :
    Acts s p (s.pc p) r := by
  split at h
  · rename_i hi
    cases h
    refine ⟨?_, others_goto _ _ _⟩
    rw [goto_self]
    refine .move ?_ fun _ => PipePc.safe_of_not_holds hpc _
    rw [hpc]
    revert hi
    cases s.pc p <;> simp [PipePc.holds]
  · cases h

theorem acts_of_next (h : s.Next e s') : ∃ p, Acts s p (s.pc p) (s', e) := by
  obtain ⟨p, c, h⟩ := h
  cases c with
  | go copied => exact ⟨p, acts_go h⟩
  | write src n => exact ⟨p, acts_enter rfl h⟩
  | read n => exact ⟨p, acts_enter rfl h⟩
  | close w => exact ⟨p, acts_enter rfl h⟩
  | kill q =>
    cases h
    refine ⟨q, ?_, fun r hr => .inl (Function.update_of_ne hr ..)⟩
    show Does s q _ _ _ _ (Function.update s.pc q _ q)
    rw [Function.update_self]
    exact .move (PipePc.holds_rouse _) PipePc.safe_rouse

end Pipes

/-! ## The pipe as a ring -/

/-- the bytes accepted, in order -/
def acceptedBytes (l : List (PipeEvent P)) : List Byte :=
  l.filterMap fun e => match e with
    | .accept b => some b
    | _ => none

/-- the bytes delivered, in order -/
def deliveredBytes (l : List (PipeEvent P)) : List Byte :=
  l.filterMap fun e => match e with
    | .deliver b => some b
    | _ => none

namespace Pipe

def ring (pi : Pipe) : RingBuf Byte 32 := ⟨pi.data, pi.nread, pi.nwrite⟩

/-- the bytes between `nread` and `nwrite` -/
def contents (pi : Pipe) : List Byte := pi.ring.contents PIPESIZE

theorem ring_close (pi : Pipe) (w : Bool) : (pi.close w).ring = pi.ring := by
  cases w <;> rfl

theorem count_lt {pi : Pipe} (h : pi.ring.count ≤ PIPESIZE) (hf : ¬pi.Full) :
    pi.ring.count < PIPESIZE := by
  refine Nat.lt_of_le_of_ne h fun e => hf ?_
  exact (RingBuf.count_eq_iff pi.ring (by decide)).1 e

theorem dvd_pipesize : PIPESIZE ∣ 2 ^ 32 := by decide

theorem contents_put {pi : Pipe} (ch : Byte) (h : pi.ring.count < PIPESIZE) :
    (pi.put ch).contents = pi.contents ++ [ch] :=
  RingBuf.contents_push pi.ring dvd_pipesize (by decide) ch h

theorem contents_drop {pi : Pipe} (h : ¬pi.Empty) : pi.contents = pi.next :: pi.drop.contents :=
  RingBuf.contents_pop pi.ring dvd_pipesize h

theorem count_put {pi : Pipe} (ch : Byte) (h : pi.ring.count < PIPESIZE) :
    (pi.put ch).ring.count = pi.ring.count + 1 :=
  RingBuf.count_push PIPESIZE pi.ring ch (by unfold PIPESIZE at h; omega)

theorem count_drop {pi : Pipe} (h : ¬pi.Empty) : pi.drop.ring.count < pi.ring.count := by
  have := RingBuf.count_pop pi.ring h
  show pi.ring.pop.count < _
  omega

end Pipe

/-! ## Runs -/

namespace Pipes
variable {s s' : Pipes P} {p q : P} {e : PipeEvent P} {l : List (PipeEvent P)}

/-- the lock is with the process that is where it is held; the ring is within its bounds and has
what is accepted and not delivered -/
structure Inv (s : Pipes P) (l : List (PipeEvent P)) : Prop where
  lock : ∀ p, (s.pc p).holds = true → s.lock = some p
  safe : ∀ p, (s.pc p).Safe s.pi
  count : s.pi.ring.count ≤ PIPESIZE
  fifo : acceptedBytes l = deliveredBytes l ++ s.pi.contents

theorem Init.inv (h : s.Init) : s.Inv [] := by
  refine ⟨fun p hp => ?_, fun p => ?_, ?_, ?_⟩
  · rw [h.idle p] at hp
    cases hp
  · rw [h.idle p]
    trivial
  · show (s.pi.nwrite - s.pi.nread).toNat ≤ _
    rw [h.nread, h.nwrite]
    decide
  · have e : s.pi.contents = [] := (RingBuf.contents_eq_nil _ _).2 (h.nread.trans h.nwrite.symm)
    rw [e]
    rfl

/-- the lock after a step: the process that holds it keeps it or lets it go, or it is taken when free -/
theorem Inv.lock_step (hi : s.Inv l) (h : Acts s p (s.pc p) (s', e)) (hn : e ≠ .fault p) (q : P)
    (hq : (s'.pc q).holds = true) : s'.lock = some q := by
  obtain ⟨hd, ho⟩ := h
  -- another process that holds it held it before, so that `p` neither had nor took it
  have other : q ≠ p → s.lock = some q := by
    intro hqp
    refine hi.lock q ?_
    rcases ho q hqp with e | e
    · rwa [e] at hq
    · rwa [e, PipePc.holds_rouse] at hq
  have key : (s.pc p).holds = true → q ≠ p → False := by
    intro hp hqp
    have := hi.lock p hp
    rw [other hqp] at this
    exact hqp (Option.some.inj this)
  dsimp only at hd
  generalize s'.pi = pi, s'.lock = lk at hd
  by_cases hqp : q = p
  · subst hqp
    generalize s'.pc q = b at hd hq
    cases hd with
    | move hb _ => exact hi.lock q (hb ▸ hq)
    | take => rfl
    | leave _ hb => rw [hb] at hq; cases hq
    | put ha => exact hi.lock q ha
    | drop ha => exact hi.lock q ha
    | fault => exact absurd rfl hn
    | wrote | gaveUp | read | close => cases hq
  · generalize s'.pc p = b at hd
    generalize s.pc p = a at hd key
    cases hd with
    | move => exact other hqp
    | take hl => rw [hl] at other; cases other hqp
    | read ha => exact (key (by rw [ha]; rfl) hqp).elim
    | fault => exact absurd rfl hn
    | leave ha | wrote ha | gaveUp ha | put ha | drop ha | close ha => exact (key ha hqp).elim

theorem Does.pi_eq {a b : PipePc} {pi : Pipe} {lk : Option P} (h : Does s p a e pi lk b)
    (hn : e ≠ .fault p) (ha : a.holds = false) : pi = s.pi := by
  cases h with
  | move | take | leave | wrote | gaveUp | read => rfl
  | put h | drop h | close h => rw [h] at ha; cases ha
  | fault => exact absurd rfl hn

theorem Does.safe {a b : PipePc} {pi : Pipe} {lk : Option P} (h : Does s p a e pi lk b)
    (hn : e ≠ .fault p) (ha : a.Safe s.pi) : b.Safe pi := by
  cases h with
  | move _ hs => exact hs ha
  | take _ hs | put _ _ _ hs | drop _ _ _ hs => exact hs
  | leave _ hb => exact PipePc.safe_of_not_holds hb _
  | wrote | gaveUp | read | close => trivial
  | fault => exact absurd rfl hn

theorem Inv.safe_step (hi : s.Inv l) (h : Acts s p (s.pc p) (s', e)) (hn : e ≠ .fault p) (q : P) :
    (s'.pc q).Safe s'.pi := by
  obtain ⟨hd, ho⟩ := h
  by_cases hqp : q = p
  · subst hqp
    exact hd.safe hn (hi.safe q)
  · have hs : (s'.pc q).Safe s.pi := by
      rcases ho q hqp with e | e <;> rw [e]
      · exact hi.safe q
      · exact PipePc.safe_rouse (hi.safe q)
    cases hp : (s.pc p).holds with
    | false =>
      rw [hd.pi_eq hn hp]
      exact hs
    | true =>
      refine PipePc.safe_of_not_holds (Bool.eq_false_iff.2 fun hq => hqp ?_) _
      have hq' : (s.pc q).holds = true := by
        rcases ho q hqp with e | e
        · rwa [e] at hq
        · rwa [e, PipePc.holds_rouse] at hq
      exact Option.some.inj ((hi.lock q hq').symm.trans (hi.lock p hp))

/-- the ring after a step has one byte more, one less or the same -/
theorem Does.ring {a b : PipePc} {pi : Pipe} {lk : Option P} (h : Does s p a e pi lk b)
    (hn : e ≠ .fault p) (hc : s.pi.ring.count ≤ PIPESIZE)
    (hf : acceptedBytes l = deliveredBytes l ++ s.pi.contents) :
    pi.ring.count ≤ PIPESIZE ∧ acceptedBytes (l ++ [e]) = deliveredBytes (l ++ [e]) ++ pi.contents := by
  unfold acceptedBytes deliveredBytes at hf ⊢
  simp only [List.filterMap_append]
  cases h with
  | move | take | leave | wrote | gaveUp | read => exact ⟨hc, by simpa using hf⟩
  | put _ hfull =>
    have hlt := Pipe.count_lt hc hfull
    refine ⟨by rw [Pipe.count_put _ hlt]; omega, ?_⟩
    rw [Pipe.contents_put _ hlt, hf]
    simp
  | drop _ he =>
    refine ⟨by have := Pipe.count_drop he; omega, ?_⟩
    rw [hf, Pipe.contents_drop he]
    simp
  | close =>
    unfold Pipe.contents at hf ⊢
    rw [Pipe.ring_close]
    exact ⟨hc, by simpa using hf⟩
  | fault => exact absurd rfl hn

theorem Inv.step (hi : s.Inv l) (h : s.Next e s') (hn : ∀ p, e ≠ .fault p) : s'.Inv (l ++ [e]) := by
  obtain ⟨p, ha⟩ := acts_of_next h
  have hr := ha.1.ring (hn p) hi.count hi.fifo
  exact ⟨hi.lock_step ha (hn p), hi.safe_step ha (hn p), hr.1, hr.2⟩

theorem Run.inv {σ : ℕ → Pipes P} {ev : ℕ → Option (PipeEvent P)} (h : Run σ ev)
    (hn : ∀ t p, ev t ≠ some (.fault p)) (t : ℕ) : (σ t).Inv (Traces.history ev t) := by
  have key := Traces.invariant (P := fun s l => (∀ p, PipeEvent.fault p ∉ l) → s.Inv l) h
    (fun s hs _ => hs.inv) (fun s e s' l ih hs hf =>
      (ih fun p hp => hf p (List.mem_append_left _ hp)).step hs fun p hp =>
        hf p (List.mem_append_right _ (hp ▸ List.mem_singleton_self e))) t
  refine key fun p hp => ?_
  obtain ⟨u, _, hu⟩ := Traces.mem_history.1 hp
  exact hn u p hu

theorem read_zero {σ : ℕ → Pipes P} {ev : ℕ → Option (PipeEvent P)} (h : Run σ ev)
    (hn : ∀ t p, ev t ≠ some (.fault p)) {t : ℕ} {n : CInt}
    (he : ev t = some (.readReturns p n 0)) (h0 : 0 < n.toInt) :
    (σ t).pi.Empty ∧ (σ t).pi.writeopen = false := by
  have hi := Run.inv h hn t
  obtain ⟨q, hd, -⟩ := acts_of_next (h.step_of_label he)
  have hs := hi.safe q
  dsimp only at hd
  generalize (σ (t + 1)).pi = pi, (σ (t + 1)).lock = lk, (σ (t + 1)).pc q = b,
    hr : (0 : CInt) = r at hd
  cases hd with
  | gaveUp => cases hr
  | read ha =>
    rename_i i
    rw [ha] at hs
    have hi : i = 0 := by
      rcases hs.1 with h | h
      · exact h
      · have hlt := n.toInt_lt
        have := congrArg BitVec.toNat hr
        simp at this
        omega
    exact hs.2 hi h0

end Pipes

/-- **a pipe is a bounded queue**: the counters differ by at most `PIPESIZE`, what has been accepted is
what has been delivered followed by what the buffer has, and a read of some bytes that returns none
finds the pipe empty and its write end closed -/
theorem pipe_fifo {σ : ℕ → Pipes P} {ev : ℕ → Option (PipeEvent P)} (h : Pipes.Run σ ev)
    (mapped : ∀ t p, ev t ≠ some (.fault p)) (t : ℕ) :
    ((σ t).pi.nwrite - (σ t).pi.nread).toNat ≤ PIPESIZE ∧
    acceptedBytes (Traces.history ev t) = deliveredBytes (Traces.history ev t) ++ (σ t).pi.contents ∧
    ∀ p n, ev t = some (.readReturns p n 0) → 0 < n.toInt →
      (σ t).pi.nread = (σ t).pi.nwrite ∧ (σ t).pi.writeopen = false := by
  have hi := Pipes.Run.inv h mapped t
  exact ⟨hi.count, hi.fifo, fun p n he h0 => Pipes.read_zero h mapped he h0⟩

/-- two processes and a new pipe -/
def samplePipe : Pipes (Fin 2) where
  pi := ⟨fun _ => 5, 0, 0, true, true⟩
  lock := none
  pc := fun _ => .idle
  killed := fun _ => false

/-- process 0 writes two bytes and closes the write end; process 1 reads one byte, the other, and none -/
def samplePipeActs : List (Fin 2 × PipeChoice (Fin 2)) :=
  [(0, .write (fun i => BitVec.ofNat 8 (7 + i)) 2), (1, .read 1), (0, .go true), (1, .go true),
   (0, .go true), (0, .go true), (0, .go true), (0, .go true),
   (1, .go true), (1, .go true), (1, .go true), (1, .go true), (1, .go true),
   (0, .close true), (0, .go true), (0, .go true),
   (1, .read 4), (1, .go true), (1, .go true), (1, .go true), (1, .go true), (1, .go true),
   (1, .read 4), (1, .go true), (1, .go true), (1, .go true), (1, .go true)]

def samplePipeStep (t : ℕ) (s : Pipes (Fin 2)) : Option (Pipes (Fin 2) × PipeEvent (Fin 2)) :=
  samplePipeActs[t]?.bind fun a => s.step a.1 a.2

theorem samplePipe_run :
    Pipes.Run (Traces.drive samplePipeStep samplePipe) (Traces.labels samplePipeStep samplePipe) := by
  refine Traces.of_drive ⟨rfl, rfl, rfl, rfl, rfl, fun _ => rfl⟩ fun t s s' e h => ?_
  obtain ⟨a, _, ha⟩ := Option.bind_eq_some_iff.1 h
  exact ⟨a.1, a.2, ha⟩

theorem samplePipe_mapped (t : ℕ) (p : Fin 2) :
    Traces.labels samplePipeStep samplePipe t ≠ some (.fault p) := by
  have key : ∀ u < 27, ∀ q, Traces.labels samplePipeStep samplePipe u ≠ some (.fault q) := by
    decide +kernel
  intro h
  by_cases ht : t < 27
  · exact key t ht p h
  · have hnone : samplePipeActs[t]? = none := List.getElem?_eq_none (by simpa [samplePipeActs] using ht)
    unfold Traces.labels samplePipeStep at h
    rw [hnone] at h
    cases h

theorem pipe_fifo_sample : ∃ (σ : ℕ → Pipes (Fin 2)) (ev : ℕ → Option (PipeEvent (Fin 2))),
    Pipes.Run σ ev ∧ ev 26 = some (.readReturns 1 4 0) ∧
    acceptedBytes (Traces.history ev 26) = [7, 8] ∧ deliveredBytes (Traces.history ev 26) = [7, 8] ∧
    (σ 26).pi.nread = (σ 26).pi.nwrite ∧ (σ 26).pi.writeopen = false := by
  have hev : Traces.labels samplePipeStep samplePipe 26 = some (.readReturns 1 4 0) := by
    decide +kernel
  have h := pipe_fifo samplePipe_run samplePipe_mapped 26
  exact ⟨_, _, samplePipe_run, hev, by decide +kernel, by decide +kernel, h.2.2 1 4 hev (by decide)⟩

end
end Xv6
