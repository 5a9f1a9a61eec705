import Xv6.Fs.Recover
import Xv6.Lib.Run

/-!
# Processes over the buffer cache and the log: `bio.c`, `log.c`

Any number of processes work on the buffer cache and the log; one step is a critical section of
`bcache.lock`, a lock operation or the code between two of them.

* `Bcache`, `bget`, `drop`   the buffers, and what `bget` and `brelse` do under `bcache.lock`;
* `Log`   `struct log`; `logWriteBody` is the body of `log_write`;
* `FsPc`, `BufCall`   where a process is: in `begin_op`, `log_write`, `end_op`, `commit`, and in a
  call of `bread` or `brelse` made from there;
* `Fs.step`   one step of a process, with what it means to the clients (`FsEvent`);
* `Fs.Run`   the runs.

A client may hold any buffers and do anything to them; the rules it keeps are those of `FsChoice`:
it calls `log_write` in an operation, and releases no buffer that it has changed and not logged.
-/

set_option linter.unusedSectionVars false

namespace Xv6

/-! ## the buffer cache -/

/-- `struct buf`; `lock` is the process that has the sleep lock -/
structure Buf (P : Type) where
  valid : Bool
  dev : Nat
  blockno : Nat
  lock : Option P
  refcnt : Nat
  data : Block

/-- `bcache`: the buffers, and the list through `next` from `head.next` on, most recently used first -/
structure Bcache (P : Type) (K : ℕ) where
  buf : Fin K → Buf P
  lru : List (Fin K)

section
variable {P : Type} {K : ℕ}

def Bcache.upd (c : Bcache P K) (i : Fin K) (f : Buf P → Buf P) : Bcache P K :=
  { c with buf := Function.update c.buf i (f (c.buf i)) }

/-- `bget` up to the `release` of `bcache.lock`; none if there are no buffers -/
def Bcache.bget (c : Bcache P K) (dev blockno : Nat) : Option (Fin K × Bcache P K) :=
  match c.lru.find? fun i => (c.buf i).dev = dev ∧ (c.buf i).blockno = blockno with
  | some i => some (i, c.upd i fun b => { b with refcnt := b.refcnt + 1 })
  | none =>
    match c.lru.reverse.find? fun i => (c.buf i).refcnt = 0 with
    | some i => some (i, c.upd i fun b =>
        { b with dev := dev, blockno := blockno, valid := false, refcnt := 1 })
    | none => none

/-- `brelse` from the `acquire` of `bcache.lock` on -/
def Bcache.drop (c : Bcache P K) (i : Fin K) : Bcache P K :=
  let c' := c.upd i fun b => { b with refcnt := b.refcnt - 1 }
  if (c'.buf i).refcnt = 0 then { c' with lru := i :: c'.lru.erase i } else c'

/-- `bpin` -/
def Bcache.pin (c : Bcache P K) (i : Fin K) : Bcache P K :=
  c.upd i fun b => { b with refcnt := b.refcnt + 1 }

/-- `bunpin` -/
def Bcache.unpin (c : Bcache P K) (i : Fin K) : Bcache P K :=
  c.upd i fun b => { b with refcnt := b.refcnt - 1 }

end

/-! ## the log -/

/-- `struct log`; `lock` is the process that has the spin lock -/
structure Log (P : Type) where
  lock : Option P
  outstanding : Int
  committing : Bool
  lh : LogHeader

/-- the first `i < log.lh.n` with `log.lh.block[i] == b`, else `log.lh.n` -/
def LogHeader.find (lh : LogHeader) (b : Nat) : Nat := lh.blocks.idxOf b

/-- the loop and the assignments of `log_write` -/
def LogHeader.add (lh : LogHeader) (b : Nat) : LogHeader :=
  let i := lh.find b
  ⟨if i = lh.n then lh.n + 1 else lh.n, Function.update lh.block i b⟩

/-! ## processes -/

/-- a round of `write_log` or of `install_trans` (only the second has `unpin`) -/
inductive CopyAt where
  | first | second | move | write | unpin | rel1 | rel2
  deriving DecidableEq

/-- in `write_head` -/
inductive HeadAt where
  | get | fill | write | rel
  deriving DecidableEq

/-- where a process is -/
inductive FsPc (K : ℕ) where
  /-- outside the routines of `log.c` -/
  | user
  | beginAcq | beginTest | beginSleep | beginRel
  | writeAcq (i : Fin K) | writeBody (i : Fin K) | writeRel
  | endAcq | endBody | endRel (doCommit : Bool)
  /-- `commit` -/
  | commitTest
  | writeLog (tail : Nat) (s : CopyAt)
  | writeHead (last : Bool) (s : HeadAt)
  | install (tail : Nat) (s : CopyAt)
  | clear
  /-- the end of `end_op` -/
  | doneAcq | doneBody | doneRel

/-- a call of `bread` or `brelse` -/
inductive BufCall (K : ℕ) where
  | none
  /-- `bget`: the lookup -/
  | get (b : Nat)
  /-- `acquiresleep`, and the read from disk if the buffer is not valid -/
  | lock (i : Fin K)
  /-- `brelse`: `releasesleep` -/
  | unlock (i : Fin K)
  | drop (i : Fin K)

/-- a process: its place, the call it is in, the buffers it has locked (last first), those of them it has
changed since it logged them, and in an operation the blocks it has logged -/
structure Thread (K : ℕ) where
  pc : FsPc K
  call : BufCall K
  held : List (Fin K)
  dirty : Finset (Fin K)
  op : Option (Finset Nat)

structure Fs (P : Type) (K : ℕ) where
  cache : Bcache P K
  log : Log P
  disk : Disk
  thread : P → Thread K

/-- what a client does next -/
inductive FsChoice (K : ℕ) where
  | go
  | beginOp
  | endOp
  | bread (b : Nat)
  | brelse (i : Fin K)
  | modify (i : Fin K) (x : Block)
  | logWrite (i : Fin K)

/-- what a client sees -/
inductive FsEvent where
  | tau
  /-- `bread` of the block returns these contents -/
  | read (b : Nat) (x : Block)
  /-- the block is logged with these contents -/
  | log (b : Nat) (x : Block)

/-- the return of a `bread` that was called at `pc` -/
def FsPc.readEvent {K : ℕ} (pc : FsPc K) (b : Nat) (x : Block) : FsEvent :=
  match pc with
  | .user => .read b x
  | _ => .tau

theorem FsPc.readEvent_cases {K : ℕ} (pc : FsPc K) (b : Nat) (x : Block) :
    pc.readEvent b x = .tau ∨ pc = .user ∧ pc.readEvent b x = .read b x := by
  cases pc with
  | user => exact .inr ⟨rfl, rfl⟩
  | _ => exact .inl rfl

inductive Outcome (α : Type) where
  | next (a : α)
  | blocked
  | panic (msg : String)

section
variable {P : Type} [DecidableEq P] {K : ℕ}

def Fs.setThread (s : Fs P K) (p : P) (th : Thread K) : Fs P K :=
  { s with thread := Function.update s.thread p th }

def Fs.withLog (s : Fs P K) (l : Log P) : Fs P K := { s with log := l }

def Fs.withCache (s : Fs P K) (c : Bcache P K) : Fs P K := { s with cache := c }

/-- the contents of a buffer are changed -/
def Fs.setData (s : Fs P K) (i : Fin K) (x : Block) : Fs P K :=
  s.withCache (s.cache.upd i fun b => { b with data := x })

/-- `bwrite` -/
def Fs.bwrite (s : Fs P K) (i : Fin K) : Fs P K :=
  { s with disk := Function.update s.disk (s.cache.buf i).blockno (s.cache.buf i).data }

section
variable (s : Fs P K) (p : P) (th : Thread K)

@[simp] theorem Fs.setThread_self : (s.setThread p th).thread p = th := Function.update_self ..
@[simp] theorem Fs.setThread_ne {q : P} (h : q ≠ p) : (s.setThread p th).thread q = s.thread q :=
  Function.update_of_ne h ..
@[simp] theorem Fs.setThread_log : (s.setThread p th).log = s.log := rfl
@[simp] theorem Fs.setThread_cache : (s.setThread p th).cache = s.cache := rfl
@[simp] theorem Fs.setThread_disk : (s.setThread p th).disk = s.disk := rfl
@[simp] theorem Fs.withLog_log (l : Log P) : (s.withLog l).log = l := rfl
@[simp] theorem Fs.withLog_cache (l : Log P) : (s.withLog l).cache = s.cache := rfl
@[simp] theorem Fs.withLog_disk (l : Log P) : (s.withLog l).disk = s.disk := rfl
@[simp] theorem Fs.withLog_thread (l : Log P) : (s.withLog l).thread = s.thread := rfl
@[simp] theorem Fs.withCache_log (c : Bcache P K) : (s.withCache c).log = s.log := rfl
@[simp] theorem Fs.withCache_cache (c : Bcache P K) : (s.withCache c).cache = c := rfl
@[simp] theorem Fs.withCache_disk (c : Bcache P K) : (s.withCache c).disk = s.disk := rfl
@[simp] theorem Fs.withCache_thread (c : Bcache P K) : (s.withCache c).thread = s.thread := rfl

end

/-- a step in `bread` or `brelse` -/
def callStep (p : P) (s : Fs P K) : Outcome (Fs P K × FsEvent) :=
  let th := s.thread p
  match th.call with
  | .none => .blocked
  | .get b =>
    match s.cache.bget ROOTDEV b with
    | some (i, c) => .next ((s.withCache c).setThread p { th with call := .lock i }, .tau)
    | none => .panic "bget: no buffers"
  | .lock i =>
    let b := s.cache.buf i
    if b.lock = none then
      -- acquiresleep(&b->lock); if(!b->valid){ virtio_disk_rw(b, 0); b->valid = 1; }
      let x := if b.valid then b.data else s.disk b.blockno
      .next ((s.withCache (s.cache.upd i fun b => { b with lock := some p, valid := true, data := x })).setThread
        p { th with call := .none, held := i :: th.held }, th.pc.readEvent b.blockno x)
    else .blocked
  | .unlock i =>
    .next ((s.withCache (s.cache.upd i fun b => { b with lock := none })).setThread p
      { th with call := .drop i, held := th.held.erase i }, .tau)
  | .drop i => .next ((s.withCache (s.cache.drop i)).setThread p { th with call := .none }, .tau)

/-- `acquire(&log.lock)` -/
def lockLog (p : P) (s : Fs P K) (next : FsPc K) : Outcome (Fs P K × FsEvent) :=
  if s.log.lock = none then
    .next ((s.withLog { s.log with lock := some p }).setThread p
      { s.thread p with pc := next }, .tau)
  else .blocked

/-- `release(&log.lock)`, also the one in `sleep` -/
def unlockLog (p : P) (s : Fs P K) (next : FsPc K) : Outcome (Fs P K × FsEvent) :=
  .next ((s.withLog { s.log with lock := none }).setThread p { s.thread p with pc := next }, .tau)

/-- go on at `pc` -/
def goTo (p : P) (s : Fs P K) (pc : FsPc K) : Outcome (Fs P K × FsEvent) :=
  .next (s.setThread p { s.thread p with pc := pc }, .tau)

/-- call `bread` or `brelse` and go on at `pc` -/
def callBuf (p : P) (s : Fs P K) (c : BufCall K) (pc : FsPc K) : Outcome (Fs P K × FsEvent) :=
  .next (s.setThread p { s.thread p with pc := pc, call := c }, .tau)

/-- what a client does outside the log's routines -/
def userStep (sb : Superblock) (p : P) (c : FsChoice K) (s : Fs P K) :
    Outcome (Fs P K × FsEvent) :=
  let th := s.thread p
  match c with
  | .go => .blocked
  | .beginOp =>
    if th.op = none then .next (s.setThread p { th with pc := .beginAcq }, .tau) else .blocked
  | .endOp =>
    if th.op = none then .blocked else .next (s.setThread p { th with pc := .endAcq }, .tau)
  | .bread b =>
    if sb.Home b then .next (s.setThread p { th with call := .get b }, .tau) else .blocked
  | .brelse i =>
    if i ∈ th.held ∧ i ∉ th.dirty then
      .next (s.setThread p { th with call := .unlock i }, .tau)
    else .blocked
  | .modify i x =>
    if i ∈ th.held then
      .next ((s.setData i x).setThread p { th with dirty := insert i th.dirty }, .tau)
    else .blocked
  | .logWrite i =>
    if i ∈ th.held ∧ th.op ≠ none then
      .next (s.setThread p { th with pc := .writeAcq i }, .tau)
    else .blocked

/-- `log_write(b)` with `log.lock` held -/
def logWriteBody (sb : Superblock) (p : P) (i : Fin K) (s : Fs P K) : Outcome (Fs P K × FsEvent) :=
  let lh := s.log.lh
  let b := s.cache.buf i
  if LOGSIZE ≤ lh.n ∨ (sb.nlog : Int) - 1 ≤ lh.n then .panic "too big a transaction"
  else if s.log.outstanding < 1 then .panic "log_write outside of trans"
  else
    let c := if lh.find b.blockno = lh.n then s.cache.pin i else s.cache
    let th := s.thread p
    .next (((s.withCache c).withLog { s.log with lh := lh.add b.blockno }).setThread p
      { th with pc := .writeRel, dirty := th.dirty.erase i, op := th.op.map (insert b.blockno) },
      .log b.blockno b.data)

/-- a step of the routines of `log.c` -/
def logStep (sb : Superblock) (p : P) (s : Fs P K) : Outcome (Fs P K × FsEvent) :=
  let th := s.thread p
  match th.pc with
  | .user => .blocked
  | .beginAcq => lockLog p s .beginTest
  | .beginTest =>
    if s.log.committing then unlockLog p s .beginSleep
    else if (s.log.lh.n : Int) + (s.log.outstanding + 1) * MAXOPBLOCKS > LOGSIZE then
      unlockLog p s .beginSleep
    else
      .next ((s.withLog { s.log with outstanding := s.log.outstanding + 1 }).setThread p
        { th with pc := .beginRel, op := some ∅ }, .tau)
  -- a wakeup or a kill may come at any time; sleep() acquires log.lock again
  | .beginSleep => goTo p s .beginAcq
  | .beginRel => unlockLog p s .user
  | .writeAcq i => lockLog p s (.writeBody i)
  | .writeBody i => logWriteBody sb p i s
  | .writeRel => unlockLog p s .user
  | .endAcq => lockLog p s .endBody
  | .endBody =>
    let outstanding := s.log.outstanding - 1
    if s.log.committing then .panic "log.committing"
    else if outstanding = 0 then
      .next ((s.withLog { s.log with outstanding := outstanding, committing := true }).setThread p
        { th with pc := .endRel true, op := none }, .tau)
    else
      .next ((s.withLog { s.log with outstanding := outstanding }).setThread p
        { th with pc := .endRel false, op := none }, .tau)
  | .endRel doCommit => unlockLog p s (if doCommit then .commitTest else .user)
  | .commitTest => if s.log.lh.n > 0 then goTo p s (.writeLog 0 .first) else goTo p s .doneAcq
  | .writeLog tail r =>
    match r, th.held with
    | .first, _ =>
      if tail < s.log.lh.n then callBuf p s (.get (sb.logstart + tail + 1)) (.writeLog tail .second)
      else goTo p s (.writeHead false .get)
    | .second, _ => callBuf p s (.get (s.log.lh.block tail)) (.writeLog tail .move)
    | .move, fromBuf :: toBuf :: _ =>
      .next ((s.setData toBuf (s.cache.buf fromBuf).data).setThread p
        { th with pc := .writeLog tail .write }, .tau)
    | .write, _ :: toBuf :: _ =>
      .next ((s.bwrite toBuf).setThread p { th with pc := .writeLog tail .rel1 }, .tau)
    | .rel1, fromBuf :: _ => callBuf p s (.unlock fromBuf) (.writeLog tail .rel2)
    | .rel2, toBuf :: _ => callBuf p s (.unlock toBuf) (.writeLog (tail + 1) .first)
    | _, _ => .blocked
  | .writeHead last r =>
    match r, th.held with
    | .get, _ => callBuf p s (.get sb.logstart) (.writeHead last .fill)
    | .fill, buf :: _ =>
      .next ((s.setData buf (s.log.lh.store (s.cache.buf buf).data)).setThread p
        { th with pc := .writeHead last .write }, .tau)
    | .write, buf :: _ =>
      .next ((s.bwrite buf).setThread p { th with pc := .writeHead last .rel }, .tau)
    | .rel, buf :: _ => callBuf p s (.unlock buf) (if last then .doneAcq else .install 0 .first)
    | _, _ => .blocked
  | .install tail r =>
    match r, th.held with
    | .first, _ =>
      if tail < s.log.lh.n then callBuf p s (.get (sb.logstart + tail + 1)) (.install tail .second)
      else goTo p s .clear
    | .second, _ => callBuf p s (.get (s.log.lh.block tail)) (.install tail .move)
    | .move, dbuf :: lbuf :: _ =>
      .next ((s.setData dbuf (s.cache.buf lbuf).data).setThread p
        { th with pc := .install tail .write }, .tau)
    | .write, dbuf :: _ =>
      .next ((s.bwrite dbuf).setThread p { th with pc := .install tail .unpin }, .tau)
    | .unpin, dbuf :: _ =>
      .next ((s.withCache (s.cache.unpin dbuf)).setThread p
        { th with pc := .install tail .rel1 }, .tau)
    | .rel1, _ :: lbuf :: _ => callBuf p s (.unlock lbuf) (.install tail .rel2)
    | .rel2, dbuf :: _ => callBuf p s (.unlock dbuf) (.install (tail + 1) .first)
    | _, _ => .blocked
  | .clear =>
    .next ((s.withLog { s.log with lh := s.log.lh.clear }).setThread p
      { th with pc := .writeHead true .get }, .tau)
  | .doneAcq => lockLog p s .doneBody
  | .doneBody =>
    .next ((s.withLog { s.log with committing := false }).setThread p
      { th with pc := .doneRel }, .tau)
  | .doneRel => unlockLog p s .user

/-- one step of process `p` -/
def Fs.step (sb : Superblock) (p : P) (c : FsChoice K) (s : Fs P K) : Outcome (Fs P K × FsEvent) :=
  match (s.thread p).call, (s.thread p).pc with
  | .none, .user => userStep sb p c s
  | .none, _ => logStep sb p s
  | _, _ => callStep p s

/-- a process that has nothing to do with the log and the cache -/
def Thread.idle : Thread K := ⟨.user, .none, [], ∅, none⟩

/-- the log is empty, and every buffer is unused and holds, if anything, a block of the disk -/
structure Fs.Init (s : Fs P K) : Prop where
  thread : ∀ p, s.thread p = .idle
  lock : s.log.lock = none
  outstanding : s.log.outstanding = 0
  committing : s.log.committing = false
  empty : s.log.lh.n = 0
  nodup : s.cache.lru.Nodup
  all : ∀ i, i ∈ s.cache.lru
  unused : ∀ i, (s.cache.buf i).refcnt = 0 ∧ (s.cache.buf i).lock = none
  distinct : ∀ i j, (s.cache.buf i).dev = ROOTDEV → (s.cache.buf j).dev = ROOTDEV →
    (s.cache.buf i).blockno = (s.cache.buf j).blockno → i = j
  clean : ∀ i, (s.cache.buf i).dev = ROOTDEV → (s.cache.buf i).valid = true →
    (s.cache.buf i).data = s.disk (s.cache.buf i).blockno

/-- after `binit`, with this disk -/
def Fs.boot (d : Disk) : Fs P K where
  cache := ⟨fun _ => ⟨false, 0, 0, none, 0, fun _ => 0⟩, (List.finRange K).reverse⟩
  log := ⟨none, 0, false, ⟨0, fun _ => 0⟩⟩
  disk := d
  thread _ := .idle

theorem Fs.boot_init (d : Disk) : (Fs.boot d : Fs P K).Init where
  thread _ := rfl
  lock := rfl
  outstanding := rfl
  committing := rfl
  empty := rfl
  nodup := List.nodup_reverse.mpr (List.nodup_finRange K)
  all i := List.mem_reverse.mpr (List.mem_finRange i)
  unused _ := ⟨rfl, rfl⟩
  distinct _ _ h := by cases h
  clean _ h := by cases h

/-- a run, with the events of its steps -/
structure Fs.Run (sb : Superblock) (σ : ℕ → Fs P K) (ev : ℕ → FsEvent) : Prop where
  init : (σ 0).Init
  next : ∀ t, (σ (t + 1) = σ t ∧ ev t = .tau) ∨
    ∃ p c, (σ t).step sb p c = .next (σ (t + 1), ev t)

/-- the state after a step of `p`, or the same if it is not possible -/
def Fs.advance (sb : Superblock) (s : Fs P K) (x : P × FsChoice K) : Fs P K × FsEvent :=
  match s.step sb x.1 x.2 with
  | .next r => r
  | _ => (s, .tau)

/-- the states along a list of steps, and the event that led to each of them (`r` to the first) -/
def Fs.trace (sb : Superblock) (r : Fs P K × FsEvent) : List (P × FsChoice K) → ℕ → Fs P K × FsEvent
  | _, 0 => r
  | [], _ + 1 => (r.1, .tau)
  | x :: l, t + 1 => trace sb (r.1.advance sb x) l t
  termination_by structural _ t => t

theorem Fs.trace_run {sb : Superblock} {s : Fs P K} (h : s.Init) (l : List (P × FsChoice K)) :
    Fs.Run sb (fun t => (Fs.trace sb (s, .tau) l t).1) fun t => (Fs.trace sb (s, .tau) l (t + 1)).2 := by
  refine ⟨h, fun t => ?_⟩
  show (_ = _ ∧ _ = _) ∨ _
  generalize (s, FsEvent.tau) = r
  induction t generalizing r l with
  | zero =>
    cases l with
    | nil => exact .inl ⟨rfl, rfl⟩
    | cons x l =>
      show (r.1.advance sb x).1 = r.1 ∧ (r.1.advance sb x).2 = .tau ∨
        ∃ p c, r.1.step sb p c = .next (r.1.advance sb x)
      cases hs : r.1.step sb x.1 x.2 with
      | next r' => exact .inr ⟨x.1, x.2, by simp [Fs.advance, hs]⟩
      | blocked => exact .inl (by simp [Fs.advance, hs])
      | panic msg => exact .inl (by simp [Fs.advance, hs])
  | succ t ih =>
    cases l with
    | nil => cases t <;> exact .inl ⟨rfl, rfl⟩
    | cons x l => exact ih l (r.1.advance sb x)

/-- `f` holds in all states along a list of steps -/
def Fs.always (sb : Superblock) (f : Fs P K → Bool) (s : Fs P K) : List (P × FsChoice K) → Bool
  | [] => f s
  | x :: l => f s && always sb f (s.advance sb x).1 l

theorem Fs.always_trace {sb : Superblock} {f : Fs P K → Bool} {l : List (P × FsChoice K)}
    {r : Fs P K × FsEvent} (h : Fs.always sb f r.1 l = true) (t : ℕ) :
    f (Fs.trace sb r l t).1 = true := by
  induction t generalizing r l with
  | zero =>
    cases l with
    | nil => exact h
    | cons x l => exact (Bool.and_eq_true_iff.mp h).1
  | succ t ih =>
    cases l with
    | nil => exact h
    | cons x l => exact ih (Bool.and_eq_true_iff.mp h).2

end

end Xv6
