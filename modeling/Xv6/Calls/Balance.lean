import Xv6.Kernel.Proc

/-!
# Lock balance of the process calls

A call is balanced if it returns, when it returns, with exactly the spinlocks it was called with,
and so with the same `noff`.

* `Balanced`   the property, with one rule per construct;
* `allocproc_held`   `allocproc` hands its slot back locked;
* `forknLoop_held`   `forkn` keeps the lock of a child whose memory it could not copy;
* `procCall_balanced_iff`  every call is balanced except a `forkn` that meets that failure.
-/

namespace Xv6
variable {N : ℕ} {α β : Type}

/-- the CPU holds exactly the spinlocks `H`, at depth `n` -/
def HoldsAt (H : Finset (Lock N)) (n : Nat) (s : KState N) : Prop := s.held = H ∧ s.noff = n

/-- if the routine returns, it does so with the spinlocks it was called with -/
def Balanced (x : KM N α) : Prop := ∀ H n, Act.Triple (HoldsAt H n) x fun _ => HoldsAt H n

/-! ## rules -/

namespace Balanced

theorem pure (a : α) : Balanced (Pure.pure a : KM N α) :=
  fun _ _ => Act.Triple.pure fun _ hs => hs

theorem stop : Balanced (Act.stop : KM N α) := fun _ _ => Act.Triple.stop

theorem read (f : KState N → α) : Balanced (Act.read f) :=
  fun H n => Act.Triple.read (Q := fun _ => HoldsAt H n)

theorem modify {f : KState N → KState N} (h : ∀ s, (f s).held = s.held ∧ (f s).noff = s.noff) :
    Balanced (Act.modify f) := by
  intro H n
  refine Act.Triple.conseq (Act.Triple.modify (Q := fun _ => HoldsAt H n)) ?_ fun _ _ hq => hq
  rintro s ⟨h1, h2⟩
  exact ⟨(h s).1.trans h1, (h s).2.trans h2⟩

theorem bind {x : KM N α} {f : α → KM N β} (hx : Balanced x) (hf : ∀ a, Balanced (f a)) :
    Balanced (x >>= f) :=
  fun H n => (hx H n).bind fun a => hf a H n

theorem each {f : β → KM N Unit} (h : ∀ b, Balanced (f b)) (bs : List β) :
    Balanced (Act.each f bs) :=
  fun H n => Act.Triple.each (fun b => h b H n) bs

theorem setKern (f : Kern N → Kern N) : Balanced (Xv6.setKern f) := modify fun _ => ⟨rfl, rfl⟩

theorem setProc (j : Slot N) (f : Proc N → Proc N) : Balanced (Xv6.setProc j f) :=
  setKern _

theorem getProc (j : Slot N) : Balanced (Xv6.getProc j) := read _

/-- a routine that uses the free list only gives the allocator's lock back -/
theorem of_memOnly {x : KM N α} (h : MemOnly x) : Balanced x := by
  obtain ⟨g, hg⟩ := h
  rintro H n s ⟨h1, h2⟩ a t e
  rw [hg s, Option.map_eq_some_iff] at e
  obtain ⟨r, -, e⟩ := e
  cases e
  exact ⟨h1, h2⟩

end Balanced

section
variable {H : Finset (Lock N)} {n : Nat} {Q : β → KState N → Prop}

theorem acquire_then {l : Lock N} {f : Unit → KM N β}
    (h : l ∉ H → Act.Triple (HoldsAt (insert l H) (n + 1)) (f ()) Q) :
    Act.Triple (HoldsAt H n) (acquire l >>= f) Q := by
  rintro s ⟨h1, h2⟩ b t e
  obtain ⟨_, u, e1, e2⟩ := Act.bind_some.mp e
  unfold acquire at e1
  split at e1
  · cases e1
  · rename_i hl
    cases e1
    refine h (h1 ▸ hl) _ ⟨?_, ?_⟩ b t e2
    · rw [h1]
    · rw [h2]

theorem release_then {l : Lock N} {f : Unit → KM N β}
    (h : l ∈ H → 1 ≤ n → Act.Triple (HoldsAt (H.erase l) (n - 1)) (f ()) Q) :
    Act.Triple (HoldsAt H n) (release l >>= f) Q := by
  rintro s ⟨h1, h2⟩ b t e
  obtain ⟨_, u, e1, e2⟩ := Act.bind_some.mp e
  unfold release at e1
  split at e1
  · rename_i hl
    cases e1
    refine h (h1 ▸ hl.1) (h2 ▸ hl.2) _ ⟨?_, ?_⟩ b t e2
    · rw [h1]
    · rw [h2]
  · cases e1

theorem Balanced.andThen {x : KM N α} {f : α → KM N β} (hx : Balanced x)
    (hf : ∀ a, Act.Triple (HoldsAt H n) (f a) Q) : Act.Triple (HoldsAt H n) (x >>= f) Q :=
  (hx H n).bind hf

/-- the end of a critical section: the lock taken last is given back -/
theorem unlock_then {l : Lock N} {f : Unit → KM N β} (hl : l ∉ H)
    (h : Act.Triple (HoldsAt H n) (f ()) Q) :
    Act.Triple (HoldsAt (insert l H) (n + 1)) (release l >>= f) Q := by
  refine release_then fun _ _ => ?_
  rw [Finset.erase_insert hl]
  exact h

end

theorem Balanced.locked {x : KM N α} {f : α → KM N β} (l : Lock N) (hx : Balanced x)
    (hf : ∀ a, Balanced (f a)) :
    Balanced (do acquire l; let a ← x; release l; f a) :=
  fun H n => acquire_then fun hl => hx.andThen fun a => unlock_then hl (hf a H n)

/-! ## the pieces of `proc.c` -/

theorem allocpid_balanced : Balanced (allocpid : KM N CInt) := by
  intro H n
  refine acquire_then fun hl => (Balanced.read _).andThen fun pid => ?_
  exact (Balanced.setKern _).andThen fun _ => unlock_then hl (Balanced.pure pid H n)

theorem freeproc_balanced (j : Slot N) : Balanced (freeproc j) := by
  refine (Balanced.getProc j).bind fun q => ?_
  refine (Balanced.of_memOnly (freeTrapframe_memOnly _)).bind fun _ => ?_
  exact (Balanced.of_memOnly (freeUserMem_memOnly _ _)).bind fun _ => .setProc j _

theorem allocprocFound_balanced (j : Slot N) : Balanced (allocprocFound j) := by
  refine allocpid_balanced.bind fun pid => (Balanced.setProc j _).bind fun _ => ?_
  refine (Balanced.of_memOnly kalloc_memOnly).bind fun r => ?_
  cases r with
  | none =>
    exact (Balanced.setProc j _).bind fun _ => (freeproc_balanced j).bind fun _ => .pure false
  | some pa =>
    refine (Balanced.setProc j _).bind fun _ => ?_
    refine (Balanced.of_memOnly (procPagetable_memOnly pa)).bind fun r => ?_
    cases r with
    | none =>
      exact (Balanced.setProc j _).bind fun _ => (freeproc_balanced j).bind fun _ => .pure false
    | some pt => exact (Balanced.setProc j _).bind fun _ => .pure true

theorem filedup_balanced (f : Nat) : Balanced (filedup f : KM N Unit) := by
  intro H n
  refine acquire_then fun hl => (Balanced.read _).andThen fun r => ?_
  split
  · exact Act.Triple.stop
  · refine (Balanced.setKern _).andThen fun _ => ?_
    rw [Act.then_nothing (release _)]
    exact unlock_then hl (Balanced.pure () H n)

theorem idup_balanced (ip : Nat) : Balanced (idup ip : KM N Unit) := by
  intro H n
  refine acquire_then fun hl => (Balanced.setKern _).andThen fun _ => ?_
  rw [Act.then_nothing (release _)]
  exact unlock_then hl (Balanced.pure () H n)

theorem dupFile_balanced (ofile : Nat → Option Nat) (np : Slot N) (fd : Nat) :
    Balanced (dupFile ofile np fd) := by
  unfold dupFile
  split
  · exact .pure ()
  · exact (filedup_balanced _).bind fun _ => .setProc np _

theorem copyRest_balanced (p np : Slot N) (a0 : BitVec 64) : Balanced (copyRest p np a0) := by
  refine (Balanced.getProc p).bind fun pp => (Balanced.getProc np).bind fun nn => ?_
  split
  · refine (Balanced.setProc np _).bind fun _ => ?_
    refine (Balanced.each (dupFile_balanced pp.ofile np) _).bind fun _ => ?_
    exact (idup_balanced _).bind fun _ => .setProc np _
  · exact .stop

theorem copyChild_balanced (p np : Slot N) (a0 : BitVec 64) : Balanced (copyChild p np a0) := by
  refine (Balanced.getProc p).bind fun pp => (Balanced.getProc np).bind fun nn => ?_
  split
  · refine (Balanced.of_memOnly (uvmcopy_memOnly _ _ _)).bind fun r => ?_
    refine (Balanced.setProc np _).bind fun _ => ?_
    split
    · exact (copyRest_balanced p np a0).bind fun _ => .pure true
    · exact (freeproc_balanced np).bind fun _ => .pure false
  · exact .stop

theorem copyoutTo_balanced (p : Slot N) (va : Nat) (src : List Byte) :
    Balanced (copyoutTo p va src) := by
  refine (Balanced.getProc p).bind fun q => ?_
  split
  · exact .stop
  · exact (Balanced.setProc p _).bind fun _ => .pure _

theorem tryCopyout_balanced (p : Slot N) (va : Nat) (src : List Byte) :
    Balanced (tryCopyout p va src) := by
  unfold tryCopyout
  split
  · exact .pure ()
  · exact (copyoutTo_balanced p va src).bind fun _ => .pure ()

theorem killed_balanced (p : Slot N) : Balanced (killed p) :=
  Balanced.locked (.proc p) (Balanced.getProc p) fun q => .pure q.killed

theorem sched_balanced (p : Slot N) : Balanced (sched p) := by
  rintro H n s ⟨h1, h2⟩ _ t e
  unfold sched at e
  split at e
  · split at e
    · cases e
    · cases e
      exact ⟨h1, h2⟩
  · cases e

theorem sleep_held (p : Slot N) (ch : Chan N) {lk : Lock N} {H : Finset (Lock N)} {n : Nat}
    (hlk : lk ∈ H) : Act.Triple (HoldsAt H n) (sleep p ch lk) fun _ => HoldsAt H n := by
  refine acquire_then fun hp => release_then fun _ _ => (Balanced.setProc p _).andThen fun _ => ?_
  refine (sched_balanced p).andThen fun _ => (Balanced.setProc p _).andThen fun _ => ?_
  refine release_then fun _ hn => ?_
  rw [Act.then_nothing (acquire _)]
  refine acquire_then fun _ => ?_
  have hH : insert lk (((insert (.proc p) H).erase lk).erase (.proc p)) = H := by
    rw [Finset.erase_right_comm, Finset.erase_insert hp, Finset.insert_erase hlk]
  rw [hH, Nat.add_sub_cancel, Nat.sub_add_cancel (show 1 ≤ n from hn)]
  exact Balanced.pure () H n

/-! ## the calls -/

/-- `allocproc` returns with the lock of the slot it found, or with no lock -/
theorem allocprocScan_held (js : List (Slot N)) (H : Finset (Lock N)) (n : Nat) :
    Act.Triple (HoldsAt H n) (allocprocScan js) fun r s =>
      match r with
      | none => HoldsAt H n s
      | some j => .proc j ∉ H ∧ HoldsAt (insert (.proc j) H) (n + 1) s := by
  induction js with
  | nil => exact Act.Triple.pure fun _ hs => hs
  | cons j js ih =>
    refine acquire_then fun hj => (Balanced.getProc j).andThen fun q => ?_
    split
    · refine (allocprocFound_balanced j).andThen fun r => ?_
      cases r with
      | true => exact Act.Triple.pure fun _ hs => ⟨hj, hs⟩
      | false => exact unlock_then hj (Act.Triple.pure fun _ hs => hs)
    · exact unlock_then hj ih

theorem allocproc_held (H : Finset (Lock N)) (n : Nat) :
    Act.Triple (HoldsAt H n) allocproc fun r s =>
      match r with
      | none => HoldsAt H n s
      | some j => .proc j ∉ H ∧ HoldsAt (insert (.proc j) H) (n + 1) s :=
  allocprocScan_held (slots N) H n

theorem fork_balanced (p : Slot N) : Balanced (fork p) := by
  intro H n
  refine (allocproc_held H n).bind fun r => ?_
  cases r with
  | none => exact Balanced.pure none H n
  | some np =>
    rintro s ⟨hnp, hs⟩
    refine (copyChild_balanced p np 0).andThen (fun ok => ?_) s hs
    cases ok with
    | true =>
      refine (Balanced.getProc np).andThen fun q => unlock_then hnp ?_
      refine Balanced.locked .wait (Balanced.setProc np _) (fun _ => ?_) H n
      exact Balanced.locked (.proc np) (Balanced.setProc np _) fun _ => .pure _
    | false => exact unlock_then hnp (Balanced.pure none H n)

theorem forknClean_balanced (kids : List (Slot N)) : Balanced (forknClean kids) := by
  refine Balanced.each (fun j H n => ?_) kids
  refine acquire_then fun hj => (Balanced.setProc j _).andThen fun _ => ?_
  refine (freeproc_balanced j).andThen fun _ => ?_
  rw [Act.then_nothing (release _)]
  exact unlock_then hj (Balanced.pure () H n)

theorem forknLink_balanced (p : Slot N) (kids : List (Slot N)) : Balanced (forknLink p kids) := by
  refine Balanced.each (fun j H n => ?_) kids
  refine (Balanced.setProc j _).andThen fun _ => acquire_then fun hj => ?_
  refine (Balanced.setProc j _).andThen fun _ => ?_
  rw [Act.then_nothing (release _)]
  exact unlock_then hj (Balanced.pure () H n)

/-- in the first loop of `forkn`, with `m` children to go and `created` done, there comes a child
that `allocproc` delivers and whose memory `uvmcopy` cannot copy -/
def uvmcopyFails (p : Slot N) : Nat → Nat → KState N → Bool
  | 0, _, _ => false
  | m + 1, created, s =>
    match allocproc s with
    | some (some np, s) =>
      match copyChild p np (created + 1) s with
      | some (true, s) =>
        match release (.proc np) s with
        | some (_, s) => uvmcopyFails p m (created + 1) s
        | none => false
      | some (false, _) => true
      | none => false
    | _ => false

/-- the first loop of `forkn` is balanced unless `uvmcopy` fails, and then one lock more is held -/
theorem forknLoop_held (p : Slot N) (m : Nat) (kids : List (Slot N)) (pl : List CInt)
    {H : Finset (Lock N)} {n : Nat} {s s' : KState N} {r : Option (List (Slot N) × List CInt)}
    (hs : HoldsAt H n s) (e : forknLoop p m kids pl s = some (r, s')) :
    (uvmcopyFails p m kids.length s = false ∧ HoldsAt H n s') ∨
    (uvmcopyFails p m kids.length s = true ∧ r = none ∧
      ∃ np, .proc np ∉ H ∧ HoldsAt (insert (.proc np) H) (n + 1) s') := by
  induction m generalizing kids pl s with
  | zero =>
    cases e
    exact .inl ⟨rfl, hs⟩
  | succ m ih =>
    obtain ⟨a, s1, e1, e⟩ := Act.bind_some.mp e
    have h1 := allocproc_held H n s hs a s1 e1
    cases a with
    | none =>
      obtain ⟨_, s2, e2, e⟩ := Act.bind_some.mp e
      cases e
      refine .inl ⟨?_, forknClean_balanced kids H n s1 h1 () _ e2⟩
      rw [uvmcopyFails, e1]
    | some np =>
      obtain ⟨hnp, h1⟩ := h1
      obtain ⟨q, s2, e2, e⟩ := Act.bind_some.mp e
      cases e2
      obtain ⟨ok, s3, e3, e⟩ := Act.bind_some.mp e
      have h3 := copyChild_balanced p np _ _ _ s1 h1 ok s3 e3
      cases ok with
      | false =>
        obtain ⟨_, s4, e4, e⟩ := Act.bind_some.mp e
        cases e
        refine .inr ⟨?_, rfl, np, hnp, forknClean_balanced kids _ _ s3 h3 () _ e4⟩
        rw [uvmcopyFails, e1]
        simp only [e3]
      | true =>
        obtain ⟨_, s4, e4, e⟩ := Act.bind_some.mp e
        have h4 : HoldsAt H n s4 := by
          rw [Act.then_nothing (release _)] at e4
          exact unlock_then hnp (Balanced.pure () H n) s3 h3 () s4 e4
        have hf : uvmcopyFails p (m + 1) kids.length s
            = uvmcopyFails p m (kids ++ [np]).length s4 := by
          rw [uvmcopyFails, e1, List.length_append]
          simp only [e3, e4]
          rfl
        rw [hf]
        exact ih (kids ++ [np]) (pl ++ [(s1.k.proc np).pid]) h4 e

/-- `forkn` is balanced exactly if `uvmcopy` does not fail in it -/
theorem forkn_held (p : Slot N) (n : CInt) (pids : Nat) {s s' : KState N} {r : Int}
    (e : forkn p n pids s = some (r, s')) :
    (s'.held = s.held ∧ s'.noff = s.noff) ↔
      (decide (1 ≤ n.toInt ∧ n.toInt ≤ 16) && uvmcopyFails p n.toNat 0 s) = false := by
  unfold forkn at e
  split at e
  · rename_i hn
    cases e
    refine iff_of_true ⟨rfl, rfl⟩ ?_
    rw [decide_eq_false (by omega), Bool.false_and]
  · rename_i hn
    obtain ⟨a, s1, e1, e⟩ := Act.bind_some.mp e
    rw [decide_eq_true (by omega), Bool.true_and]
    have hs : HoldsAt s.held s.noff s := ⟨rfl, rfl⟩
    rcases forknLoop_held p n.toNat [] [] hs e1 with ⟨hf, h1⟩ | ⟨hf, rfl, np, hnp, h1⟩
    · refine iff_of_true ?_ hf
      cases a with
      | none =>
        cases e
        exact h1
      | some r =>
        refine Balanced.locked .wait (forknLink_balanced p r.1) (fun _ => ?_) _ _ s1 h1 _ s' e
        split
        · exact .pure 0
        · refine (copyoutTo_balanced p pids _).bind fun ok => ?_
          split
          · exact .pure 0
          · exact .pure (-1)
    · cases e
      have hne : uvmcopyFails p n.toNat 0 s ≠ false := by
        rw [show uvmcopyFails p n.toNat 0 s = true from hf]
        exact Bool.noConfusion
      refine iff_of_false (fun hh => ?_) hne
      have := h1.2.symm.trans hh.2
      omega

theorem waitReap_balanced (p j : Slot N) (addr msg : Nat) : Balanced (waitReap p j addr msg) := by
  refine (Balanced.getProc j).bind fun q => ?_
  refine (tryCopyout_balanced p _ _).bind fun _ => ?_
  refine Balanced.bind ?_ fun ok => ?_
  · unfold storeStatus
    split
    · exact .pure true
    · exact copyoutTo_balanced p _ _
  · split
    · exact (freeproc_balanced j).bind fun _ => .pure _
    · exact .pure none

/-- the search of `wait` gives `wait_lock` back only where `wait` returns from it -/
theorem waitScan_held (p : Slot N) (addr msg : Nat) (js : List (Slot N)) (hk : Bool)
    {H : Finset (Lock N)} (n : Nat) (hw : .wait ∉ H) :
    Act.Triple (HoldsAt (insert .wait H) (n + 1)) (waitScan p addr msg js hk) fun r =>
      match r with
      | .inl _ => HoldsAt H n
      | .inr _ => HoldsAt (insert .wait H) (n + 1) := by
  induction js generalizing hk with
  | nil => exact Act.Triple.pure fun _ hs => hs
  | cons j js ih =>
    refine (Balanced.getProc j).andThen fun q => ?_
    split
    · refine acquire_then fun hj => (Balanced.getProc j).andThen fun q => ?_
      split
      · refine (waitReap_balanced p j addr msg).andThen fun r => unlock_then hj ?_
        exact unlock_then hw (Act.Triple.pure fun _ hs => hs)
      · exact unlock_then hj (ih true)
    · exact ih hk

theorem waitLoop_held (p : Slot N) (addr msg f : Nat) {H : Finset (Lock N)} (n : Nat)
    (hw : .wait ∉ H) :
    Act.Triple (HoldsAt (insert .wait H) (n + 1)) (waitLoop p addr msg f) fun _ =>
      HoldsAt H n := by
  induction f with
  | zero => exact Act.Triple.stop
  | succ f ih =>
    refine (waitScan_held p addr msg (slots N) false n hw).bind fun r => ?_
    cases r with
    | inl r => exact Balanced.pure r H n
    | inr hk =>
      have hkill : Balanced (waitGivesUp p hk) := by
        unfold waitGivesUp
        split
        · exact killed_balanced p
        · exact .pure true
      refine hkill.andThen fun k => ?_
      split
      · exact unlock_then hw (Balanced.pure none H n)
      · exact (sleep_held p _ (Finset.mem_insert_self _ _)).bind fun _ => ih

theorem wait_balanced (p : Slot N) (addr msg : Nat) : Balanced (wait p addr msg) :=
  fun _ n => acquire_then fun hw => (Balanced.read _).andThen fun _ =>
    waitLoop_held p addr msg _ n hw

theorem waitallScan_balanced (p : Slot N) (js : List (Slot N)) (l : Pass N) :
    Balanced (waitallScan p js l) := by
  induction js generalizing l with
  | nil => exact .pure l
  | cons j js ih => exact Balanced.locked (.proc j) (Balanced.getProc j) fun q => ih _

theorem waitallFree_balanced (kids : List (Slot N)) : Balanced (waitallFree kids) := by
  refine Balanced.each (fun j H n => ?_) kids
  refine acquire_then fun hj => (freeproc_balanced j).andThen fun _ => ?_
  rw [Act.then_nothing (release _)]
  exact unlock_then hj (Balanced.pure () H n)

theorem waitallLoop_held (p : Slot N) (nAddr statusesAddr f : Nat) (st : Nat → CInt)
    {H : Finset (Lock N)} (n : Nat) (hw : .wait ∉ H) :
    Act.Triple (HoldsAt (insert .wait H) (n + 1)) (waitallLoop p nAddr statusesAddr f st) fun _ =>
      HoldsAt H n := by
  induction f generalizing st with
  | zero => exact Act.Triple.stop
  | succ f ih =>
    refine (waitallScan_balanced p _ _).andThen fun l => ?_
    split
    · refine unlock_then hw ?_
      exact (tryCopyout_balanced p _ _).andThen fun _ => Balanced.pure 0 H n
    · split
      · refine (waitallFree_balanced _).andThen fun _ => unlock_then hw ?_
        refine (tryCopyout_balanced p _ _).andThen fun _ => ?_
        exact (tryCopyout_balanced p _ _).andThen fun _ => Balanced.pure 0 H n
      · refine (killed_balanced p).andThen fun k => ?_
        split
        · exact unlock_then hw (Balanced.pure (-1) H n)
        · exact (sleep_held p _ (Finset.mem_insert_self _ _)).bind fun _ => ih _

theorem waitall_balanced (p : Slot N) (nAddr statusesAddr : Nat) :
    Balanced (waitall p nAddr statusesAddr) :=
  fun _ n => acquire_then fun hw => (Balanced.read _).andThen fun _ =>
    waitallLoop_held p nAddr statusesAddr _ _ n hw

theorem kill_balanced (pid : CInt) : Balanced (kill pid : KM N Int) := by
  unfold kill
  generalize slots N = js
  induction js with
  | nil => exact .pure (-1)
  | cons j js ih =>
    intro H n
    refine acquire_then fun hj => (Balanced.getProc j).andThen fun q => ?_
    split
    · exact (Balanced.setProc j _).andThen fun _ => unlock_then hj (Balanced.pure 0 H n)
    · exact unlock_then hj (ih H n)

theorem growproc_balanced (p : Slot N) (n : CInt) : Balanced (growproc p n) := by
  refine (Balanced.getProc p).bind fun q => ?_
  split
  · exact .stop
  · dsimp only
    split
    · refine (Balanced.of_memOnly (uvmalloc_memOnly _ _ _ _)).bind fun r => ?_
      refine (Balanced.setProc p _).bind fun _ => ?_
      split
      · exact .pure (-1)
      · exact (Balanced.setProc p _).bind fun _ => .pure 0
    · split
      · refine (Balanced.of_memOnly (uvmdealloc_memOnly _ _ _)).bind fun r => ?_
        exact (Balanced.setProc p _).bind fun _ => .pure 0
      · exact .pure 0

/-! ## all calls together -/

/-- the process operations and their arguments -/
inductive ProcCall where
  | fork
  | forkn (n : CInt) (pids : Nat)
  | wait (addr msg : Nat)
  | waitall (nAddr statusesAddr : Nat)
  | kill (pid : CInt)
  | growproc (n : CInt)

namespace ProcCall

/-- the call by `p`, its result dropped -/
def run (p : Slot N) : ProcCall → KM N Unit
  | fork => do let _ ← Xv6.fork p
  | forkn n pids => do let _ ← Xv6.forkn p n pids
  | wait addr msg => do let _ ← Xv6.wait p addr msg
  | waitall nAddr statusesAddr => do let _ ← Xv6.waitall p nAddr statusesAddr
  | kill pid => do let _ ← Xv6.kill pid
  | growproc n => do let _ ← Xv6.growproc p n

/-- the call is a `forkn` in which `uvmcopy` fails for a child -/
def copyFails (p : Slot N) : ProcCall → KState N → Bool
  | forkn n _, s => decide (1 ≤ n.toInt ∧ n.toInt ≤ 16) && uvmcopyFails p n.toNat 0 s
  | _, _ => false

end ProcCall

/-- **Every call is balanced, on every return, except a `forkn` in which `uvmcopy` fails.** -/
theorem procCall_balanced_iff (p : Slot N) (c : ProcCall) (s s' : KState N)
    (h : c.run p s = some ((), s')) :
    (s'.held = s.held ∧ s'.noff = s.noff) ↔ c.copyFails p s = false := by
  have keep : ∀ {α : Type} {x : KM N α}, Balanced x → (do let _ ← x) s = some ((), s') →
      s'.held = s.held ∧ s'.noff = s.noff := by
    intro α x hx e
    obtain ⟨a, t, e1, e2⟩ := Act.bind_some.mp e
    cases e2
    exact hx s.held s.noff s ⟨rfl, rfl⟩ a _ e1
  cases c with
  | fork => exact iff_of_true (keep (fork_balanced p) h) rfl
  | wait addr msg => exact iff_of_true (keep (wait_balanced p addr msg) h) rfl
  | waitall nAddr statusesAddr =>
    exact iff_of_true (keep (waitall_balanced p nAddr statusesAddr) h) rfl
  | kill pid => exact iff_of_true (keep (kill_balanced pid) h) rfl
  | growproc n => exact iff_of_true (keep (growproc_balanced p n) h) rfl
  | forkn n pids =>
    obtain ⟨a, t, e1, e2⟩ := Act.bind_some.mp h
    cases e2
    exact forkn_held p n pids e1

/-- with five free pages the child of `fork` gets a trapframe and a page table, but no memory: the
call fails and is balanced -/
theorem fork_balanced_sample : ∃ s s', sample 5 = some s ∧ ProcCall.fork.run 0 s = some ((), s') ∧
    (s'.held = s.held ∧ s'.noff = s.noff) := by
  have h : (sample 5).any (fun s => (ProcCall.fork.run 0 s).isSome) = true := by decide +kernel
  obtain ⟨s, hs, hr⟩ := (Option.any_eq_true _ _).mp h
  obtain ⟨⟨_, s'⟩, hr⟩ := Option.isSome_iff_exists.mp hr
  exact ⟨s, s', hs, hr, (procCall_balanced_iff 0 .fork s s' hr).mpr rfl⟩

/-- with four free pages `forkn(1, 0)` returns with the lock of the child it has freed -/
theorem forkn_keeps_child_lock : ∃ s s', sample 4 = some s ∧
    (ProcCall.forkn 1 0).run 0 s = some ((), s') ∧
    s.held = ∅ ∧ s.noff = 0 ∧ s'.held = {.proc 1} ∧ s'.noff = 1 := by
  have h : (sample 4).any (fun s => ((ProcCall.forkn 1 0).run 0 s).any fun r =>
      decide (s.held = ∅ ∧ s.noff = 0 ∧ r.2.held = {.proc 1} ∧ r.2.noff = 1)) = true := by
    decide +kernel
  obtain ⟨s, hs, h⟩ := (Option.any_eq_true _ _).mp h
  obtain ⟨⟨_, s'⟩, hr, h⟩ := (Option.any_eq_true _ _).mp h
  exact ⟨s, s', hs, hr, of_decide_eq_true h⟩

end Xv6
