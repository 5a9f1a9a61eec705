import Xv6.Kernel.Commute

/-!
# `forkn` is a sequence of `fork`s

`fork` publishes its child at once; `forkn` creates all its children first and publishes them in a
second loop.  The two agree because creating a child commutes with publishing the earlier ones.

* `Created`   one turn of the first loop of `forkn`, up to the release of the child;
* `fork_created`, `forknLoop_created`   both routines in terms of it;
* `forks_iff_forknLoop`  by induction on the number of children;
* `forkn_refines_forks`  the whole call.
-/

namespace Xv6
variable {N : ℕ} {α β : Type}

/-! ## changes of the children -/

def Proc.withA0 (a0 : BitVec 64) (q : Proc N) : Proc N :=
  { q with trapframe := q.trapframe.map fun r => (r.1, Function.update r.2 Trapframe.a0 a0) }

/-- what `fork` and `forkn` do to a complete child at last -/
def Proc.published (p : Slot N) (q : Proc N) : Proc N :=
  { q with parent := some p, state := .runnable }

/-- a child of `forkn`, not yet published, as `fork` would have left it -/
def Proc.asForked (p : Slot N) (q : Proc N) : Proc N := (q.published p).withA0 0

/-! ## creating a child -/

/-- the search of `allocproc` passes over slots in use, whatever else is in them -/
theorem allocprocScan_onKids {kids : List (Slot N)} {F : Proc N → Proc N} (js : List (Slot N))
    {s : KState N} (hF : ∀ q, (F q).state ≠ .unused)
    (hk : ∀ j ∈ kids, (s.k.proc j).state ≠ .unused) :
    allocprocScan js (s.mapProc (onKids kids F))
      = (allocprocScan js s).map fun r => (r.1, r.2.mapProc (onKids kids F)) := by
  induction js generalizing s with
  | nil => rfl
  | cons j js ih =>
    rw [allocprocScan, Act.bind_run, Act.bind_run, Commutes.acquire (.proc j) s]
    cases e1 : acquire (.proc j) s with
    | none => rfl
    | some r =>
      obtain ⟨_, s1⟩ := r
      obtain ⟨-, rfl⟩ := acquire_some.mp e1
      show (if (onKids kids F j (s.k.proc j)).state = .unused then _ else _ : KM N _) _
        = Option.map _ ((if (s.k.proc j).state = .unused then _ else _ : KM N _) _)
      by_cases hu : (s.k.proc j).state = .unused
      · have hj : ∀ q, onKids kids F j q = q := onKids_not_mem fun hj => hk j hj hu
        rw [hj, if_pos hu]
        refine (Commutes.allocprocFound hj).bind (fun ok => ?_) _
        cases ok with
        | true => exact Commutes.pure _
        | false => exact (Commutes.release _).bind fun _ => Commutes.pure _
      · -- in use on both sides: released and passed over
        have hu' : (onKids kids F j (s.k.proc j)).state ≠ .unused := by
          by_cases hj : j ∈ kids
          · rw [onKids_mem hj]
            exact hF _
          · rwa [onKids_not_mem hj]
        rw [if_neg hu', if_neg hu, Act.bind_run, Act.bind_run, Commutes.release]
        cases e2 : release (.proc j) _ with
        | none => rfl
        | some r =>
          obtain ⟨_, s2⟩ := r
          obtain ⟨-, rfl⟩ := release_some.mp e2
          exact ih hk

/-- one turn of the first loop of `forkn`, up to the release of the child -/
def Created (p np : Slot N) (a0 : BitVec 64) (s s' : KState N) : Prop :=
  ∃ s1 s2, allocproc s = some (some np, s1) ∧ copyChild p np a0 s1 = some (true, s2) ∧
    release (.proc np) s2 = some ((), s')

/-- what is known of a child that was just created -/
structure Newborn (np : Slot N) (a0 : BitVec 64) (s s' : KState N) : Prop where
  free : (s.k.proc np).state = .unused
  lock : .proc np ∉ s.held
  held : s'.held = s.held
  noff : s'.noff = s.noff
  env : s'.env = s.env
  other : ∀ i, i ≠ np → s'.k.proc i = s.k.proc i
  state : (s'.k.proc np).state = .used
  regs : (s'.k.proc np).withA0 a0 = s'.k.proc np

theorem Created.newborn {p np : Slot N} {a0 : BitVec 64} {s s' : KState N}
    (h : Created p np a0 s s') : Newborn np a0 s s' := by
  obtain ⟨s1, s2, e1, e2, e3⟩ := h
  obtain ⟨hu, hl, pa, pt, h1⟩ := allocprocScan_spec e1
  rcases copyChild_spec e2 with ⟨h, -⟩ | ⟨-, _, _, _, tf, _, _, _, h2⟩
  · cases h
  rw [h1.here] at h2
  have h2 := h1.trans h2
  obtain ⟨-, rfl⟩ := release_some.mp e3
  refine ⟨hu, hl, ?_, ?_, h2.env, h2.other, ?_, ?_⟩
  · show s2.held.erase _ = _
    rw [h2.held]
    exact Finset.erase_insert hl
  · show s2.noff - 1 = _
    rw [h2.noff]
    rfl
  · show (s2.k.proc np).state = _
    rw [h2.here]
    rfl
  · show (s2.k.proc np).withA0 a0 = s2.k.proc np
    rw [h2.here]
    simp [Proc.withA0, Proc.copied, Proc.filled]

/-- creating a child does not see changes of children already there -/
theorem Created.onKids_iff {p np : Slot N} {a0 : BitVec 64} {kids : List (Slot N)}
    {F : Proc N → Proc N} {s u : KState N} (hF : ∀ q, (F q).state ≠ .unused)
    (hk : ∀ j ∈ kids, (s.k.proc j).state ≠ .unused) (hp : p ∉ kids) :
    Created p np a0 (s.mapProc (onKids kids F)) u ↔
      ∃ t, Created p np a0 s t ∧ u = t.mapProc (onKids kids F) := by
  have hal : ∀ u1, allocproc (s.mapProc (onKids kids F)) = some (some np, u1) ↔
      ∃ s1, allocproc s = some (some np, s1) ∧ u1 = s1.mapProc (onKids kids F) := by
    intro u1
    unfold allocproc
    rw [allocprocScan_onKids (slots N) hF hk, Option.map_eq_some_iff]
    constructor
    · rintro ⟨⟨_, t⟩, h, e⟩
      cases e
      exact ⟨t, h, rfl⟩
    · rintro ⟨t, h, rfl⟩
      exact ⟨(some np, t), h, rfl⟩
  have hnp : ∀ s1, allocproc s = some (some np, s1) → np ∉ kids :=
    fun s1 e hm => hk np hm (allocprocScan_spec e).1
  constructor
  · rintro ⟨u1, u2, e1, e2, e3⟩
    obtain ⟨s1, h1, rfl⟩ := (hal u1).mp e1
    have hc := Commutes.copyChild a0 (onKids_not_mem (F := F) hp) (onKids_not_mem (hnp s1 h1))
    obtain ⟨s2, h2, rfl⟩ := hc.some.mp e2
    obtain ⟨s3, h3, rfl⟩ := (Commutes.release _).some.mp e3
    exact ⟨s3, ⟨s1, s2, h1, h2, h3⟩, rfl⟩
  · rintro ⟨t, ⟨s1, s2, e1, e2, e3⟩, rfl⟩
    have hc := Commutes.copyChild a0 (onKids_not_mem (F := F) hp) (onKids_not_mem (hnp s1 e1))
    exact ⟨_, _, (hal _).mpr ⟨s1, e1, rfl⟩, hc.some.mpr ⟨s2, e2, rfl⟩,
      (Commutes.release _).some.mpr ⟨t, e3, rfl⟩⟩

theorem copyRest_a0 (p np : Slot N) (a0 : BitVec 64) (s : KState N) :
    copyRest p np 0 s
      = (copyRest p np a0 s).map fun r => (r.1, r.2.mapProc (onKids [np] (Proc.withA0 0))) := by
  have hnp : ∀ q, onKids [np] (Proc.withA0 0) np q = q.withA0 0 :=
    onKids_mem (List.mem_singleton.mpr rfl)
  unfold copyRest
  rw [Act.bind_of (getProc_run p s), Act.bind_of (getProc_run p s), Act.bind_of (getProc_run np s),
    Act.bind_of (getProc_run np s)]
  rcases (s.k.proc p).trapframe with _ | ⟨_, tf⟩
  · rfl
  rcases (s.k.proc np).trapframe with _ | ⟨pa, _⟩
  · rfl
  rcases (s.k.proc p).cwd with _ | ip
  · rfl
  have hset : s.withK (s.k.upd np fun q => q.filled (s.k.proc p).sz pa tf 0)
      = (s.withK (s.k.upd np fun q => q.filled (s.k.proc p).sz pa tf a0)).mapProc
          (onKids [np] (Proc.withA0 0)) := by
    rw [withK_upd, withK_upd, mapProc_mapProc]
    refine mapProc_congr fun j => ?_
    by_cases hj : j ∈ [np]
    · simp [onKids_mem hj, Proc.withA0, Proc.filled]
    · simp [onKids_not_mem hj]
  dsimp only
  rw [Act.bind_of (setProc_run _ _ _), Act.bind_of (setProc_run _ _ _), hset]
  refine (Commutes.bind (Commutes.each _ fun fd _ => ?_) fun _ =>
    (Commutes.idup ip).bind fun _ => Commutes.setProc fun q => ?_) _
  · refine Commutes.dupFile _ _ (fun q o => ?_) fun q => ?_
    · rw [hnp, hnp]
      rfl
    · rw [hnp]
      rfl
  · rw [hnp, hnp]
    rfl

theorem copyChild_a0 (p np : Slot N) (a0 : BitVec 64) {s u : KState N} :
    copyChild p np 0 s = some (true, u) ↔
      ∃ t, copyChild p np a0 s = some (true, t) ∧
        u = t.mapProc (onKids [np] (Proc.withA0 0)) := by
  unfold copyChild
  rw [Act.bind_of (getProc_run p s), Act.bind_of (getProc_run p s), Act.bind_of (getProc_run np s),
    Act.bind_of (getProc_run np s)]
  cases (s.k.proc p).pagetable with
  | none => exact iff_of_false (fun h => by cases h) fun ⟨_, h, _⟩ => by cases h
  | some old =>
    cases (s.k.proc np).pagetable with
    | none => exact iff_of_false (fun h => by cases h) fun ⟨_, h, _⟩ => by cases h
    | some new =>
      dsimp only
      rw [Act.bind_run, Act.bind_run]
      cases uvmcopy old new (s.k.proc p).sz s with
      | none => exact iff_of_false (fun h => by cases h) fun ⟨_, h, _⟩ => by cases h
      | some r =>
        obtain ⟨⟨new, ok⟩, s1⟩ := r
        dsimp only [Option.bind_some]
        rw [Act.bind_of (setProc_run _ _ _), Act.bind_of (setProc_run _ _ _)]
        cases ok with
        | true =>
          rw [if_pos rfl, if_pos rfl, Act.bind_run, Act.bind_run, copyRest_a0 p np a0]
          cases copyRest p np a0 _ with
          | none => exact iff_of_false (fun h => by cases h) fun ⟨_, h, _⟩ => by cases h
          | some r =>
            constructor
            · intro h
              cases h
              exact ⟨r.2, rfl, rfl⟩
            · rintro ⟨t, h, rfl⟩
              cases h
              rfl
        | false =>
          have hno : ∀ t v : KState N, (do freeproc np; return false) t ≠ some (true, v) := by
            intro t v h
            obtain ⟨_, _, -, h⟩ := Act.bind_some.mp h
            cases h
          exact iff_of_false (hno _ _) fun ⟨_, h, _⟩ => hno _ _ h

theorem Created.a0_iff {p np : Slot N} (a0 : BitVec 64) {s u : KState N} :
    Created p np 0 s u ↔
      ∃ t, Created p np a0 s t ∧ u = t.mapProc (onKids [np] (Proc.withA0 0)) := by
  constructor
  · rintro ⟨s1, u2, e1, e2, e3⟩
    obtain ⟨s2, h2, rfl⟩ := (copyChild_a0 p np a0).mp e2
    obtain ⟨t, h3, rfl⟩ := (Commutes.release _).some.mp e3
    exact ⟨t, ⟨s1, s2, e1, h2, h3⟩, rfl⟩
  · rintro ⟨t, ⟨s1, s2, e1, e2, e3⟩, rfl⟩
    exact ⟨s1, _, e1, (copyChild_a0 p np a0).mpr ⟨s2, e2, rfl⟩,
      (Commutes.release _).some.mpr ⟨t, e3, rfl⟩⟩

theorem publish_eq (t : KState N) (p np : Slot N) :
    t.withK ((t.k.upd np fun q => { q with parent := some p }).upd np
      fun q => { q with state := .runnable }) = t.mapProc (onKids [np] (Proc.published p)) := by
  rw [upd_upd, ← withK_upd]
  rfl

/-! ## both routines in terms of `Created` -/

theorem fork_created {p : Slot N} {s u : KState N} {pid : CInt} :
    fork p s = some (some pid, u) ↔
      ∃ np t, Created p np 0 s t ∧ .wait ∉ t.held ∧ pid = (t.k.proc np).pid ∧
        u = t.mapProc (onKids [np] (Proc.published p)) := by
  constructor
  · intro e
    obtain ⟨r, s1, e1, e⟩ := Act.bind_some.mp e
    cases r with
    | none => cases e
    | some np =>
      obtain ⟨ok, s2, e2, e⟩ := Act.bind_some.mp e
      cases ok with
      | false =>
        obtain ⟨_, _, -, e⟩ := Act.bind_some.mp e
        cases e
      | true =>
        obtain ⟨_, _, e3, e⟩ := Act.bind_some.mp e
        cases e3
        obtain ⟨_, t, e3, e⟩ := Act.bind_some.mp e
        obtain ⟨_, s4, e4, e⟩ := Act.bind_some.mp e
        obtain ⟨_, _, e5, e⟩ := Act.bind_some.mp e
        cases e5
        obtain ⟨_, s5, e5, e⟩ := Act.bind_some.mp e
        obtain ⟨_, s6, e6, e⟩ := Act.bind_some.mp e
        obtain ⟨_, _, e7, e⟩ := Act.bind_some.mp e
        cases e7
        obtain ⟨_, s7, e7, e⟩ := Act.bind_some.mp e
        cases e
        have h5 := locked_some e4 e5
        have h7 := locked_some e6 e7
        obtain ⟨hw, h4⟩ := acquire_some.mp e4
        have h6 := (acquire_some.mp e6).2
        have ht := (release_some.mp e3).2
        refine ⟨np, t, ⟨s1, s2, e1, e2, e3⟩, hw, ?_, ?_⟩
        · rw [ht]
        · rw [h7, h6, h5, h4]
          exact publish_eq t p np
  · rintro ⟨np, t, ⟨s1, s2, e1, e2, e3⟩, hw, rfl, rfl⟩
    have ht := release_some.mp e3
    have hnp : .proc np ∉ t.held := by
      rw [ht.2]
      exact Finset.notMem_erase _ _
    unfold fork
    rw [Act.bind_of e1]
    dsimp only
    rw [Act.bind_of e2, if_pos rfl, Act.bind_of (getProc_run np s2), Act.bind_of e3]
    rw [critical_run t hw, critical_run_withK t _ hnp]
    refine congrArg some (Prod.ext ?_ (publish_eq t p np))
    show some (s2.k.proc np).pid = some (t.k.proc np).pid
    rw [ht.2]

theorem forknLoop_created {p : Slot N} {m : Nat} {kids : List (Slot N)} {pl : List CInt}
    {s u : KState N} {r : List (Slot N) × List CInt} :
    forknLoop p (m + 1) kids pl s = some (some r, u) ↔
      ∃ np t, Created p np (kids.length + 1) s t ∧
        forknLoop p m (kids ++ [np]) (pl ++ [(t.k.proc np).pid]) t = some (some r, u) := by
  have hpid : ∀ {np s1 s2 t}, copyChild p np (kids.length + 1) s1 = some (true, s2) →
      release (.proc np) s2 = some ((), t) → (t.k.proc np).pid = (s1.k.proc np).pid := by
    intro np s1 s2 t e2 e3
    obtain ⟨-, rfl⟩ := release_some.mp e3
    rcases copyChild_spec e2 with ⟨h, -⟩ | ⟨-, _, _, _, _, _, _, _, h2⟩
    · cases h
    · show (s2.k.proc np).pid = _
      rw [h2.here]
      rfl
  constructor
  · intro e
    obtain ⟨a, s1, e1, e⟩ := Act.bind_some.mp e
    cases a with
    | none =>
      obtain ⟨_, _, -, e⟩ := Act.bind_some.mp e
      cases e
    | some np =>
      obtain ⟨_, _, e2, e⟩ := Act.bind_some.mp e
      cases e2
      obtain ⟨ok, s2, e2, e⟩ := Act.bind_some.mp e
      cases ok with
      | false =>
        obtain ⟨_, _, -, e⟩ := Act.bind_some.mp e
        cases e
      | true =>
        obtain ⟨_, t, e3, e⟩ := Act.bind_some.mp e
        refine ⟨np, t, ⟨s1, s2, e1, e2, e3⟩, ?_⟩
        rw [hpid e2 e3]
        exact e
  · rintro ⟨np, t, ⟨s1, s2, e1, e2, e3⟩, e⟩
    rw [hpid e2 e3] at e
    rw [forknLoop, Act.bind_of e1]
    dsimp only
    rw [Act.bind_of (getProc_run np s1), Act.bind_of e2, if_pos rfl, Act.bind_of e3]
    exact e

theorem forknLoop_extends {p : Slot N} {m : Nat} {kids kids' : List (Slot N)} {pl pl' : List CInt}
    {s u : KState N} (e : forknLoop p m kids pl s = some (some (kids', pl'), u)) :
    ∃ new ps, kids' = kids ++ new ∧ pl' = pl ++ ps := by
  induction m generalizing kids pl s with
  | zero =>
    cases e
    exact ⟨[], [], (List.append_nil _).symm, (List.append_nil _).symm⟩
  | succ m ih =>
    obtain ⟨np, t, -, e⟩ := forknLoop_created.mp e
    obtain ⟨new, ps, rfl, rfl⟩ := ih e
    exact ⟨np :: new, _ :: ps, by rw [List.append_assoc]; rfl, by rw [List.append_assoc]; rfl⟩

/-- `m` calls of `fork` in a row; `none` if one of them fails -/
def forks (p : Slot N) : Nat → KM N (Option (List CInt))
  | 0 => return some []
  | m + 1 => do
    match ← fork p with
    | none => return none
    | some pid =>
      match ← forks p m with
      | none => return none
      | some pids => return some (pid :: pids)

theorem forks_created {p : Slot N} {m : Nat} {s u : KState N} {ps : List CInt} :
    forks p (m + 1) s = some (some ps, u) ↔
      ∃ pid rest t, ps = pid :: rest ∧ fork p s = some (some pid, t) ∧
        forks p m t = some (some rest, u) := by
  constructor
  · intro e
    obtain ⟨a, t, e1, e⟩ := Act.bind_some.mp e
    cases a with
    | none => cases e
    | some pid =>
      obtain ⟨b, v, e2, e⟩ := Act.bind_some.mp e
      cases b with
      | none => cases e
      | some rest =>
        cases e
        exact ⟨pid, rest, t, rfl, e1, e2⟩
  · rintro ⟨pid, rest, t, rfl, e1, e2⟩
    rw [forks, Act.bind_of e1]
    dsimp only
    rw [Act.bind_of e2]
    rfl

/-! ## the induction -/

/-- where the first loop of `forkn` stands: the caller and its children so far are in use -/
structure InLoop (p : Slot N) (kids : List (Slot N)) (s : KState N) : Prop where
  wait : .wait ∉ s.held
  caller : (s.k.proc p).state ≠ .unused
  notKid : p ∉ kids
  kids : ∀ j ∈ kids, (s.k.proc j).state ≠ .unused

theorem InLoop.next {p np : Slot N} {kids : List (Slot N)} {a0 : BitVec 64} {s t : KState N}
    (h : InLoop p kids s) (hb : Newborn np a0 s t) : np ∉ kids ∧ InLoop p (kids ++ [np]) t := by
  have hnp : np ∉ kids := fun hm => h.kids np hm hb.free
  have hp : p ≠ np := fun e => h.caller (e ▸ hb.free)
  refine ⟨hnp, ?_, ?_, ?_, ?_⟩
  · rw [hb.held]
    exact h.wait
  · rw [hb.other p hp]
    exact h.caller
  · rw [List.mem_append, List.mem_singleton]
    exact fun hm => hm.elim h.notKid hp
  · intro j hj
    rcases List.mem_append.mp hj with hj | hj
    · rw [hb.other j fun e => hnp (e ▸ hj)]
      exact h.kids j hj
    · rw [List.mem_singleton.mp hj, hb.state]
      exact fun e => by cases e

theorem asForked_state (p : Slot N) (q : Proc N) : (q.asForked p).state ≠ .unused := by
  intro e
  cases e

theorem mapProc_snoc {p np : Slot N} {kids : List (Slot N)} (hnp : np ∉ kids) (t : KState N) :
    ((t.mapProc (onKids kids (Proc.asForked p))).mapProc (onKids [np] (Proc.withA0 0))).mapProc
        (onKids [np] (Proc.published p))
      = t.mapProc (onKids (kids ++ [np]) (Proc.asForked p)) := by
  rw [mapProc_mapProc, mapProc_mapProc]
  refine mapProc_congr fun j => ?_
  by_cases hj : j = np
  · subst hj
    rw [onKids_mem (by simp), onKids_mem (by simp), onKids_not_mem hnp, onKids_mem (by simp)]
    rfl
  · have h1 : j ∉ [np] := by simpa using hj
    rw [onKids_not_mem h1, onKids_not_mem h1]
    by_cases hk : j ∈ kids
    · rw [onKids_mem hk, onKids_mem (List.mem_append_left _ hk)]
    · rw [onKids_not_mem hk, onKids_not_mem (by simp [hk, hj])]

/-- one `fork` after the earlier children are published, and one turn of the loop before -/
theorem fork_step {p : Slot N} {kids : List (Slot N)} {s v : KState N} {pid : CInt}
    (h : InLoop p kids s) :
    fork p (s.mapProc (onKids kids (Proc.asForked p))) = some (some pid, v) ↔
      ∃ np t, Created p np (kids.length + 1) s t ∧ pid = (t.k.proc np).pid ∧
        v = t.mapProc (onKids (kids ++ [np]) (Proc.asForked p)) := by
  rw [fork_created]
  refine exists_congr fun np => ?_
  have hpid : ∀ t : KState N, np ∉ kids →
      (((t.mapProc (onKids kids (Proc.asForked p))).mapProc
        (onKids [np] (Proc.withA0 0))).k.proc np).pid = (t.k.proc np).pid := by
    intro t hnp
    rw [mapProc_proc, mapProc_proc, onKids_mem (by simp), onKids_not_mem hnp]
    rfl
  constructor
  · rintro ⟨t0, hc0, -, rfl, rfl⟩
    obtain ⟨t1, hc1, rfl⟩ := (Created.a0_iff (kids.length + 1)).mp hc0
    obtain ⟨t, hc, rfl⟩ := (Created.onKids_iff (asForked_state p) h.kids h.notKid).mp hc1
    have hnp := (h.next hc.newborn).1
    exact ⟨t, hc, hpid t hnp, mapProc_snoc hnp t⟩
  · rintro ⟨t, hc, rfl, rfl⟩
    obtain ⟨hnp, hl⟩ := h.next hc.newborn
    have hc1 := (Created.onKids_iff (asForked_state p) h.kids h.notKid).mpr ⟨t, hc, rfl⟩
    exact ⟨_, (Created.a0_iff _).mpr ⟨_, hc1, rfl⟩, hl.wait, (hpid t hnp).symm,
      (mapProc_snoc hnp t).symm⟩

/-- `m` forks, from a state whose children are already published, do what the first loop of `forkn`
does with `m` to go and the children to be published -/
theorem forks_iff_forknLoop {p : Slot N} (m : Nat) {kids : List (Slot N)} (pl ps : List CInt)
    {s : KState N} (u : KState N) (h : InLoop p kids s) :
    forks p m (s.mapProc (onKids kids (Proc.asForked p))) = some (some ps, u) ↔
      ∃ new t, forknLoop p m kids pl s = some (some (kids ++ new, pl ++ ps), t) ∧
        u = t.mapProc (onKids (kids ++ new) (Proc.asForked p)) := by
  induction m generalizing kids pl ps s u with
  | zero =>
    constructor
    · intro e
      cases e
      exact ⟨[], s, by rw [List.append_nil, List.append_nil]; rfl, by rw [List.append_nil]⟩
    · rintro ⟨new, t, e, rfl⟩
      have e' : some (some (kids, pl), s) = some (some (kids ++ new, pl ++ ps), t) := e
      simp only [Option.some.injEq, Prod.mk.injEq, List.self_eq_append_right] at e'
      obtain ⟨⟨rfl, rfl⟩, rfl⟩ := e'
      rw [List.append_nil]
      rfl
  | succ m ih =>
    rw [forks_created]
    constructor
    · rintro ⟨pid, rest, v, rfl, e1, e2⟩
      obtain ⟨np, t, hc, rfl, rfl⟩ := (fork_step h).mp e1
      obtain ⟨new, w, e3, rfl⟩ :=
        (ih (pl ++ [(t.k.proc np).pid]) _ _ (h.next hc.newborn).2).mp e2
      rw [List.append_assoc, List.append_assoc] at e3
      exact ⟨np :: new, w, forknLoop_created.mpr ⟨np, t, hc, e3⟩, by rw [List.append_assoc]; rfl⟩
    · rintro ⟨new, w, e, rfl⟩
      obtain ⟨np, t, hc, e⟩ := forknLoop_created.mp e
      obtain ⟨new', ps', hk, hp⟩ := forknLoop_extends e
      rw [List.append_assoc] at hk hp
      obtain rfl := List.append_cancel_left hk
      obtain rfl := List.append_cancel_left hp
      refine ⟨_, ps', _, rfl, (fork_step h).mpr ⟨np, t, hc, rfl, rfl⟩, ?_⟩
      refine (ih (pl ++ [(t.k.proc np).pid]) _ _ (h.next hc.newborn).2).mpr ⟨new', w, ?_, ?_⟩
      · rw [List.append_assoc, List.append_assoc]
        exact e
      · rw [List.append_assoc]

/-! ## the whole call -/

/-- the children `kids` that the first loop of `forkn` has made, from `s` to `t` -/
structure Offspring (kids : List (Slot N)) (pl : List CInt) (s t : KState N) : Prop where
  held : t.held = s.held
  nodup : kids.Nodup
  pids : pl = kids.map fun j => (t.k.proc j).pid
  free : ∀ j ∈ kids, (s.k.proc j).state = .unused
  used : ∀ j ∈ kids, (t.k.proc j).state ≠ .unused
  lock : ∀ j ∈ kids, .proc j ∉ s.held
  other : ∀ j, j ∉ kids → t.k.proc j = s.k.proc j
  regs : ∀ i (h : i < kids.length), (t.k.proc kids[i]).withA0 (i + 1) = t.k.proc kids[i]

theorem Offspring.nil (s : KState N) : Offspring [] [] s s where
  held := rfl
  nodup := List.nodup_nil
  pids := rfl
  free _ h := absurd h List.not_mem_nil
  used _ h := absurd h List.not_mem_nil
  lock _ h := absurd h List.not_mem_nil
  other _ _ := rfl
  regs _ h := absurd h (Nat.not_lt_zero _)

theorem Offspring.snoc {kids : List (Slot N)} {pl : List CInt} {s0 s t : KState N} {np : Slot N}
    (h : Offspring kids pl s0 s) (hb : Newborn np (kids.length + 1) s t) :
    Offspring (kids ++ [np]) (pl ++ [(t.k.proc np).pid]) s0 t := by
  have hnp : np ∉ kids := fun hm => h.used np hm hb.free
  have hkeep : ∀ j ∈ kids, t.k.proc j = s.k.proc j := fun j hj => hb.other j fun e => hnp (e ▸ hj)
  have hs : s.k.proc np = s0.k.proc np := h.other np hnp
  have hmem : ∀ {P : Slot N → Prop}, (∀ j ∈ kids, P j) → P np → ∀ j ∈ kids ++ [np], P j := by
    intro P h1 h2 j hj
    rcases List.mem_append.mp hj with hj | hj
    · exact h1 j hj
    · rw [List.mem_singleton.mp hj]
      exact h2
  refine ⟨hb.held.trans h.held, ?_, ?_, ?_, ?_, ?_, ?_, ?_⟩
  · rw [List.nodup_append]
    refine ⟨h.nodup, List.nodup_singleton np, fun a ha b hb e => hnp ?_⟩
    rw [← List.mem_singleton.mp hb, ← e]
    exact ha
  · rw [List.map_append, h.pids]
    exact congrArg (· ++ _) (List.map_congr_left fun j hj => by rw [hkeep j hj])
  · exact hmem h.free (hs ▸ hb.free)
  · exact hmem (fun j hj => hkeep j hj ▸ h.used j hj) (by rw [hb.state]; exact fun e => by cases e)
  · exact hmem h.lock (h.held ▸ hb.lock)
  · intro j hj
    rw [List.mem_append, List.mem_singleton, not_or] at hj
    rw [hb.other j hj.2, h.other j hj.1]
  · intro i hi
    by_cases hl : i < kids.length
    · rw [List.getElem_append_left hl, hkeep _ (List.getElem_mem hl)]
      exact h.regs i hl
    · have e : i = kids.length := by
        rw [List.length_append, List.length_singleton] at hi
        omega
      subst e
      rw [List.getElem_concat_length rfl]
      exact hb.regs

theorem forknLoop_offspring {p : Slot N} (m : Nat) {kids kids' : List (Slot N)}
    {pl pl' : List CInt} {s0 s t : KState N} (h : Offspring kids pl s0 s)
    (e : forknLoop p m kids pl s = some (some (kids', pl'), t)) :
    Offspring kids' pl' s0 t ∧ kids'.length = kids.length + m := by
  induction m generalizing kids pl s with
  | zero =>
    cases e
    exact ⟨h, rfl⟩
  | succ m ih =>
    obtain ⟨np, u, hc, e⟩ := forknLoop_created.mp e
    obtain ⟨h1, h2⟩ := ih (h.snoc hc.newborn) e
    refine ⟨h1, ?_⟩
    rw [h2, List.length_append, List.length_singleton]
    omega

theorem forknLink_run (p : Slot N) (kids : List (Slot N)) (s : KState N) (hn : kids.Nodup)
    (hl : ∀ j ∈ kids, .proc j ∉ s.held) :
    forknLink p kids s = some ((), s.mapProc (onKids kids (Proc.published p))) := by
  induction kids generalizing s with
  | nil => rw [mapProc_nil]; rfl
  | cons j kids ih =>
    obtain ⟨hj, hn⟩ := List.nodup_cons.mp hn
    have hfirst : (do
        setProc j fun q => { q with parent := some p }
        acquire (.proc j)
        setProc j fun q => { q with state := .runnable }
        release (.proc j)) s = some ((), s.mapProc (onKids [j] (Proc.published p))) := by
      rw [Act.then_nothing (release _), Act.bind_of (setProc_run _ _ _),
        critical_run_withK s _ (hl j List.mem_cons_self), ← publish_eq]
      rfl
    have hrest := ih (s.mapProc (onKids [j] (Proc.published p))) hn
      fun i hi => hl i (List.mem_cons_of_mem _ hi)
    unfold forknLink at hrest ⊢
    rw [Act.each_cons, Act.bind_of hfirst, hrest, mapProc_mapProc]
    refine congrArg (fun t => some ((), t)) (mapProc_congr fun i => ?_)
    by_cases hi : i = j
    · subst hi
      rw [onKids_not_mem hj, onKids_mem (by simp), onKids_mem (by simp)]
    · rw [onKids_not_mem (show i ∉ [j] by simpa using hi)]
      unfold onKids
      simp [hi]

/-- the saved `a0` of the `k`-th child of the list is `k`, counted from 1 -/
def numbered (kids : List (Slot N)) : Slot N → Proc N → Proc N := fun j q =>
  if j ∈ kids then q.withA0 (kids.idxOf j + 1) else q

theorem withA0_withA0 (q : Proc N) (a b : BitVec 64) : (q.withA0 a).withA0 b = q.withA0 b := by
  cases h : q.trapframe <;> simp [Proc.withA0, h]

/-- the children of `forkn` are those of `fork` with their numbers in `a0` -/
theorem Offspring.published_eq {kids : List (Slot N)} {pl : List CInt} {s t : KState N}
    (h : Offspring kids pl s t) (p : Slot N) :
    t.mapProc (onKids kids (Proc.published p))
      = (t.mapProc (onKids kids (Proc.asForked p))).mapProc (numbered kids) := by
  rw [mapProc_mapProc]
  refine mapProc_congr fun j => ?_
  unfold numbered
  by_cases hj : j ∈ kids
  · rw [if_pos hj, onKids_mem hj, onKids_mem hj]
    obtain ⟨i, hi, rfl⟩ := List.mem_iff_getElem.mp hj
    rw [h.nodup.idxOf_getElem i hi]
    unfold Proc.asForked
    rw [withA0_withA0]
    have hr := congrArg (Proc.published p) (h.regs i hi)
    exact hr.symm
  · rw [if_neg hj, onKids_not_mem hj, onKids_not_mem hj]

/-- `forkn` once its first loop is through: the children are published and the pids stored -/
theorem forkn_run {p : Slot N} {n : CInt} (pids : Nat) {s t : KState N} {kids : List (Slot N)}
    {pl : List CInt} (hn : 1 ≤ n.toInt ∧ n.toInt ≤ 16) (hw : .wait ∉ s.held)
    (hp : (s.k.proc p).state ≠ .unused)
    (e : forknLoop p n.toNat [] [] s = some (some (kids, pl), t)) :
    let u := t.mapProc (onKids kids (Proc.published p))
    (pids = 0 → forkn p n pids s = some (0, u)) ∧
    ∀ pt, (s.k.proc p).pagetable = some pt → pids ≠ 0 →
      forkn p n pids s = some (if (copyout pt pids (pl.flatMap le32)).2 then 0 else -1,
        u.mapProc (onKids [p] (Proc.withMem (copyout pt pids (pl.flatMap le32)).1))) := by
  intro u
  obtain ⟨ho, -⟩ := forknLoop_offspring n.toNat (Offspring.nil s) e
  have hpk : p ∉ kids := fun hm => hp (ho.free p hm)
  have hwt : .wait ∉ t.held := ho.held ▸ hw
  have hlocks : ∀ j ∈ kids, .proc j ∉ insert .wait t.held := by
    intro j hj hm
    rcases Finset.mem_insert.mp hm with hm | hm
    · cases hm
    · exact ho.lock j hj (ho.held ▸ hm)
  have e1 := acquire_run hwt
  have e2 := forknLink_run p kids (t.lock .wait) ho.nodup hlocks
  have e3 : release .wait _ = some ((), u) := locked_run (k := u.k) e1
  have hcall : forkn p n pids s = (if pids = 0 then pure 0 else do
      if ← copyoutTo p pids (pl.flatMap le32) then return 0 else return -1 : KM N Int) u := by
    unfold forkn
    rw [if_neg (by omega), Act.bind_of e]
    dsimp only
    rw [Act.bind_of e1, Act.bind_of e2]
    exact Act.bind_of e3 _
  refine ⟨fun h0 => ?_, fun pt hpt h0 => ?_⟩
  · rw [hcall, if_pos h0]
    rfl
  · have hup : (u.k.proc p).pagetable = some pt := by
      rw [mapProc_proc, onKids_not_mem hpk, ho.other p hpk]
      exact hpt
    rw [hcall, if_neg h0, Act.bind_of (copyoutTo_run hup), withK_upd]
    by_cases hok : (copyout pt pids (pl.flatMap le32)).2
    · rw [if_pos hok, if_pos hok]
      rfl
    · rw [if_neg hok, if_neg hok]
      rfl

/-- **`forkn` refines repeated `fork`.**  Its allocations succeed exactly if those of `n` forks in a
row do; then the two leave the same tables, but for the numbers in the children's `a0` and for the
pids in the caller's memory. -/
theorem forkn_refines_forks (p : Slot N) (n : CInt) (pids : Nat) (s : KState N)
    (hn : 1 ≤ n.toInt ∧ n.toInt ≤ 16) (hw : .wait ∉ s.held)
    (hp : (s.k.proc p).state ≠ .unused) :
    ((∃ kids pl t, forknLoop p n.toNat [] [] s = some (some (kids, pl), t)) ↔
      ∃ ps u, forks p n.toNat s = some (some ps, u)) ∧
    ∀ ps u, forks p n.toNat s = some (some ps, u) →
      ∃ kids : List (Slot N), kids.Nodup ∧ kids.length = n.toNat ∧
        ps = kids.map (fun j => (u.k.proc j).pid) ∧
        (∀ j ∈ kids, (s.k.proc j).state = .unused ∧ (u.k.proc j).parent = some p) ∧
        (pids = 0 → forkn p n pids s = some (0, u.mapProc (numbered kids))) ∧
        ∀ pt, (s.k.proc p).pagetable = some pt → pids ≠ 0 → pt.Mapped pids (4 * n.toNat) →
          ∃ pt', forkn p n pids s = some (0,
              (u.mapProc (numbered kids)).mapProc (onKids [p] (Proc.withMem pt'))) ∧
            pt'.Holds pids (ps.flatMap le32) ∧
            ∀ a, a < pids ∨ pids + 4 * n.toNat ≤ a → pt'.load a = pt.load a := by
  have hloop : InLoop p [] s :=
    ⟨hw, hp, List.not_mem_nil, fun _ h => absurd h List.not_mem_nil⟩
  have hiff : ∀ ps u, forks p n.toNat s = some (some ps, u) ↔
      ∃ kids t, forknLoop p n.toNat [] [] s = some (some (kids, ps), t) ∧
        u = t.mapProc (onKids kids (Proc.asForked p)) := by
    intro ps u
    have h := forks_iff_forknLoop n.toNat [] ps u hloop
    rw [mapProc_nil] at h
    exact h
  refine ⟨⟨fun ⟨kids, pl, t, e⟩ => ⟨pl, _, (hiff pl _).mpr ⟨kids, t, e, rfl⟩⟩, fun ⟨ps, u, e⟩ => ?_⟩,
    fun ps u e => ?_⟩
  · obtain ⟨kids, t, e, -⟩ := (hiff ps u).mp e
    exact ⟨kids, ps, t, e⟩
  · obtain ⟨kids, t, eloop, rfl⟩ := (hiff ps u).mp e
    obtain ⟨ho, hlen⟩ := forknLoop_offspring n.toNat (Offspring.nil s) eloop
    rw [List.length_nil, Nat.zero_add] at hlen
    obtain ⟨h0, h1⟩ := forkn_run pids hn hw hp eloop
    rw [ho.published_eq p] at h0 h1
    refine ⟨kids, ho.nodup, hlen, ?_, fun j hj => ⟨ho.free j hj, ?_⟩, h0, fun pt hpt hnz hm => ?_⟩
    · rw [ho.pids]
      refine List.map_congr_left fun j hj => ?_
      rw [mapProc_proc, onKids_mem hj]
      rfl
    · rw [mapProc_proc, onKids_mem hj]
      rfl
    · have hl : (ps.flatMap le32).length = 4 * n.toNat := by
        rw [flatMap_le32_length, ← hlen, ho.pids, List.length_map]
      obtain ⟨pt', hc, hh, -, hoth⟩ := copyout_holds (ps.flatMap le32) (hl ▸ hm)
      refine ⟨pt', ?_, hh, fun a ha => hoth a (hl ▸ ha)⟩
      rw [h1 pt hpt hnz, hc]
      rfl

/-- two children of the first process, their pids stored at address 256 -/
theorem forkn_refines_forks_sample : ∃ s ps u kids pt', sample 40 = some s ∧
    forks 0 2 s = some (some ps, u) ∧ kids.length = 2 ∧
    forkn 0 2 256 s
      = some (0, (u.mapProc (numbered kids)).mapProc (onKids [0] (Proc.withMem pt'))) ∧
    pt'.Holds 256 (ps.flatMap le32) := by
  have h : (sample 40).any (fun s => decide (.wait ∉ s.held ∧ (s.k.proc 0).state ≠ .unused) &&
      ((s.k.proc 0).pagetable.any fun pt => (List.range 8).all fun i => (pt.load (256 + i)).isSome) &&
      ((forks 0 2 s).any fun r => r.1.isSome)) = true := by decide +kernel
  obtain ⟨s, hs, h⟩ := (Option.any_eq_true _ _).mp h
  rw [Bool.and_eq_true, Bool.and_eq_true, decide_eq_true_iff] at h
  obtain ⟨⟨⟨hw, hp⟩, hm⟩, hf⟩ := h
  obtain ⟨pt, hpt, hm⟩ := (Option.any_eq_true _ _).mp hm
  obtain ⟨⟨_, u⟩, hf, h⟩ := (Option.any_eq_true _ _).mp hf
  obtain ⟨ps, rfl⟩ := Option.isSome_iff_exists.mp h
  have hm : pt.Mapped 256 (4 * (2 : CInt).toNat) := fun i hi =>
    List.all_eq_true.mp hm i (List.mem_range.mpr hi)
  obtain ⟨kids, -, hlen, -, -, -, hall⟩ :=
    (forkn_refines_forks 0 2 256 s (by decide) hw hp).2 ps u hf
  obtain ⟨pt', hrun, hh, -⟩ := hall pt hpt (by decide) hm
  exact ⟨s, ps, u, kids, pt', hs, hf, hlen, hrun, hh⟩

end Xv6
