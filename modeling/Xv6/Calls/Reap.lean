import Xv6.Kernel.Commute
import Xv6.Kernel.Block

/-!
# `waitall` is a loop of `wait`s

With every child of `p` a zombie, `wait` reaps the first of them in table order, and `waitall`
collects all of them in one pass and frees them in a second loop.

* `waitallScan_run`   a pass without interference leaves the tables alone;
* `wait_reaps_first`, `wait_no_child`   one call of `wait`;
* `waits_run`   calls of `wait` until `-1`, by induction on the children;
* `waitall_run`   one call of `waitall`;
* `waitall_refines_waits`  the two agree.
-/

namespace Xv6
variable {N : ℕ}

/-! ## `waitall` -/

theorem waitallScan_run (p : Slot N) (s : KState N) (hl : ∀ j, .proc j ∉ s.held)
    (js : List (Slot N)) {pre : List (Slot N)} {l : Pass N} (h : Pass.Inv p s.k pre l) :
    ∃ l', waitallScan p js l s = some (l', s) ∧ Pass.Inv p s.k (pre ++ js) l' := by
  induction js generalizing pre l with
  | nil => exact ⟨l, rfl, by rwa [List.append_nil]⟩
  | cons j js ih =>
    obtain ⟨l', h1, h2⟩ := ih (h.visit j)
    refine ⟨l', ?_, by rwa [List.append_assoc] at h2⟩
    have e1 := acquire_run (hl j)
    have e2 := locked_run (k := s.k) e1
    rw [waitallScan, Act.bind_of e1, Act.bind_of (getProc_run j _)]
    exact (Act.bind_of e2 _).trans h1

/-- freeing children one after the other, without their locks -/
def freeAll (kids : List (Slot N)) : KM N Unit := Act.each freeproc kids

theorem freeAll_block (kids : List (Slot N)) : CodeBlock (freeAll kids) := CodeBlock.each CodeBlock.freeproc kids

theorem freeAll_other {kids : List (Slot N)} {s t : KState N} (e : freeAll kids s = some ((), t))
    {i : Slot N} (hi : i ∉ kids) : t.k.proc i = s.k.proc i := by
  induction kids generalizing s with
  | nil =>
    cases e
    rfl
  | cons j kids ih =>
    obtain ⟨_, s1, e1, e⟩ := Act.bind_some.mp e
    rw [List.mem_cons, not_or] at hi
    rw [ih e hi.2, (freeproc_spec e1).other i hi.1]

theorem waitallFree_run (kids : List (Slot N)) (s : KState N) (hs : LeafFree s)
    (hl : ∀ j, .proc j ∉ s.held) : waitallFree kids s = freeAll kids s := by
  induction kids generalizing s with
  | nil => rfl
  | cons j kids ih =>
    have h1 : (do acquire (.proc j); freeproc j; release (.proc j)) s = freeproc j s := by
      rw [Act.then_nothing (release _), (CodeBlock.freeproc j).locked hs (.inr ⟨j, rfl⟩) (hl j),
        ← Act.then_nothing]
    unfold waitallFree freeAll at ih ⊢
    rw [Act.each_cons, Act.each_cons]
    refine (Act.bind_run _ _ s).trans ?_
    rw [h1, Act.bind_run, CodeBlock.freeproc j s hs]
    cases exec (freeproc j) s.k with
    | none => rfl
    | some r => exact ih (s.withK r.2) hs hl

theorem tryCopyout_run {p : Slot N} {va : Nat} {src : List Byte} {s : KState N} {pt : PageTable}
    (h : (s.k.proc p).pagetable = some pt) (hva : va ≠ 0) :
    tryCopyout p va src s
      = some ((), s.mapProc (onKids [p] (Proc.withMem (copyout pt va src).1))) := by
  unfold tryCopyout
  rw [if_neg hva, Act.bind_of (copyoutTo_run h), withK_upd]
  rfl

/-- `waitall` on zombie children frees them and delivers their statuses -/
theorem waitall_run {p : Slot N} {s : KState N} {pt : PageTable} {nAddr statusesAddr : Nat}
    (hheld : s.held = ∅) (hpt : (s.k.proc p).pagetable = some pt) (hp : p ∉ s.k.children p)
    (hz : ∀ j ∈ s.k.children p, (s.k.proc j).state = .zombie)
    (hn : nAddr ≠ 0) (hst : statusesAddr ≠ 0) :
    waitall p nAddr statusesAddr s = (freeAll (s.k.children p) s).map fun r =>
      (0, r.2.mapProc (onKids [p] (Proc.withMem (delivered pt nAddr statusesAddr
        ((s.k.children p).map fun j => (s.k.proc j).xstate))))) := by
  have hs : LeafFree s := by simp [LeafFree, hheld]
  have e1 : acquire .wait s = some ((), s.lock .wait) := acquire_run (by simp [hheld])
  have hl1 : ∀ j, .proc j ∉ (s.lock .wait).held := by simp [KState.lock, hheld]
  obtain ⟨l, hscan, hinv⟩ := waitallScan_run p (s.lock .wait) hl1 (slots N)
    (Pass.Inv.start p s.k fun _ => 0)
  rw [List.nil_append] at hinv
  have hdone : l.allDone = true := hinv.done.mpr hz
  have hto : l.toFree = s.k.children p := hinv.free hdone
  have hcount : l.count = (s.k.children p).length := hinv.count
  have hstat : (List.range l.count).map l.statuses
      = (s.k.children p).map fun j => (s.k.proc j).xstate := hinv.stat hdone
  unfold waitall
  rw [Act.bind_of e1, Act.bind_of (Act.read_run _ _), waitallLoop, Act.bind_of hscan]
  by_cases hnone : s.k.children p = []
  · have hf : l.foundChild = false := by
      rw [← Bool.not_eq_true, hinv.found]
      exact not_not.mpr hnone
    rw [hf, if_pos (show (!false) = true from rfl), hnone]
    have e2 : release .wait (s.lock .wait) = some ((), s) := locked_run (k := s.k) e1
    rw [Act.bind_of e2, Act.bind_of (tryCopyout_run hpt hn)]
    rfl
  · have hf : l.foundChild = true := hinv.found.mpr hnone
    rw [hf, if_neg (show ¬ (!true) = true from Bool.noConfusion), if_pos hdone, hto]
    have hs1 : LeafFree (s.lock .wait) := hs.lock (.inl rfl)
    have hfree := freeAll_block (s.k.children p) s hs
    rw [Act.bind_run, waitallFree_run _ _ hs1 hl1, freeAll_block _ _ hs1, hfree,
      KState.lock_k]
    cases hr : exec (freeAll (s.k.children p)) s.k with
    | none => rfl
    | some r =>
      rw [hr] at hfree
      have hpt1 : ((s.withK r.2).k.proc p).pagetable = some pt := by
        rw [freeAll_other hfree hp]
        exact hpt
      have hpt2 : (((s.withK r.2).mapProc (onKids [p] (Proc.withMem
          (copyout pt nAddr (le32 (.ofNat 32 l.count))).1))).k.proc p).pagetable
            = some (copyout pt nAddr (le32 (.ofNat 32 l.count))).1 := by
        rw [mapProc_proc, onKids_mem (List.mem_singleton.mpr rfl)]
        rfl
      dsimp only [Option.map_some, Option.bind_some]
      rw [Act.bind_of (locked_run e1), Act.bind_of (tryCopyout_run hpt1 hn), Act.bind_of (tryCopyout_run hpt2 hst)]
      refine congrArg (fun t => some ((0 : Int), t)) ?_
      rw [mapProc_mapProc]
      unfold statusBytes delivered
      rw [hstat, List.length_map, hcount]
      refine mapProc_congr fun j => ?_
      by_cases hj : j ∈ [p]
      · rw [onKids_mem hj, onKids_mem hj, onKids_mem hj]
        rfl
      · rw [onKids_not_mem hj, onKids_not_mem hj, onKids_not_mem hj]

/-! ## `wait` -/

/-- the search of `wait` passes over slots that are not children -/
theorem waitScan_skip {p : Slot N} {addr msg : Nat} (s : KState N) (pre js : List (Slot N))
    (hk : Bool) (h : ∀ j ∈ pre, (s.k.proc j).parent ≠ some p) :
    waitScan p addr msg (pre ++ js) hk s = waitScan p addr msg js hk s := by
  induction pre with
  | nil => rfl
  | cons j pre ih =>
    rw [List.forall_mem_cons] at h
    rw [List.cons_append, waitScan, Act.bind_of (getProc_run j s), if_neg h.1, ih h.2]

theorem wait_no_child {p : Slot N} {addr msg : Nat} {s : KState N} (hw : .wait ∉ s.held)
    (h : s.k.children p = []) : wait p addr msg s = some (none, s) := by
  have e1 := acquire_run hw
  have hno : ∀ j ∈ slots N, (s.k.proc j).parent ≠ some p := by
    intro j hj hc
    have hm : j ∈ s.k.children p := List.mem_filter.mpr ⟨hj, decide_eq_true hc⟩
    rw [h] at hm
    exact List.not_mem_nil hm
  have hscan : waitScan p addr msg (slots N) false (s.lock .wait)
      = some (.inr false, s.lock .wait) := by
    rw [← List.append_nil (slots N), waitScan_skip (s.lock .wait) (slots N) [] false hno]
    rfl
  have e2 : release .wait (s.lock .wait) = some ((), s) := locked_run (k := s.k) e1
  unfold wait
  rw [Act.bind_of e1, Act.bind_of (Act.read_run _ _), waitLoop, Act.bind_of hscan]
  dsimp only
  rw [Act.bind_of (show waitGivesUp p false (s.lock .wait) = some (true, s.lock .wait) from rfl),
    if_pos rfl, Act.bind_of e2]
  rfl

/-- `wait` reaps the first child in the table if it is a zombie -/
theorem wait_reaps_first {p j : Slot N} {addr msg : Nat} {s : KState N} {pre post : List (Slot N)}
    (hheld : s.held = ∅) (hsl : slots N = pre ++ j :: post)
    (hpre : ∀ i ∈ pre, (s.k.proc i).parent ≠ some p) (hj : (s.k.proc j).parent = some p)
    (hz : (s.k.proc j).state = .zombie) : wait p addr msg s = waitReap p j addr msg s := by
  have hs : LeafFree s := by simp [LeafFree, hheld]
  have e1 : acquire .wait s = some ((), s.lock .wait) := acquire_run (by simp [hheld])
  have e2 : acquire (.proc j) (s.lock .wait) = some ((), (s.lock .wait).lock (.proc j)) :=
    acquire_run (by simp [KState.lock, hheld])
  have hs2 : LeafFree ((s.lock .wait).lock (.proc j)) := (hs.lock (.inl rfl)).lock (.inr ⟨j, rfl⟩)
  unfold wait
  rw [Act.bind_of e1, Act.bind_of (Act.read_run _ _), waitLoop, Act.bind_run, hsl,
    waitScan_skip (s.lock .wait) pre _ false hpre, waitScan, Act.bind_of (getProc_run j _),
    KState.lock_k, if_pos hj, Act.bind_of e2, Act.bind_of (getProc_run j _), KState.lock_k,
    KState.lock_k, if_pos hz, Act.bind_run,
    CodeBlock.waitReap p j addr msg _ hs2, CodeBlock.waitReap p j addr msg s hs, KState.lock_k,
    KState.lock_k]
  cases exec (waitReap p j addr msg) s.k with
  | none => rfl
  | some r =>
    dsimp only [Option.map_some, Option.bind_some]
    rw [Act.bind_of (locked_run e2), Act.bind_of (locked_run e1)]
    rfl

theorem waitReap_run {p j : Slot N} {addr : Nat} {s : KState N} {pt pt' : PageTable} (hjp : j ≠ p)
    (hpt : (s.k.proc p).pagetable = some pt) (haddr : addr ≠ 0)
    (hc : copyout pt addr (le32 (s.k.proc j).xstate) = (pt', true)) :
    waitReap p j addr 0 s = (freeproc j s).map fun r =>
      (some (s.k.proc j).pid, r.2.mapProc (onKids [p] (Proc.withMem pt'))) := by
  have hcomm : Commutes (onKids [p] (Proc.withMem pt')) (freeproc j) :=
    Commutes.freeproc (onKids_not_mem (by simpa using hjp))
  have e1 : tryCopyout p 0 (bytes (s.k.proc j).exitMsg (strlen (s.k.proc j).exitMsg 32 + 1)) s
      = some ((), s) := by
    unfold tryCopyout
    rw [if_pos rfl]
    rfl
  have e2 : storeStatus p addr (s.k.proc j).xstate s
      = some (true, s.mapProc (onKids [p] (Proc.withMem pt'))) := by
    unfold storeStatus
    rw [if_neg haddr, copyoutTo_run hpt, hc, withK_upd]
    rfl
  unfold waitReap
  rw [Act.bind_of (getProc_run j s), Act.bind_of e1, Act.bind_of e2, if_pos rfl, Act.bind_run,
    hcomm s]
  cases freeproc j s with
  | none => rfl
  | some r => rfl

/-! ## `wait` until -1 -/

/-- calls `wait(addr, 0)` until it returns -1, at most `f` times, and collects the statuses it finds
at `addr` -/
def waits (p : Slot N) (addr : Nat) : Nat → KM N (List CInt)
  | 0 => Act.stop
  | f + 1 => do
    match ← wait p addr 0 with
    | none => return []
    | some _ =>
      let x ← Act.read fun s => (s.k.proc p).pagetable.bind fun pt => pt.load32 addr
      let xs ← waits p addr f
      return x.getD 0 :: xs

theorem slots_nodup : (slots N).Nodup := List.nodup_finRange N

theorem children_freed {p j : Slot N} {s t : KState N} {kids : List (Slot N)}
    (hk : s.k.children p = j :: kids) (h : Edit j s t (s.k.proc j).freed) :
    t.k.children p = kids := by
  have hnd : (j :: kids).Nodup := hk ▸ slots_nodup.filter _
  have hf : ∀ i, ((t.k.proc i).parent = some p) ↔ (s.k.proc i).parent = some p ∧ i ≠ j := by
    intro i
    by_cases hi : i = j
    · subst hi
      rw [h.here]
      exact iff_of_false (fun e => by cases e) fun e => e.2 rfl
    · rw [h.other i hi]
      exact (and_iff_left hi).symm
  have h1 : t.k.children p = (s.k.children p).filter (· ≠ j) := by
    unfold Kern.children
    rw [List.filter_filter]
    refine List.filter_congr fun i _ => ?_
    rw [decide_eq_decide.mpr (hf i), Bool.decide_and, Bool.and_comm]
  rw [h1, hk, List.filter_cons_of_neg (by simp)]
  exact List.filter_eq_self.mpr fun i hi => decide_eq_true fun e => (List.nodup_cons.mp hnd).1 (e ▸ hi)

theorem mapProc_withMem_self {p : Slot N} {s : KState N} {pt : PageTable}
    (h : (s.k.proc p).pagetable = some pt) : s.mapProc (onKids [p] (Proc.withMem pt)) = s := by
  rw [← withK_upd]
  have : s.k.upd p (Proc.withMem pt) = s.k := by
    unfold Kern.upd
    have hq : (s.k.proc p).withMem pt = s.k.proc p := by
      unfold Proc.withMem
      rw [← h]
    rw [hq, Function.update_eq_self]
  rw [this]
  rfl

theorem mapProc_withMem_twice (p : Slot N) (pt pt' : PageTable) (s : KState N) :
    (s.mapProc (onKids [p] (Proc.withMem pt))).mapProc (onKids [p] (Proc.withMem pt'))
      = s.mapProc (onKids [p] (Proc.withMem pt')) := by
  rw [mapProc_mapProc]
  refine mapProc_congr fun j => ?_
  by_cases hj : j ∈ [p]
  · rw [onKids_mem hj, onKids_mem hj, onKids_mem hj]
    rfl
  · rw [onKids_not_mem hj, onKids_not_mem hj, onKids_not_mem hj]

/-- a change of the caller's memory is not seen in the other fields -/
theorem withMem_fields {γ : Type} (f : Proc N → γ) (hf : ∀ q pt, f (Proc.withMem pt q) = f q)
    (p : Slot N) (pt : PageTable) (s : KState N) (i : Slot N) :
    f ((s.mapProc (onKids [p] (Proc.withMem pt))).k.proc i) = f (s.k.proc i) := by
  rw [mapProc_proc]
  unfold onKids
  split
  · exact hf _ _
  · rfl

theorem children_withMem (p q : Slot N) (pt : PageTable) (s : KState N) :
    (s.mapProc (onKids [q] (Proc.withMem pt))).k.children p = s.k.children p := by
  unfold Kern.children
  refine List.filter_congr fun i _ => ?_
  rw [withMem_fields Proc.parent (fun _ _ => rfl)]

/-- **Calls of `wait` until -1** reap the children in table order. -/
theorem waits_run {p : Slot N} {addr : Nat} (haddr : addr ≠ 0) (kids : List (Slot N)) {f : Nat}
    {s : KState N} {pt : PageTable} (hheld : s.held = ∅) (hk : s.k.children p = kids)
    (hz : ∀ j ∈ kids, (s.k.proc j).state = .zombie) (hp : p ∉ kids)
    (hpt : (s.k.proc p).pagetable = some pt) (hm : pt.Mapped addr 4) (hf : kids.length < f) :
    ∃ pt', (∀ a, a < addr ∨ addr + 4 ≤ a → pt'.load a = pt.load a) ∧
      waits p addr f s = (freeAll kids s).map fun r =>
        (kids.map fun j => (s.k.proc j).xstate, r.2.mapProc (onKids [p] (Proc.withMem pt'))) := by
  induction kids generalizing f s pt with
  | nil =>
    obtain ⟨f, rfl⟩ : ∃ g, f = g + 1 := ⟨f - 1, by simp at hf; omega⟩
    refine ⟨pt, fun _ _ => rfl, ?_⟩
    rw [waits, Act.bind_of (wait_no_child (by simp [hheld]) hk)]
    show some ([], s) = some ([], s.mapProc _)
    rw [mapProc_withMem_self hpt]
  | cons j kids ih =>
    obtain ⟨f, rfl⟩ : ∃ g, f = g + 1 := ⟨f - 1, by simp at hf; omega⟩
    rw [List.mem_cons, not_or] at hp
    rw [List.forall_mem_cons] at hz
    obtain ⟨pre, post, hsl, hpre, hj, -⟩ := List.filter_eq_cons_iff.mp hk
    have hj : (s.k.proc j).parent = some p := of_decide_eq_true hj
    have hpre : ∀ i ∈ pre, (s.k.proc i).parent ≠ some p := fun i hi h => hpre i hi (decide_eq_true h)
    obtain ⟨pt1, hc, hh, hmap, hoth⟩ := copyout_holds (le32 (s.k.proc j).xstate) hm
    have hwait : wait p addr 0 s = _ := (wait_reaps_first hheld hsl hpre hj hz.1).trans
      (waitReap_run (Ne.symm hp.1) hpt haddr hc)
    rw [waits, Act.bind_run, hwait]
    show ∃ pt', _ ∧ _ = Option.map _ (Option.bind (freeproc j s) fun r => freeAll kids r.2)
    cases e1 : freeproc j s with
    | none => exact ⟨pt1, hoth, rfl⟩
    | some r =>
      obtain ⟨_, s1⟩ := r
      have h1 := freeproc_spec e1
      have hkeep : ∀ i ∈ kids, s1.k.proc i = s.k.proc i := by
        have hnd : (j :: kids).Nodup := hk ▸ slots_nodup.filter _
        exact fun i hi => h1.other i fun e => (List.nodup_cons.mp hnd).1 (e ▸ hi)
      have hx : ∀ i ∈ kids, ((s1.mapProc (onKids [p] (Proc.withMem pt1))).k.proc i).xstate
          = (s.k.proc i).xstate := by
        intro i hi
        rw [withMem_fields Proc.xstate (fun _ _ => rfl), hkeep i hi]
      have hpt1 : ((s1.mapProc (onKids [p] (Proc.withMem pt1))).k.proc p).pagetable = some pt1 := by
        rw [mapProc_proc, onKids_mem (List.mem_singleton.mpr rfl)]
        rfl
      obtain ⟨pt', hl, hrun⟩ := ih (f := f) (s := s1.mapProc (onKids [p] (Proc.withMem pt1)))
        (h1.held.trans hheld) ((children_withMem p p pt1 s1).trans (children_freed hk h1))
        (fun i hi => by rw [withMem_fields Proc.state (fun _ _ => rfl), hkeep i hi, hz.2 i hi])
        hp.2 hpt1 (hm.of_load hmap) (by simpa using hf)
      refine ⟨pt', fun a ha => (hl a ha).trans (hoth a ha), ?_⟩
      have hcomm : Commutes (onKids [p] (Proc.withMem pt1)) (freeAll kids) := by
        refine Commutes.each kids fun i hi => Commutes.freeproc (onKids_not_mem ?_)
        exact fun e => hp.2 (List.mem_singleton.mp e ▸ hi)
      have hload : pt1.load32 addr = some (s.k.proc j).xstate := hh.load32
      dsimp only [Option.map_some, Option.bind_some]
      rw [Act.bind_of (Act.read_run _ _), hpt1, Option.bind_some, hload, Act.bind_run, hrun, hcomm s1]
      cases freeAll kids s1 with
      | none => rfl
      | some r =>
        dsimp only [Option.map_some, Option.bind_some]
        rw [mapProc_withMem_twice, List.map_congr_left hx]
        rfl

/-- a process without its memory -/
def Proc.noMem (q : Proc N) : Proc N := { q with pagetable := none }

/-- **`waitall` refines a loop of `wait`s.**  With every child of the caller a zombie and mapped
buffers, both return or both stop; when they return, `waitall` has stored the number and the list of
the statuses the waits found, and the tables are the same but for what was written to the caller's
buffers. -/
theorem waitall_refines_waits (p : Slot N) (s : KState N) (pt : PageTable)
    (nAddr statusesAddr addr : Nat) (hheld : s.held = ∅) (hrun : (s.k.proc p).state = .running)
    (hpt : (s.k.proc p).pagetable = some pt)
    (hz : ∀ j ∈ s.k.children p, (s.k.proc j).state = .zombie)
    (hn : nAddr ≠ 0) (hst : statusesAddr ≠ 0) (haddr : addr ≠ 0)
    (hmn : pt.Mapped nAddr 4) (hms : pt.Mapped statusesAddr (4 * (s.k.children p).length))
    (hma : pt.Mapped addr 4) :
    ((waitall p nAddr statusesAddr s).isSome ↔ (waits p addr (N + 1) s).isSome) ∧
    ∀ r s1 xs s2, waitall p nAddr statusesAddr s = some (r, s1) →
      waits p addr (N + 1) s = some (xs, s2) →
      r = 0 ∧ xs = (s.k.children p).map (fun j => (s.k.proc j).xstate) ∧
      s1.mapProc (onKids [p] Proc.noMem) = s2.mapProc (onKids [p] Proc.noMem) ∧
      ∃ pt1 pt2, (s1.k.proc p).pagetable = some pt1 ∧ (s2.k.proc p).pagetable = some pt2 ∧
        pt1.Holds statusesAddr (xs.flatMap le32) ∧
        (nAddr + 4 ≤ statusesAddr ∨ statusesAddr + 4 * xs.length ≤ nAddr →
          pt1.load32 nAddr = some (.ofNat 32 xs.length)) ∧
        (∀ a, (a < nAddr ∨ nAddr + 4 ≤ a) →
          (a < statusesAddr ∨ statusesAddr + 4 * xs.length ≤ a) → pt1.load a = pt.load a) ∧
        ∀ a, a < addr ∨ addr + 4 ≤ a → pt2.load a = pt.load a := by
  have hp : p ∉ s.k.children p := by
    intro hm
    have := hz p hm
    rw [hrun] at this
    cases this
  have hlen : (s.k.children p).length < N + 1 := by
    have h1 : (s.k.children p).length ≤ (slots N).length := List.length_filter_le _ _
    rw [slots, List.length_finRange] at h1
    omega
  obtain ⟨pt2, hl2, h2⟩ := waits_run haddr _ hheld rfl hz hp hpt hma hlen
  have h1 := waitall_run (p := p) hheld hpt hp hz hn hst
  rw [h1, h2]
  cases freeAll (s.k.children p) s with
  | none => exact ⟨Iff.rfl, fun r s1 xs s2 e => by cases e⟩
  | some t =>
    refine ⟨Iff.rfl, fun r s1 xs s2 e1 e2 => ?_⟩
    cases e1
    cases e2
    have hxs : ((s.k.children p).map fun j => (s.k.proc j).xstate).length
        = (s.k.children p).length := List.length_map _
    have hd := delivered_spec hmn (hxs.symm ▸ hms)
    have hmem : p ∈ [p] := List.mem_singleton.mpr rfl
    refine ⟨rfl, rfl, ?_, _, pt2, ?_, ?_, hd.1, hd.2.1, hd.2.2, hl2⟩
    · rw [mapProc_mapProc, mapProc_mapProc]
      refine mapProc_congr fun j => ?_
      by_cases hj : j ∈ [p]
      · rw [onKids_mem hj, onKids_mem hj, onKids_mem hj, onKids_mem hj]
        rfl
      · rw [onKids_not_mem hj, onKids_not_mem hj, onKids_not_mem hj, onKids_not_mem hj]
    · rw [mapProc_proc, onKids_mem hmem]
      rfl
    · rw [mapProc_proc, onKids_mem hmem]
      rfl

/-- the first process with two children that have exited with 7 and -1 -/
def sampleZombies : Option (KState 3) := do
  let s ← sample 40
  let (_, s) ← forkn 0 2 0 s
  let k := s.k.upd 1 fun q => { q with state := .zombie, xstate := 7 }
  return s.withK (k.upd 2 fun q => { q with state := .zombie, xstate := -1 })

theorem waitall_refines_waits_sample : ∃ s r s1 xs s2, sampleZombies = some s ∧
    waitall 0 256 260 s = some (r, s1) ∧ waits 0 300 4 s = some (xs, s2) ∧
    r = 0 ∧ xs = [7, -1] ∧
    s1.mapProc (onKids [0] Proc.noMem) = s2.mapProc (onKids [0] Proc.noMem) := by
  have h : sampleZombies.any (fun s => decide (s.held = ∅ ∧ (s.k.proc 0).state = .running ∧
      s.k.children 0 = [1, 2] ∧ (∀ j ∈ s.k.children 0, (s.k.proc j).state = .zombie) ∧
      ((s.k.children 0).map fun j => (s.k.proc j).xstate) = [7, -1]) &&
      ((s.k.proc 0).pagetable.any fun pt => (List.range 64).all fun i => (pt.load (256 + i)).isSome) &&
      (waitall 0 256 260 s).isSome && (waits 0 300 4 s).isSome) = true := by decide +kernel
  obtain ⟨s, hs, h⟩ := (Option.any_eq_true _ _).mp h
  simp only [Bool.and_eq_true, decide_eq_true_iff] at h
  obtain ⟨⟨⟨⟨hheld, hrun, hkids, hz, hx⟩, hm⟩, h1⟩, h2⟩ := h
  obtain ⟨pt, hpt, hm⟩ := (Option.any_eq_true _ _).mp hm
  have hmap : ∀ va n, 256 ≤ va → va + n ≤ 320 → pt.Mapped va n := by
    intro va n h1 h2 i hi
    have := List.all_eq_true.mp hm (va + i - 256) (List.mem_range.mpr (by omega))
    rwa [show 256 + (va + i - 256) = va + i by omega] at this
  obtain ⟨⟨r, s1⟩, e1⟩ := Option.isSome_iff_exists.mp h1
  obtain ⟨⟨xs, s2⟩, e2⟩ := Option.isSome_iff_exists.mp h2
  obtain ⟨hr, hxs, heq, -⟩ := (waitall_refines_waits 0 s pt 256 260 300 hheld hrun hpt hz (by decide)
    (by decide) (by decide) (hmap _ _ (by decide) (by decide))
    (by rw [hkids]; exact hmap _ _ (by decide) (by decide)) (hmap _ _ (by decide) (by decide))).2
    r s1 xs s2 e1 e2
  exact ⟨s, r, s1, xs, s2, hs, e1, e2, hr, hxs.trans hx, heq⟩

end Xv6
