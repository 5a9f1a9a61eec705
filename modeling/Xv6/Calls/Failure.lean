import Xv6.Kernel.Fit
import Xv6.Calls.Forkn

/-!
# `forkn` when it fails

`forkn` makes its children one after another; where one cannot be made, those before it are cleared.
Clearing a slot does not give its files and its directory back.

* `NoChild`, `FailsAt`   `allocproc` or `uvmcopy` fails, at once or after `i` children;
* `Ready.turn`   **from a state in order, a turn makes a child or leaves the tables alone**;
* `forknLoop_fails`   the whole loop;
* `forkn_restores_iff`   the tables are as before exactly if the first child could not be made;
* `forkn_all_or_nothing`   the value that `forkn` returns tells what has happened, unless the pids
  cannot be stored.
-/

namespace Xv6
variable {N : ℕ}

/-! ## a child that cannot be made -/

/-- `allocproc` or `uvmcopy` fails -/
def NoChild (p : Slot N) (a0 : BitVec 64) (s t : KState N) : Prop :=
  allocproc s = some (none, t) ∨
    ∃ np s1, allocproc s = some (some np, s1) ∧ copyChild p np a0 s1 = some (false, t)

/-- `c` children are there; `i` more can be made, and the next one cannot -/
def FailsAt (p : Slot N) : Nat → Nat → KState N → Prop
  | c, 0, s => ∃ t, NoChild p (c + 1) s t
  | c, i + 1, s => ∃ np t, Created p np (c + 1) s t ∧ FailsAt p (c + 1) i t

/-- a slot with the same state, files, directory and memory -/
structure Proc.Alike (q q' : Proc N) : Prop where
  state : q'.state = q.state
  ofile : q'.ofile = q.ofile
  cwd : q'.cwd = q.cwd
  trapframe : q'.trapframe = q.trapframe
  pagetable : q'.pagetable = q.pagetable
  sz : q'.sz = q.sz

theorem Proc.Alike.refl (q : Proc N) : q.Alike q := ⟨rfl, rfl, rfl, rfl, rfl, rfl⟩

theorem Proc.Alike.pages {q q' : Proc N} (h : q.Alike q') : q'.pages = q.pages := by
  unfold Proc.pages
  rw [h.trapframe, h.pagetable, h.sz]

/-- the reference counts, the slots and the free pages are as before -/
structure Kern.Restored (k k' : Kern N) : Prop where
  fref : k'.fref = k.fref
  iref : k'.iref = k.iref
  slot : ∀ j, (k.proc j).Alike (k'.proc j)
  free : (k'.freelist : Multiset ℕ) = k.freelist

theorem Kern.Restored.refl (k : Kern N) : k.Restored k := ⟨rfl, rfl, fun _ => .refl _, rfl⟩

theorem Kern.Fit.restored {k : Kern N} (h : k.Fit) {j : Slot N} {f : Proc N → Proc N}
    {fl : List Nat} (hj : (k.proc j).state = .unused)
    (hf : ∀ q, (f q).ofile = q.ofile ∧ (f q).cwd = q.cwd) (hfl : (fl : Multiset ℕ) = k.freelist) :
    k.Restored ((k.bump.withFree fl).upd j fun q => (f q).freed) := by
  obtain ⟨h1, h2, h3⟩ := h.unused j hj
  refine ⟨rfl, rfl, fun i => ?_, hfl⟩
  by_cases hi : i = j
  · rw [hi, Kern.upd_same]
    exact ⟨hj.symm, (hf _).1, (hf _).2, h1.symm, h2.symm, h3.symm⟩
  · rw [Kern.upd_ne _ _ hi]
    exact .refl _

theorem Kern.Restored.fit {k k' : Kern N} (h : k.Fit) (hr : k.Restored k') : k'.Fit := by
  have hown : k'.owned = k.owned := by
    unfold Kern.owned
    rw [hr.free]
    exact congrArg _ (Finset.sum_congr rfl fun j _ => (hr.slot j).pages)
  refine ⟨fun j pt hpt => ?_, ?_, fun j hj => ?_⟩
  · rw [(hr.slot j).sz]
    exact h.fits j pt ((hr.slot j).pagetable ▸ hpt)
  · rw [hown]
    exact h.free
  · rw [(hr.slot j).trapframe, (hr.slot j).pagetable, (hr.slot j).sz]
    exact h.unused j ((hr.slot j).state ▸ hj)

/-! ## one turn -/

/-- what is known once `np` is made -/
structure Bred (p np : Slot N) (s t : KState N) : Prop where
  ready : t.Ready p
  nextpid : t.k.nextpid = s.k.nextpid + 1
  pid : (t.k.proc np).pid = s.k.nextpid
  owned : t.k.owned = s.k.owned
  iref : ∃ ip, (s.k.proc p).cwd = some ip ∧ t.k.iref ip = s.k.iref ip + 1

/-- what is known after an attempt that failed -/
structure Failed (s t : KState N) : Prop where
  restored : s.k.Restored t.k
  noff : t.noff = t.held.card
  kmem : .kmem ∉ t.held
  locks : ∀ j, .proc j ∈ t.held → (s.k.proc j).state = .unused

/-- **from a state in order, a turn makes a child or leaves the tables alone** -/
theorem KState.Ready.turn {p : Slot N} {s : KState N} (h : s.Ready p) (a0 : BitVec 64) :
    (∃ np t, Created p np a0 s t ∧ Bred p np s t) ∨ ∃ t, NoChild p a0 s t ∧ Failed s t := by
  rcases h.allocproc with ⟨np, pa, pt, fl, hu, hs, hp, e⟩ | ⟨k', e, hk⟩
  · have hne : p ≠ np := fun hc => h.used (hc ▸ hu)
    rcases h.copyChild a0 hu hs hp with ⟨new', old, tf, ip, fl', hpar, -, k', e', hk, hfit, hown⟩ |
      ⟨fl', e', hfl⟩
    · refine Or.inl ⟨np, ⟨k', ∅, 0, s.env⟩, ⟨_, _, e, e', ?_⟩, ?_⟩
      · refine release_some.mpr ⟨⟨Finset.mem_singleton_self _, Nat.le_refl 1⟩, ?_⟩
        rw [Finset.erase_singleton]
        rfl
      · have hkp : k'.proc p = s.k.proc p := by
          rw [hk]
          exact Kern.upd_ne _ _ hne
        refine ⟨⟨hfit, ?_, ⟨old, tf, ip, ?_⟩, rfl, rfl⟩, ?_, ?_, hown, ip, hpar.cwd, ?_⟩
        · show (k'.proc p).state ≠ _
          rw [hkp]
          exact h.used
        · show k'.Parent (k'.proc p) old tf ip
          rw [hkp]
          refine ⟨hpar.pagetable, hpar.trapframe, hpar.cwd, hpar.space, fun fd hfd f hf => ?_⟩
          rw [hk]
          exact Nat.le_add_right_of_le (hpar.refs fd hfd f hf)
        · rw [hk]
          rfl
        · show (k'.proc np).pid = _
          rw [hk, Kern.upd_same]
          rfl
        · rw [hk]
          exact Function.update_self _ _ _
    · refine Or.inr ⟨_, Or.inr ⟨np, _, e, e'⟩, ?_⟩
      refine ⟨h.fit.restored (f := fun q => q.allocated s.k.nextpid pa pt) hu (fun _ => ⟨rfl, rfl⟩) hfl,
        rfl, ?_, fun j hj => ?_⟩
      · exact fun hm => by cases Finset.mem_singleton.mp hm
      · cases Finset.mem_singleton.mp hj
        exact hu
  · refine Or.inr ⟨_, Or.inl e, ?_⟩
    have hres : s.k.Restored k' := by
      rcases hk with rfl | ⟨j, fl, hu, rfl, hfl⟩
      · exact .refl _
      · exact h.fit.restored (f := id) hu (fun _ => ⟨rfl, rfl⟩) hfl
    exact ⟨hres, rfl, nofun, nofun⟩

theorem Created.unique {p np np' : Slot N} {a0 : BitVec 64} {s t t' : KState N}
    (h : Created p np a0 s t) (h' : Created p np' a0 s t') : np = np' ∧ t = t' := by
  obtain ⟨s1, s2, e1, e2, e3⟩ := h
  obtain ⟨s1', s2', e1', e2', e3'⟩ := h'
  cases e1.symm.trans e1'
  cases e2.symm.trans e2'
  cases e3.symm.trans e3'
  exact ⟨rfl, rfl⟩

theorem NoChild.unique {p : Slot N} {a0 : BitVec 64} {s t t' : KState N} (h : NoChild p a0 s t)
    (h' : NoChild p a0 s t') : t = t' := by
  rcases h with e | ⟨np, s1, e1, e2⟩ <;> rcases h' with e' | ⟨np', s1', e1', e2'⟩
  · cases e.symm.trans e'
    rfl
  · cases e.symm.trans e1'
  · cases e1.symm.trans e'
  · cases e1.symm.trans e1'
    cases e2.symm.trans e2'
    rfl

theorem Created.not_noChild {p np : Slot N} {a0 : BitVec 64} {s t t' : KState N}
    (h : Created p np a0 s t) (h' : NoChild p a0 s t') : False := by
  obtain ⟨s1, s2, e1, e2, -⟩ := h
  rcases h' with e | ⟨np', s1', e1', e2'⟩
  · cases e1.symm.trans e
  · cases e1.symm.trans e1'
    cases e2.symm.trans e2'

theorem KState.Ready.created {p np : Slot N} {s t : KState N} {a0 : BitVec 64} (h : s.Ready p)
    (hc : Created p np a0 s t) : Bred p np s t := by
  rcases h.turn a0 with ⟨np', t', hc', hb⟩ | ⟨t', hn, -⟩
  · obtain ⟨rfl, rfl⟩ := hc.unique hc'
    exact hb
  · exact (hc.not_noChild hn).elim

theorem KState.Ready.noChild {p : Slot N} {s t : KState N} {a0 : BitVec 64} (h : s.Ready p)
    (hn : NoChild p a0 s t) : Failed s t := by
  rcases h.turn a0 with ⟨np', t', hc, -⟩ | ⟨t', hn', hf⟩
  · exact (hc.not_noChild hn).elim
  · rw [hn.unique hn']
    exact hf

/-! ## the cleanup -/

theorem forknClean_ends {L : Finset (Lock N)} (hL : .kmem ∉ L) (kids : List (Slot N)) {k : Kern N}
    (h : k.Fit) (hn : kids.Nodup) (hl : ∀ j ∈ kids, .proc j ∉ L) :
    Ends L k (forknClean kids) fun _ L' k' => L' = L ∧ Cleared kids k k' := by
  refine Ends.clear (fun j k h hlj => ?_) kids h hn hl
  have hproc : ∀ f : Proc N → Proc N, (k.upd j f).proc j = f (k.proc j) := fun f => Kern.upd_same _ _ _
  apply Ends.acquire hlj
  apply Ends.setProc
  refine Ends.bind (freeproc_ends (L := insert (.proc j) L) ?_ ?_ ?_) ?_
  · exact fun hm => hL ((Finset.mem_insert.mp hm).resolve_left nofun)
  · rw [hproc]
    exact h.fits j
  · rw [hproc]
    exact h.free_slot j
  · rintro _ _ _ ⟨rfl, fl, rfl, he⟩
    apply Ends.last
    apply Ends.unlock hlj
    refine Ends.pure ⟨rfl, fl, ?_, ?_⟩
    · exact upd_upd (k.withFree fl) j (fun q => { q with state := .unused }) Proc.freed
    · rw [he, hproc]
      rfl

/-! ## the whole loop -/

/-- the children that `p` has made so far -/
structure Brood (p : Slot N) (kids : List (Slot N)) (s : KState N) : Prop where
  nodup : kids.Nodup
  used : ∀ j ∈ kids, (s.k.proc j).state ≠ .unused

theorem Brood.snoc {p np : Slot N} {kids : List (Slot N)} {s t : KState N} {a0 : BitVec 64}
    (h : Brood p kids s) (hc : Newborn np a0 s t) : Brood p (kids ++ [np]) t := by
  have hnp : np ∉ kids := fun hm => h.used np hm hc.free
  refine ⟨?_, fun j hj => ?_⟩
  · rw [List.nodup_append]
    refine ⟨h.nodup, List.nodup_singleton np, fun a ha b hb e => hnp ?_⟩
    rw [← List.mem_singleton.mp hb, ← e]
    exact ha
  · rcases List.mem_append.mp hj with hj | hj
    · rw [hc.other j fun e => hnp (e ▸ hj)]
      exact h.used j hj
    · rw [List.mem_singleton.mp hj, hc.state]
      nofun

theorem Created.loop {p np : Slot N} {kids : List (Slot N)} {s t : KState N}
    (h : Created p np (kids.length + 1) s t) (m : Nat) (pl : List CInt) :
    ∃ pid, forknLoop p (m + 1) kids pl s = forknLoop p m (kids ++ [np]) (pl ++ [pid]) t := by
  obtain ⟨s1, s2, e1, e2, e3⟩ := h
  refine ⟨(s1.k.proc np).pid, ?_⟩
  rw [forknLoop, Act.bind_of e1]
  dsimp only
  rw [Act.bind_of (getProc_run np s1), Act.bind_of e2, if_pos rfl, Act.bind_of e3]

theorem NoChild.loop {p : Slot N} {kids : List (Slot N)} {s t : KState N}
    (h : NoChild p (kids.length + 1) s t) (m : Nat) (pl : List CInt) :
    forknLoop p (m + 1) kids pl s = (do
      forknClean kids
      return none : KM N (Option (List (Slot N) × List CInt))) t := by
  rcases h with e | ⟨np, s1, e1, e2⟩
  · rw [forknLoop, Act.bind_of e]
  · rw [forknLoop, Act.bind_of e1]
    dsimp only
    rw [Act.bind_of (getProc_run np s1), Act.bind_of e2, if_neg (by decide)]

theorem forknLoop_noChild {p : Slot N} {kids : List (Slot N)} {s t : KState N} (h : s.Ready p)
    (hk : Brood p kids s) (hn : NoChild p (kids.length + 1) s t) (m : Nat) (pl : List CInt) :
    ∃ s', forknLoop p (m + 1) kids pl s = some (none, s') ∧ Cleared kids t.k s'.k ∧
      s.k.Restored t.k := by
  have hf := h.noChild hn
  have hclean := forknClean_ends hf.kmem kids (hf.restored.fit h.fit) hk.nodup fun j hj hm =>
    hk.used j hj (hf.locks j hm)
  obtain ⟨_, L, k', e, rfl, hc⟩ := hclean.run hf.noff
  refine ⟨⟨k', t.held, t.held.card, t.env⟩, ?_, hc, hf.restored⟩
  rw [hn.loop m pl, Act.bind_of e]
  rfl

/-- **the first loop of `forkn` where the child after `i` cannot be made**: the count of the caller's
directory is `i` more, and if `i` is 0 only the children made before are gone -/
theorem forknLoop_fails {p : Slot N} (i : Nat) {m : Nat} {kids : List (Slot N)} {s : KState N}
    (pl : List CInt) (h : s.Ready p) (hk : Brood p kids s) (hf : FailsAt p kids.length i s)
    (hi : i < m) :
    ∃ s' ip, forknLoop p m kids pl s = some (none, s') ∧ (s.k.proc p).cwd = some ip ∧
      s'.k.iref ip = s.k.iref ip + i ∧
      (∀ j, j ∈ kids ∨ (s.k.proc j).state = .unused → (s'.k.proc j).state = .unused) ∧
      (i = 0 → ∃ k, s.k.Restored k ∧ Cleared kids k s'.k) := by
  induction i generalizing m kids s pl with
  | zero =>
    obtain ⟨t, hn⟩ := hf
    obtain ⟨m, rfl⟩ : ∃ m', m = m' + 1 := ⟨m - 1, by omega⟩
    obtain ⟨s', e, hc, hr⟩ := forknLoop_noChild h hk hn m pl
    obtain ⟨_, _, ip, hpar⟩ := h.parent
    refine ⟨s', ip, e, hpar.cwd, ?_, fun j hj => ?_, fun _ => ⟨t.k, hr, hc⟩⟩
    · rw [hc.iref, hr.iref]
      rfl
    · by_cases hjk : j ∈ kids
      · rw [hc.kid j hjk]
        rfl
      · rw [hc.other j hjk, (hr.slot j).state]
        exact hj.resolve_left hjk
  | succ i ih =>
    obtain ⟨np, t, hcr, hf⟩ := hf
    obtain ⟨m, rfl⟩ : ∃ m', m = m' + 1 := ⟨m - 1, by omega⟩
    have hb := h.created hcr
    have hnb := hcr.newborn
    have hk' := hk.snoc hnb
    obtain ⟨pid, hloop⟩ := hcr.loop m pl
    have hlen : (kids ++ [np]).length = kids.length + 1 := by rw [List.length_append, List.length_singleton]
    obtain ⟨s', ip, e, hcwd, hi', hun, -⟩ := ih (m := m) (pl ++ [pid]) hb.ready hk'
      (by rw [hlen]; exact hf) (by omega)
    have hne : p ≠ np := fun e => h.used (e ▸ hnb.free)
    rw [hnb.other p hne] at hcwd
    obtain ⟨ip', hcwd', hip⟩ := hb.iref
    cases hcwd.symm.trans hcwd'
    refine ⟨s', ip, by rw [hloop, e], hcwd, ?_, fun j hj => ?_, nofun⟩
    · rw [hi', hip]
      omega
    · by_cases hj' : j ∈ kids ++ [np]
      · exact hun j (Or.inl hj')
      · rw [List.mem_append, List.mem_singleton, not_or] at hj'
        refine hun j (Or.inr ?_)
        rw [hnb.other j hj'.2]
        exact hj.resolve_left hj'.1

/-! ## the reference counts and the slots after a failure -/

theorem Kern.Restored.of_cleared {k0 k k' : Kern N} (hr : k0.Restored k) (hc : Cleared [] k k') :
    k0.Restored k' := by
  have hproc : k'.proc = k.proc := funext fun j => hc.other j List.not_mem_nil
  refine ⟨hc.fref.trans hr.fref, hc.iref.trans hr.iref, fun j => ?_, ?_⟩
  · rw [hproc]
    exact hr.slot j
  · have hown := hc.owned
    unfold Kern.owned at hown
    rw [hproc] at hown
    exact (add_right_cancel hown).trans hr.free

/-- **A failed `forkn`.**  Where `allocproc` or `uvmcopy` fails, `forkn` returns -1; the reference
counts, the slots and the free pages are as before exactly if it failed for the first child. -/
theorem forkn_restores_iff {p : Slot N} {n : CInt} (pids : Nat) {s : KState N} {i : Nat}
    (hn : 1 ≤ n.toInt ∧ n.toInt ≤ 16) (h : s.Ready p) (hi : i < n.toNat) (hf : FailsAt p 0 i s) :
    ∃ s', forkn p n pids s = some (-1, s') ∧ (s.k.Restored s'.k ↔ i = 0) := by
  obtain ⟨s', ip, e, -, hip, -, h0⟩ := forknLoop_fails i [] h
    ⟨List.nodup_nil, fun _ hj => absurd hj List.not_mem_nil⟩ hf hi
  refine ⟨s', ?_, fun hr => ?_, fun hi0 => ?_⟩
  · unfold forkn
    rw [if_neg (by omega), Act.bind_of e]
    rfl
  · have := congrFun hr.iref ip
    omega
  · obtain ⟨k, hr, hc⟩ := h0 hi0
    exact hr.of_cleared hc

/-- with no free page, `forkn(2, 0)` fails for the first child -/
theorem forkn_restores_sample : ∃ s s', sample 0 = some s ∧ forkn 0 2 0 s = some (-1, s') ∧
    s.k.Restored s'.k := by
  have hrun : (sample 0).any (fun s => (allocproc s).any (fun r => r.1.isNone) &&
      decide (∀ j, (s.k.proc j).pagetable.all fun pt => (pt.flat 0).isSome) &&
      decide (∀ j, j ≠ 0 → (s.k.proc j).state = .unused)) = true := by decide +kernel
  obtain ⟨s, hs, hrun⟩ := (Option.any_eq_true _ _).mp hrun
  rw [Bool.and_eq_true, Bool.and_eq_true, decide_eq_true_iff, decide_eq_true_iff] at hrun
  obtain ⟨⟨halloc, hpage⟩, hone⟩ := hrun
  obtain ⟨⟨r, t⟩, e, hnone⟩ := (Option.any_eq_true _ _).mp halloc
  obtain rfl := Option.isNone_iff_eq_none.mp hnone
  have hready : s.Ready 0 := sample_ready (by decide) hs (fun j pt hpt hnil => by
    have := hpage j
    rw [hpt, Option.all_some, hnil] at this
    cases this) hone
  obtain ⟨s', e', hiff⟩ := forkn_restores_iff (n := 2) (i := 0) 0 (by decide) hready (by decide)
    ⟨t, Or.inl e⟩
  exact ⟨s, s', hs, e', hiff.mpr rfl⟩

/-- with pages for one child only, `forkn(2, 0)` returns -1, the reference count of the current directory
is too high, and the slot of the child that was cleared still points to it -/
theorem forkn_leaks : ∃ s s', sample 12 = some s ∧ forkn 0 2 0 s = some (-1, s') ∧
    s.k.iref 0 = 1 ∧ s'.k.iref 0 = 2 ∧ (s.k.proc 1).cwd = none ∧
    (s'.k.proc 1).state = .unused ∧ (s'.k.proc 1).cwd = some 0 := by
  have hrun : (sample 12).any (fun s => (forkn 0 2 0 s).any fun r => decide (r.1 = -1 ∧
      s.k.iref 0 = 1 ∧ r.2.k.iref 0 = 2 ∧ (s.k.proc 1).cwd = none ∧
      (r.2.k.proc 1).state = .unused ∧ (r.2.k.proc 1).cwd = some 0)) = true := by decide +kernel
  obtain ⟨s, hs, hrun⟩ := (Option.any_eq_true _ _).mp hrun
  obtain ⟨⟨r, s'⟩, e, hrun⟩ := (Option.any_eq_true _ _).mp hrun
  obtain ⟨rfl, hrun⟩ := of_decide_eq_true hrun
  exact ⟨s, s', hs, e, hrun⟩

/-! ## what the value of `forkn` tells -/

/-- a process that was not there before -/
def NewProc (s s' : KState N) (j : Slot N) : Prop :=
  (s.k.proc j).state = .unused ∧ (s'.k.proc j).state ≠ .unused

/-- `n` pids from `pid` on -/
def pidsFrom (pid : CInt) (n : Nat) : List CInt := (List.range n).map fun i => pid + .ofNat 32 i

theorem pidsFrom_length (pid : CInt) (n : Nat) : (pidsFrom pid n).length = n := by
  rw [pidsFrom, List.length_map, List.length_range]

theorem pidsFrom_succ (pid : CInt) (n : Nat) : pidsFrom pid (n + 1) = pid :: pidsFrom (pid + 1) n := by
  have hsucc : ∀ i : Nat, pid + .ofNat 32 (i + 1) = pid + 1 + .ofNat 32 i := by
    intro i
    rw [BitVec.add_assoc, BitVec.add_comm 1, BitVec.ofNat_add]
    rfl
  unfold pidsFrom
  rw [List.range_succ_eq_map, List.map_cons, List.map_map]
  refine congrArg₂ _ (BitVec.add_zero _) (List.map_congr_left fun i _ => hsucc i)

/-- with -1 there is no child; with 0 there are `n` children, and their pids are at `pids` in the order
in which they were given out -/
structure AllOrNothing (p : Slot N) (n : CInt) (pids : Nat) (s : KState N) (r : Int) (s' : KState N) :
    Prop where
  nothing : r = -1 → ∀ j, NewProc s s' j →
    (s'.k.proc j).state ≠ .runnable ∧ (s'.k.proc j).parent ≠ some p
  all : r = 0 → ∃ kids : List (Slot N), kids.Nodup ∧ kids.length = n.toNat ∧
    (∀ j, j ∈ kids ↔
      NewProc s s' j ∧ (s'.k.proc j).state = .runnable ∧ (s'.k.proc j).parent = some p) ∧
    (kids.map fun j => (s'.k.proc j).pid) = pidsFrom s.k.nextpid n.toNat ∧
    (pids ≠ 0 → ∃ pt, (s'.k.proc p).pagetable = some pt ∧
      pt.Holds pids ((kids.map fun j => (s'.k.proc j).pid).flatMap le32))

theorem forknLoop_total {p : Slot N} (m : Nat) {kids : List (Slot N)} {s : KState N}
    (pl : List CInt) (h : s.Ready p) (hk : Brood p kids s) :
    (∃ i < m, FailsAt p kids.length i s) ∨
    ∃ kids' t, forknLoop p m kids pl s = some (some (kids', pl ++ pidsFrom s.k.nextpid m), t) := by
  induction m generalizing kids s pl with
  | zero =>
    refine Or.inr ⟨kids, s, ?_⟩
    show some (some (kids, pl), s) = some (some (kids, pl ++ []), s)
    rw [List.append_nil]
  | succ m ih =>
    rcases h.turn (kids.length + 1) with ⟨np, t, hc, hb⟩ | ⟨t, hn, -⟩
    · have hlen : (kids ++ [np]).length = kids.length + 1 := by
        rw [List.length_append, List.length_singleton]
      rcases ih (pl ++ [s.k.nextpid]) hb.ready (hk.snoc hc.newborn) with ⟨i, hi, hf⟩ | ⟨kids', u, e⟩
      · rw [hlen] at hf
        exact Or.inl ⟨i + 1, by omega, np, t, hc, hf⟩
      · refine Or.inr ⟨kids', u, forknLoop_created.mpr ⟨np, t, hc, ?_⟩⟩
        rw [hb.pid, e, hb.nextpid, List.append_assoc, pidsFrom_succ]
        rfl
    · exact Or.inl ⟨0, by omega, t, hn⟩

/-- the children are published, and perhaps the caller's memory has changed -/
theorem Offspring.newProc {p : Slot N} {kids : List (Slot N)} {pl : List CInt} {s t : KState N}
    (h : Offspring kids pl s t) (hp : (s.k.proc p).state ≠ .unused) (s' : KState N)
    (hs : ∀ j, j ≠ p → s'.k.proc j = onKids kids (Proc.published p) j (t.k.proc j)) {j : Slot N} :
    (j ∈ kids → NewProc s s' j ∧ (s'.k.proc j).state = .runnable ∧ (s'.k.proc j).parent = some p ∧
      (s'.k.proc j).pid = (t.k.proc j).pid) ∧ (NewProc s s' j → j ∈ kids) := by
  have hpk : p ∉ kids := fun hm => hp (h.free p hm)
  constructor
  · intro hj
    have hjp : j ≠ p := fun e => hpk (e ▸ hj)
    rw [hs j hjp, onKids_mem hj]
    refine ⟨⟨h.free j hj, ?_⟩, rfl, rfl, rfl⟩
    rw [hs j hjp, onKids_mem hj]
    nofun
  · rintro ⟨hu, hn⟩
    by_contra hj
    by_cases hjp : j = p
    · rw [hjp] at hu
      exact hp hu
    · rw [hs j hjp, onKids_not_mem hj, h.other j hj] at hn
      exact hn hu

theorem Offspring.all {p : Slot N} {n : CInt} {pids : Nat} {kids : List (Slot N)} {s t s' : KState N}
    (h : Offspring kids (pidsFrom s.k.nextpid n.toNat) s t)
    (hlen : kids.length = n.toNat) (hp : (s.k.proc p).state ≠ .unused)
    (hs : ∀ j, j ≠ p → s'.k.proc j = onKids kids (Proc.published p) j (t.k.proc j))
    (hmem : pids ≠ 0 → ∃ pt, (s'.k.proc p).pagetable = some pt ∧ pt.Holds pids
      ((pidsFrom s.k.nextpid n.toNat).flatMap le32)) :
    AllOrNothing p n pids s 0 s' := by
  have hkid := fun j => h.newProc hp s' hs (j := j)
  have hpids : (kids.map fun j => (s'.k.proc j).pid)
      = pidsFrom s.k.nextpid n.toNat := by
    rw [h.pids]
    exact List.map_congr_left fun j hj => ((hkid j).1 hj).2.2.2
  refine ⟨nofun, fun _ => ⟨kids, h.nodup, hlen, fun j => ?_, hpids, fun h0 => ?_⟩⟩
  · exact ⟨fun hj => ⟨((hkid j).1 hj).1, ((hkid j).1 hj).2.1, ((hkid j).1 hj).2.2.1⟩,
      fun hj => (hkid j).2 hj.1⟩
  · rw [hpids]
    exact hmem h0

/-- **All or nothing.**  `forkn` returns 0 or -1; the value tells whether there are `n` new children or
none, exactly if their pids can be stored or need not be. -/
theorem forkn_all_or_nothing {p : Slot N} (n : CInt) (pids : Nat) {s : KState N} (h : s.Ready p) :
    ∃ r s', forkn p n pids s = some (r, s') ∧ (r = 0 ∨ r = -1) ∧
      (AllOrNothing p n pids s r s' ↔
        ¬ (1 ≤ n.toInt ∧ n.toInt ≤ 16) ∨ (∃ i < n.toNat, FailsAt p 0 i s) ∨ pids = 0 ∨
          ∃ pt, (s.k.proc p).pagetable = some pt ∧ pt.Mapped pids (4 * n.toNat)) := by
  have hnone : ∀ s', (∀ j, (s.k.proc j).state = .unused → (s'.k.proc j).state = .unused) →
      AllOrNothing p n pids s (-1) s' := fun s' hs =>
    ⟨fun _ j hj => absurd (hs j hj.1) hj.2, nofun⟩
  by_cases hn : 1 ≤ n.toInt ∧ n.toInt ≤ 16
  · have hpos : 0 < n.toNat := by
      rw [BitVec.toInt_eq_toNat_cond] at hn
      split at hn <;> omega
    have hb : Brood p [] s := ⟨List.nodup_nil, fun _ hj => absurd hj List.not_mem_nil⟩
    rcases forknLoop_total n.toNat [] h hb with ⟨i, hi, hf⟩ | ⟨kids, t, e⟩
    · obtain ⟨s', ip, e, -, -, hun, -⟩ := forknLoop_fails i [] h hb hf hi
      refine ⟨-1, s', ?_, Or.inr rfl, iff_of_true (hnone s' fun j hj => hun j (Or.inr hj))
        (Or.inr (Or.inl ⟨i, hi, hf⟩))⟩
      unfold forkn
      rw [if_neg (by omega), Act.bind_of e]
      rfl
    · rw [List.nil_append] at e
      obtain ⟨ho, hlen⟩ := forknLoop_offspring n.toNat (Offspring.nil s) e
      rw [List.length_nil, Nat.zero_add] at hlen
      obtain ⟨hnull, hstore⟩ := forkn_run pids hn (by rw [h.held]; nofun) h.used e
      by_cases h0 : pids = 0
      · refine ⟨0, _, hnull h0, Or.inl rfl, iff_of_true ?_ (Or.inr (Or.inr (Or.inl h0)))⟩
        exact ho.all hlen h.used (fun _ _ => rfl) fun hnz => absurd h0 hnz
      · obtain ⟨pt, tf, ip, hpar⟩ := h.parent
        have hrun := hstore pt hpar.pagetable h0
        have hsize : ((pidsFrom s.k.nextpid n.toNat).flatMap le32).length = 4 * n.toNat := by
          rw [flatMap_le32_length, pidsFrom_length]
        have hok := (copyout_writes pt pids ((pidsFrom s.k.nextpid n.toNat).flatMap le32)).2
        rw [hsize] at hok
        have hother : ∀ pt' : PageTable, ∀ j, j ≠ p →
            ((t.mapProc (onKids kids (Proc.published p))).mapProc
              (onKids [p] (Proc.withMem pt'))).k.proc j
              = onKids kids (Proc.published p) j (t.k.proc j) := fun pt' j hj =>
          onKids_not_mem (fun hm => hj (List.mem_singleton.mp hm)) _
        by_cases hm : pt.Mapped pids (4 * n.toNat)
        · obtain ⟨pt', hc, hh, -⟩ := copyout_holds ((pidsFrom s.k.nextpid n.toNat).flatMap le32)
            (hsize ▸ hm)
          rw [hc] at hrun
          refine ⟨0, _, hrun, Or.inl rfl, iff_of_true ?_
            (Or.inr (Or.inr (Or.inr ⟨pt, hpar.pagetable, hm⟩)))⟩
          refine ho.all hlen h.used (hother pt') fun _ => ⟨pt', ?_, hh⟩
          rw [mapProc_proc, onKids_mem (List.mem_singleton.mpr rfl)]
          rfl
        · rw [if_neg fun hc => hm (hok.mp hc)] at hrun
          refine ⟨-1, _, hrun, Or.inr rfl, iff_of_false (fun ha => ?_) ?_⟩
          · obtain ⟨j, hj⟩ := List.exists_mem_of_length_pos (l := kids) (hlen ▸ hpos)
            obtain ⟨hnew, hrunnable, -⟩ := (ho.newProc h.used _ (hother _)).1 hj
            exact (ha.nothing rfl j hnew).1 hrunnable
          · rintro (hc | ⟨i, hi, hf⟩ | hc | ⟨pt', hpt', hm'⟩)
            · exact hc hn
            · obtain ⟨s', ip, e', -⟩ := forknLoop_fails i [] h hb hf hi
              cases e.symm.trans e'
            · exact h0 hc
            · cases hpar.pagetable.symm.trans hpt'
              exact hm hm'
  · refine ⟨-1, s, ?_, Or.inr rfl, iff_of_true (hnone s fun _ hj => hj) (Or.inl hn)⟩
    unfold forkn
    rw [if_pos (by omega)]
    rfl

/-- two children of the first process, their pids stored at address 256 -/
theorem forkn_all_or_nothing_sample : ∃ s s', sample 40 = some s ∧
    forkn 0 2 256 s = some (0, s') ∧ AllOrNothing 0 2 256 s 0 s' := by
  have hrun : (sample 40).any (fun s => (forkn 0 2 256 s).any (fun r => decide (r.1 = 0)) &&
      decide (∀ j, (s.k.proc j).pagetable.all fun pt =>
        (pt.flat 0).isSome && (List.range 8).all fun i => (pt.load (256 + i)).isSome) &&
      decide (∀ j, j ≠ 0 → (s.k.proc j).state = .unused)) = true := by decide +kernel
  obtain ⟨s, hs, hrun⟩ := (Option.any_eq_true _ _).mp hrun
  rw [Bool.and_eq_true, Bool.and_eq_true, decide_eq_true_iff, decide_eq_true_iff] at hrun
  obtain ⟨⟨hcall, hpage⟩, hone⟩ := hrun
  obtain ⟨⟨r, s'⟩, e, hr⟩ := (Option.any_eq_true _ _).mp hcall
  obtain rfl : r = 0 := of_decide_eq_true hr
  have hpt : ∀ j pt, (s.k.proc j).pagetable = some pt →
      (pt.flat 0).isSome ∧ (List.range 8).all (fun i => (pt.load (256 + i)).isSome) = true := by
    intro j pt hpt
    have := hpage j
    rw [hpt, Option.all_some, Bool.and_eq_true] at this
    exact this
  have hready : s.Ready 0 := sample_ready (by decide) hs (fun j pt h hnil => by
    have := (hpt j pt h).1
    rw [hnil] at this
    cases this) hone
  obtain ⟨r, u, e', -, hiff⟩ := forkn_all_or_nothing 2 256 hready
  cases e.symm.trans e'
  obtain ⟨pt, _, _, hpar⟩ := hready.parent
  refine ⟨s, s', hs, e, hiff.mpr (Or.inr (Or.inr (Or.inr ⟨pt, hpar.pagetable, fun i hi => ?_⟩)))⟩
  exact List.all_eq_true.mp (hpt 0 pt hpar.pagetable).2 i (List.mem_range.mpr hi)

/-- with `pids` outside of the caller's memory, `forkn` returns -1 and there is a new process -/
theorem forkn_not_nothing : ∃ s s', sample 40 = some s ∧ forkn 0 2 0x10000 s = some (-1, s') ∧
    NewProc s s' 1 ∧ (s'.k.proc 1).state = .runnable ∧ (s'.k.proc 1).parent = some 0 := by
  have hrun : (sample 40).any (fun s => (forkn 0 2 0x10000 s).any fun r => decide (r.1 = -1 ∧
      (s.k.proc 1).state = .unused ∧ (r.2.k.proc 1).state = .runnable ∧
      (r.2.k.proc 1).parent = some 0)) = true := by decide +kernel
  obtain ⟨s, hs, hrun⟩ := (Option.any_eq_true _ _).mp hrun
  obtain ⟨⟨r, s'⟩, e, hrun⟩ := (Option.any_eq_true _ _).mp hrun
  obtain ⟨rfl, h1, h2, h3⟩ := of_decide_eq_true hrun
  exact ⟨s, s', hs, e, ⟨h1, by rw [h2]; nofun⟩, h2, h3⟩

end Xv6
