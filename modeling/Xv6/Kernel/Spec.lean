import Xv6.Kernel.Proc

/-!
# What the pieces of `proc.c` do to the tables

One lemma for each piece of code between two lock operations: which slots it changes and how.  Each
returns with the spinlocks it was called with, so its effect is a change of the tables alone
(`KState.withK`).

* `freeproc_spec`, `allocprocFound_spec`, `copyChild_spec`, `copyoutTo_spec`, `waitReap_spec`;
* `acquire_some`, `release_some`   the two lock operations, read backwards.
-/

namespace Xv6
variable {N : ℕ} {α β : Type}

def KState.withK (s : KState N) (k : Kern N) : KState N := { s with k := k }

@[simp] theorem KState.withK_k (s : KState N) (k : Kern N) : (s.withK k).k = k := rfl
@[simp] theorem KState.withK_held (s : KState N) (k : Kern N) : (s.withK k).held = s.held := rfl
@[simp] theorem KState.withK_noff (s : KState N) (k : Kern N) : (s.withK k).noff = s.noff := rfl
@[simp] theorem KState.withK_env (s : KState N) (k : Kern N) : (s.withK k).env = s.env := rfl
@[simp] theorem KState.withK_withK (s : KState N) (k k' : Kern N) :
    (s.withK k).withK k' = s.withK k' := rfl

theorem acquire_some {l : Lock N} {s s' : KState N} :
    acquire l s = some ((), s') ↔
      l ∉ s.held ∧ s' = { s with held := insert l s.held, noff := s.noff + 1 } := by
  unfold acquire
  split
  · rename_i h
    exact iff_of_false (by simp) fun hh => hh.1 h
  · rename_i h
    constructor
    · intro e
      cases e
      exact ⟨h, rfl⟩
    · rintro ⟨-, rfl⟩
      rfl

/-- the state after `acquire` -/
def KState.lock (s : KState N) (l : Lock N) : KState N :=
  { s with held := insert l s.held, noff := s.noff + 1 }

@[simp] theorem KState.lock_k (s : KState N) (l : Lock N) : (s.lock l).k = s.k := rfl

theorem acquire_run {l : Lock N} {s : KState N} (h : l ∉ s.held) :
    acquire l s = some ((), s.lock l) := acquire_some.mpr ⟨h, rfl⟩

theorem release_some {l : Lock N} {s s' : KState N} :
    release l s = some ((), s') ↔
      (l ∈ s.held ∧ 1 ≤ s.noff) ∧ s' = { s with held := s.held.erase l, noff := s.noff - 1 } := by
  unfold release
  split
  · rename_i h
    constructor
    · intro e
      cases e
      exact ⟨h, rfl⟩
    · rintro ⟨-, rfl⟩
      rfl
  · rename_i h
    exact iff_of_false (by simp) fun hh => h hh.1

theorem locked_some {l : Lock N} {s s1 s' : KState N} {k : Kern N}
    (h1 : acquire l s = some ((), s1)) (h3 : release l (s1.withK k) = some ((), s')) :
    s' = s.withK k := by
  obtain ⟨hl, rfl⟩ := acquire_some.mp h1
  obtain ⟨-, rfl⟩ := release_some.mp h3
  have he : (insert l s.held).erase l = s.held := Finset.erase_insert hl
  show KState.mk k ((insert l s.held).erase l) (s.noff + 1 - 1) s.env = _
  rw [he]
  rfl

theorem locked_run {l : Lock N} {s s1 : KState N} {k : Kern N}
    (h1 : acquire l s = some ((), s1)) : release l (s1.withK k) = some ((), s.withK k) := by
  obtain ⟨hl, rfl⟩ := acquire_some.mp h1
  refine release_some.mpr ⟨⟨Finset.mem_insert_self _ _, Nat.le_add_left 1 _⟩, ?_⟩
  have he : (insert l s.held).erase l = s.held := Finset.erase_insert hl
  show _ = KState.mk k ((insert l s.held).erase l) (s.noff + 1 - 1) s.env
  rw [he]
  rfl

theorem getProc_run (j : Slot N) (s : KState N) : getProc j s = some (s.k.proc j, s) := rfl

theorem setProc_run (j : Slot N) (f : Proc N → Proc N) (s : KState N) :
    setProc j f s = some ((), s.withK (s.k.upd j f)) := rfl

theorem upd_upd (k : Kern N) (j : Slot N) (f g : Proc N → Proc N) :
    (k.upd j f).upd j g = k.upd j fun q => g (f q) := by
  simp [Kern.upd]

/-! ## changes of one slot -/

/-- from `s` to `s'` slot `j` alone changes in the process table, to `q`; what changes besides is
outside of it -/
structure Edit (j : Slot N) (s s' : KState N) (q : Proc N) : Prop where
  held : s'.held = s.held
  noff : s'.noff = s.noff
  env : s'.env = s.env
  other : ∀ i, i ≠ j → s'.k.proc i = s.k.proc i
  here : s'.k.proc j = q

namespace Edit
variable {j : Slot N} {s t u : KState N} {q q' : Proc N}

theorem refl (j : Slot N) (s : KState N) : Edit j s s (s.k.proc j) :=
  ⟨rfl, rfl, rfl, fun _ _ => rfl, rfl⟩

theorem trans (h1 : Edit j s t q) (h2 : Edit j t u q') : Edit j s u q' where
  held := h2.held.trans h1.held
  noff := h2.noff.trans h1.noff
  env := h2.env.trans h1.env
  other i hi := (h2.other i hi).trans (h1.other i hi)
  here := h2.here

theorem of_proc (k : Kern N) (h : k.proc = s.k.proc) : Edit j s (s.withK k) (s.k.proc j) where
  held := rfl
  noff := rfl
  env := rfl
  other _ _ := congrFun h _
  here := congrFun h _

theorem mem {x : KM N α} {a : α} (hx : MemOnly x) (e : x s = some (a, t)) :
    Edit j s t (s.k.proc j) := by
  obtain ⟨g, hg⟩ := hx
  rw [hg s, Option.map_eq_some_iff] at e
  obtain ⟨r, -, e⟩ := e
  cases e
  exact of_proc _ rfl

theorem set (f : Proc N → Proc N) (e : setProc j f s = some ((), t)) :
    Edit j s t (f (s.k.proc j)) := by
  rw [setProc_run] at e
  cases e
  exact ⟨rfl, rfl, rfl, fun i hi => Kern.upd_ne _ _ hi, Kern.upd_same _ _ _⟩

theorem proc_eq (h : Edit j s t q) : t.k.proc = Function.update s.k.proc j q := by
  funext i
  by_cases hi : i = j
  · subst hi
    rw [Function.update_self, h.here]
  · rw [Function.update_of_ne hi, h.other i hi]

end Edit

/-! ## freeing and allocating -/

theorem freeproc_spec {j : Slot N} {s s' : KState N} (e : freeproc j s = some ((), s')) :
    Edit j s s' (s.k.proc j).freed := by
  obtain ⟨_, _, e1, e⟩ := Act.bind_some.mp e
  cases e1
  obtain ⟨_, _, e1, e⟩ := Act.bind_some.mp e
  have h1 : Edit j s _ _ := Edit.mem (freeTrapframe_memOnly _) e1
  obtain ⟨_, _, e1, e⟩ := Act.bind_some.mp e
  have h2 := h1.trans (Edit.mem (freeUserMem_memOnly _ _) e1)
  have h3 := h2.trans (Edit.set _ e)
  rwa [h2.here, h1.here] at h3

theorem allocpid_spec {s s' : KState N} {pid : CInt} (e : allocpid s = some (pid, s')) :
    pid = s.k.nextpid ∧ s' = s.withK { s.k with nextpid := s.k.nextpid + 1 } := by
  obtain ⟨_, s1, e1, e⟩ := Act.bind_some.mp e
  obtain ⟨_, _, e2, e⟩ := Act.bind_some.mp e
  cases e2
  obtain ⟨_, _, e2, e⟩ := Act.bind_some.mp e
  cases e2
  obtain ⟨_, s2, e2, e⟩ := Act.bind_some.mp e
  cases e
  have h := locked_some e1 e2
  obtain ⟨-, rfl⟩ := acquire_some.mp e1
  exact ⟨rfl, h⟩

/-- the record of a slot that `allocproc` delivers -/
def Proc.allocated (q : Proc N) (pid : CInt) (pa : Nat) (pt : PageTable) : Proc N :=
  { q with pid := pid, state := .used, trapframe := some (pa, junk), pagetable := some pt,
           context := [.forkret] }

/-- `allocproc` fills the slot it found or, if memory runs out, clears it -/
theorem allocprocFound_spec {j : Slot N} {s s' : KState N} {ok : Bool}
    (e : allocprocFound j s = some (ok, s')) :
    (ok = false ∧ Edit j s s' (s.k.proc j).freed) ∨
    (ok = true ∧ ∃ pa pt, Edit j s s' ((s.k.proc j).allocated s.k.nextpid pa pt)) := by
  obtain ⟨pid, _, e1, e⟩ := Act.bind_some.mp e
  obtain ⟨rfl, rfl⟩ := allocpid_spec e1
  obtain ⟨_, s2, e2, e⟩ := Act.bind_some.mp e
  obtain ⟨r, s3, e3, e⟩ := Act.bind_some.mp e
  have h1 : Edit j s (s.withK { s.k with nextpid := s.k.nextpid + 1 }) _ := .of_proc _ rfl
  have h2 := h1.trans (Edit.set _ e2)
  have h3 := h2.trans (Edit.mem kalloc_memOnly e3)
  rw [h2.here] at h3
  cases r with
  | none =>
    obtain ⟨_, s4, e4, e⟩ := Act.bind_some.mp e
    obtain ⟨_, s5, e5, e⟩ := Act.bind_some.mp e
    cases e
    have h4 := h3.trans (Edit.set _ e4)
    have h5 := h4.trans (freeproc_spec e5)
    rw [h4.here, h3.here] at h5
    exact .inl ⟨rfl, h5⟩
  | some pa =>
    obtain ⟨_, s4, e4, e⟩ := Act.bind_some.mp e
    obtain ⟨r, s5, e5, e⟩ := Act.bind_some.mp e
    have h4 := h3.trans (Edit.set _ e4)
    have h5 := h4.trans (Edit.mem (procPagetable_memOnly pa) e5)
    rw [h4.here, h3.here] at h5
    cases r with
    | none =>
      obtain ⟨_, s6, e6, e⟩ := Act.bind_some.mp e
      obtain ⟨_, s7, e7, e⟩ := Act.bind_some.mp e
      cases e
      have h6 := h5.trans (Edit.set _ e6)
      have h7 := h6.trans (freeproc_spec e7)
      rw [h6.here, h5.here] at h7
      exact .inl ⟨rfl, h7⟩
    | some pt =>
      obtain ⟨_, s6, e6, e⟩ := Act.bind_some.mp e
      cases e
      have h6 := h5.trans (Edit.set _ e6)
      rw [h5.here] at h6
      exact .inr ⟨rfl, pa, pt, h6⟩

/-- `allocproc` delivers a slot that was free, locked and filled -/
theorem allocprocScan_spec {js : List (Slot N)} {np : Slot N} {s s' : KState N}
    (e : allocprocScan js s = some (some np, s')) :
    (s.k.proc np).state = .unused ∧ .proc np ∉ s.held ∧
      ∃ pa pt, Edit np { s with held := insert (.proc np) s.held, noff := s.noff + 1 } s'
        ((s.k.proc np).allocated s.k.nextpid pa pt) := by
  induction js generalizing s with
  | nil => cases e
  | cons j js ih =>
    obtain ⟨_, s1, e1, e⟩ := Act.bind_some.mp e
    obtain ⟨hl, rfl⟩ := acquire_some.mp e1
    obtain ⟨_, _, e0, e⟩ := Act.bind_some.mp e
    cases e0
    dsimp only at e
    by_cases hu : (s.k.proc j).state = .unused
    · rw [if_pos hu] at e
      obtain ⟨ok, s2, e2, e⟩ := Act.bind_some.mp e
      rcases allocprocFound_spec e2 with ⟨rfl, -⟩ | ⟨rfl, pa, pt, h2⟩
      · obtain ⟨_, _, -, e⟩ := Act.bind_some.mp e
        cases e
      · cases e
        exact ⟨hu, hl, pa, pt, h2⟩
    · rw [if_neg hu] at e
      obtain ⟨_, s2, e2, e⟩ := Act.bind_some.mp e
      have h2 : s2 = s := locked_some (k := s.k) e1 e2
      rw [h2] at e
      exact ih e

theorem allocprocScan_head {j np : Slot N} {js : List (Slot N)} {s s' : KState N}
    (hu : (s.k.proc j).state = .unused) (e : allocprocScan (j :: js) s = some (some np, s')) :
    np = j := by
  obtain ⟨_, s1, e1, e⟩ := Act.bind_some.mp e
  obtain ⟨-, rfl⟩ := acquire_some.mp e1
  obtain ⟨_, _, e0, e⟩ := Act.bind_some.mp e
  cases e0
  dsimp only at e
  rw [if_pos hu] at e
  obtain ⟨ok, s2, e2, e⟩ := Act.bind_some.mp e
  cases ok with
  | true =>
    cases e
    rfl
  | false =>
    obtain ⟨_, _, -, e⟩ := Act.bind_some.mp e
    cases e

theorem userinit_spec {s s' : KState N} (e : userinit s = some ((), s')) :
    ∃ p pa pt q, (∃ s1, allocproc s = some (some p, s1)) ∧ (∀ x, x ≠ p → s'.k.proc x = s.k.proc x) ∧
      s'.k.proc p = q ∧ q = { (s.k.proc p).allocated s.k.nextpid pa pt with
        state := .runnable, sz := q.sz, pagetable := q.pagetable, trapframe := q.trapframe,
        name := q.name, cwd := q.cwd } := by
  obtain ⟨r, s1, e1, e⟩ := Act.bind_some.mp e
  cases r with
  | none => cases e
  | some p =>
    obtain ⟨-, -, pa, pt, h1⟩ := allocprocScan_spec e1
    obtain ⟨_, _, e0, e⟩ := Act.bind_some.mp e
    cases e0
    rw [show (s1.k.proc p).pagetable = some pt by rw [h1.here]; rfl,
      show (s1.k.proc p).trapframe = some (pa, junk) by rw [h1.here]; rfl] at e
    obtain ⟨pt', s2, e2, e⟩ := Act.bind_some.mp e
    obtain ⟨_, s3, e3, e⟩ := Act.bind_some.mp e
    obtain ⟨ip, s4, e4, e⟩ := Act.bind_some.mp e
    obtain ⟨_, s5, e5, e⟩ := Act.bind_some.mp e
    have h2 := h1.trans (Edit.mem (uvmfirst_memOnly _ _ _) e2)
    have h3 := h2.trans (Edit.set _ e3)
    have h4 : Edit p s3 s4 (s3.k.proc p) := by
      cases e4
      exact .of_proc _ rfl
    have h4 := h3.trans h4
    have h5 := h4.trans (Edit.set _ e5)
    obtain ⟨-, rfl⟩ := release_some.mp e
    refine ⟨p, pa, pt, _, ⟨s1, e1⟩, h5.other, rfl, ?_⟩
    show s5.k.proc p = _
    rw [h5.here, h4.here, h3.here, h2.here, h1.here]

/-! ## copying to a child -/

theorem filedup_spec {f : Nat} {s s' : KState N} (e : filedup f s = some ((), s')) (j : Slot N) :
    Edit j s s' (s.k.proc j) := by
  obtain ⟨_, s1, e1, e⟩ := Act.bind_some.mp e
  obtain ⟨_, _, e2, e⟩ := Act.bind_some.mp e
  cases e2
  dsimp only at e
  by_cases hr : s1.k.fref f < 1
  · rw [if_pos hr] at e
    cases e
  · rw [if_neg hr] at e
    obtain ⟨_, _, e2, e⟩ := Act.bind_some.mp e
    cases e2
    obtain rfl := locked_some e1 e
    obtain ⟨-, rfl⟩ := acquire_some.mp e1
    exact .of_proc _ rfl

theorem idup_spec {ip : Nat} {s s' : KState N} (e : idup ip s = some ((), s')) (j : Slot N) :
    Edit j s s' (s.k.proc j) := by
  obtain ⟨_, s1, e1, e⟩ := Act.bind_some.mp e
  obtain ⟨_, _, e2, e⟩ := Act.bind_some.mp e
  cases e2
  obtain rfl := locked_some e1 e
  obtain ⟨-, rfl⟩ := acquire_some.mp e1
  exact .of_proc _ rfl

theorem dupFiles_spec {ofile : Nat → Option Nat} {np : Slot N} (fds : List Nat) {s s' : KState N}
    (e : Act.each (dupFile ofile np) fds s = some ((), s')) :
    ∃ o, Edit np s s' { s.k.proc np with ofile := o } := by
  induction fds generalizing s with
  | nil =>
    cases e
    exact ⟨_, Edit.refl np _⟩
  | cons fd fds ih =>
    obtain ⟨_, s1, e1, e⟩ := Act.bind_some.mp e
    have h1 : ∃ o, Edit np s s1 { s.k.proc np with ofile := o } := by
      unfold dupFile at e1
      cases hf : ofile fd with
      | none =>
        rw [hf] at e1
        cases e1
        exact ⟨_, Edit.refl np _⟩
      | some f =>
        rw [hf] at e1
        obtain ⟨_, s2, e2, e1⟩ := Act.bind_some.mp e1
        have h2 := filedup_spec e2 np
        have h3 := h2.trans (Edit.set _ e1)
        rw [h2.here] at h3
        exact ⟨_, h3⟩
    obtain ⟨o1, h1⟩ := h1
    obtain ⟨o2, h2⟩ := ih e
    rw [h1.here] at h2
    exact ⟨o2, h1.trans h2⟩

/-- the record of the child once everything is copied; what decides over its life stays -/
def Proc.copied (q : Proc N) (pt : PageTable) (sz pa : Nat) (tf : Trapframe) (a0 : BitVec 64)
    (ofile : Nat → Option Nat) (cwd : Nat) (name : Nat → Byte) : Proc N :=
  { q.filled sz pa tf a0 with pagetable := some pt, ofile := ofile, cwd := some cwd, name := name }

theorem copyRest_spec {p np : Slot N} {a0 : BitVec 64} {s s' : KState N}
    (e : copyRest p np a0 s = some ((), s')) :
    ∃ pa tf o ip nm, Edit np s s'
      { (s.k.proc np).filled (s.k.proc p).sz pa tf a0 with
        ofile := o, cwd := some ip, name := nm } := by
  obtain ⟨_, _, e1, e⟩ := Act.bind_some.mp e
  cases e1
  obtain ⟨_, _, e1, e⟩ := Act.bind_some.mp e
  cases e1
  rcases h1 : (s.k.proc p).trapframe with _ | ⟨_, tf⟩
  · rw [h1] at e
    cases e
  rcases h2 : (s.k.proc np).trapframe with _ | ⟨pa, _⟩
  · rw [h1, h2] at e
    cases e
  rcases h3 : (s.k.proc p).cwd with _ | ip
  · rw [h1, h2, h3] at e
    cases e
  rw [h1, h2, h3] at e
  obtain ⟨_, s1, e1, e⟩ := Act.bind_some.mp e
  obtain ⟨_, s2, e2, e⟩ := Act.bind_some.mp e
  obtain ⟨_, s3, e3, e⟩ := Act.bind_some.mp e
  have h1 := Edit.set _ e1
  obtain ⟨o, h2⟩ := dupFiles_spec _ e2
  rw [h1.here] at h2
  have h2 := h1.trans h2
  have h3 := h2.trans (idup_spec e3 np)
  rw [h2.here] at h3
  have h4 := h3.trans (Edit.set _ e)
  rw [h3.here] at h4
  exact ⟨_, _, _, _, _, h4⟩

/-- the child gets the parent's memory, registers, files, directory and name, or is freed -/
theorem copyChild_spec {p np : Slot N} {a0 : BitVec 64} {s s' : KState N} {ok : Bool}
    (e : copyChild p np a0 s = some (ok, s')) :
    (ok = false ∧ Edit np s s' (s.k.proc np).freed) ∨
    (ok = true ∧ ∃ pt sz pa tf o ip nm,
      Edit np s s' ((s.k.proc np).copied pt sz pa tf a0 o ip nm)) := by
  obtain ⟨_, _, e1, e⟩ := Act.bind_some.mp e
  cases e1
  obtain ⟨_, _, e1, e⟩ := Act.bind_some.mp e
  cases e1
  cases h1 : (s.k.proc p).pagetable with
  | none =>
    rw [h1] at e
    cases e
  | some old =>
    cases h2 : (s.k.proc np).pagetable with
    | none =>
      rw [h1, h2] at e
      cases e
    | some new =>
      rw [h1, h2] at e
      obtain ⟨⟨new, ok⟩, s1, e1, e⟩ := Act.bind_some.mp e
      obtain ⟨_, s2, e2, e⟩ := Act.bind_some.mp e
      have h1 : Edit np s s1 _ := Edit.mem (uvmcopy_memOnly _ _ _) e1
      have h2 := h1.trans (Edit.set _ e2)
      rw [h1.here] at h2
      cases ok with
      | true =>
        obtain ⟨_, s3, e3, e⟩ := Act.bind_some.mp e
        cases e
        obtain ⟨pa, tf, o, ip, nm, h3⟩ := copyRest_spec e3
        rw [h2.here] at h3
        exact .inr ⟨rfl, _, _, pa, tf, o, ip, nm, h2.trans h3⟩
      | false =>
        obtain ⟨_, s3, e3, e⟩ := Act.bind_some.mp e
        cases e
        have h3 := h2.trans (freeproc_spec e3)
        rw [h2.here] at h3
        exact .inl ⟨rfl, h3⟩

/-! ## copying to the user -/

theorem copyoutTo_run {p : Slot N} {va : Nat} {src : List Byte} {s : KState N} {pt : PageTable}
    (h : (s.k.proc p).pagetable = some pt) :
    copyoutTo p va src s = some ((copyout pt va src).2,
      s.withK (s.k.upd p fun q => { q with pagetable := some (copyout pt va src).1 })) := by
  unfold copyoutTo
  rw [Act.bind_of (getProc_run p s), h]
  rfl

theorem copyoutTo_spec {p : Slot N} {va : Nat} {src : List Byte} {s s' : KState N} {ok : Bool}
    (e : copyoutTo p va src s = some (ok, s')) :
    ∃ pt, (s.k.proc p).pagetable = some pt ∧ ok = (copyout pt va src).2 ∧
      s' = s.withK (s.k.upd p fun q => { q with pagetable := some (copyout pt va src).1 }) := by
  obtain ⟨_, _, e1, e⟩ := Act.bind_some.mp e
  cases e1
  cases hpt : (s.k.proc p).pagetable with
  | none =>
    rw [hpt] at e
    cases e
  | some pt =>
    rw [hpt] at e
    obtain ⟨_, _, e1, e⟩ := Act.bind_some.mp e
    rw [setProc_run] at e1
    cases e1
    cases e
    exact ⟨pt, rfl, rfl, rfl⟩

theorem copyoutTo_edit {p : Slot N} {va : Nat} {src : List Byte} {s s' : KState N} {ok : Bool}
    (e : copyoutTo p va src s = some (ok, s')) :
    ∃ pt, Edit p s s' { s.k.proc p with pagetable := pt } := by
  obtain ⟨pt, -, -, rfl⟩ := copyoutTo_spec e
  exact ⟨_, Edit.set _ rfl⟩

theorem tryCopyout_edit {p : Slot N} {va : Nat} {src : List Byte} {s s' : KState N}
    (e : tryCopyout p va src s = some ((), s')) :
    ∃ pt, Edit p s s' { s.k.proc p with pagetable := pt } := by
  unfold tryCopyout at e
  by_cases hv : va = 0
  · rw [if_pos hv] at e
    cases e
    exact ⟨_, Edit.refl p _⟩
  · rw [if_neg hv] at e
    obtain ⟨ok, s1, e1, e2⟩ := Act.bind_some.mp e
    cases e2
    exact copyoutTo_edit e1

theorem storeStatus_edit {p : Slot N} {addr : Nat} {x : CInt} {s s' : KState N} {ok : Bool}
    (e : storeStatus p addr x s = some (ok, s')) :
    ∃ pt, Edit p s s' { s.k.proc p with pagetable := pt } := by
  unfold storeStatus at e
  by_cases hv : addr = 0
  · rw [if_pos hv] at e
    cases e
    exact ⟨_, Edit.refl p _⟩
  · rw [if_neg hv] at e
    exact copyoutTo_edit e

/-- `wait` on a zombie writes to the memory of its caller, and clears the slot unless the status
cannot be stored -/
theorem waitReap_spec {p j : Slot N} {addr msg : Nat} {s s' : KState N} {r : Option CInt}
    (e : waitReap p j addr msg s = some (r, s')) :
    ∃ t pt, Edit p s t { s.k.proc p with pagetable := pt } ∧
      (r = none ∧ s' = t ∨ r = some (s.k.proc j).pid ∧ Edit j t s' (t.k.proc j).freed) := by
  obtain ⟨_, _, e1, e⟩ := Act.bind_some.mp e
  cases e1
  obtain ⟨_, s1, e1, e⟩ := Act.bind_some.mp e
  obtain ⟨pt1, h1⟩ := tryCopyout_edit e1
  obtain ⟨ok, s2, e2, e⟩ := Act.bind_some.mp e
  obtain ⟨pt2, h2⟩ := storeStatus_edit e2
  rw [h1.here] at h2
  refine ⟨s2, pt2, h1.trans h2, ?_⟩
  cases ok with
  | false =>
    cases e
    exact .inl ⟨rfl, rfl⟩
  | true =>
    obtain ⟨_, s3, e3, e⟩ := Act.bind_some.mp e
    cases e
    exact .inr ⟨rfl, freeproc_spec e3⟩

/-- what `waitall` stores in the memory of its caller: the number of statuses, then the statuses -/
def delivered (pt : PageTable) (nAddr statusesAddr : Nat) (xs : List CInt) : PageTable :=
  (copyout (copyout pt nAddr (le32 (.ofNat 32 xs.length))).1 statusesAddr (xs.flatMap le32)).1

theorem delivered_spec {pt : PageTable} {nAddr statusesAddr : Nat} {xs : List CInt}
    (hn : pt.Mapped nAddr 4) (hs : pt.Mapped statusesAddr (4 * xs.length)) :
    (delivered pt nAddr statusesAddr xs).Holds statusesAddr (xs.flatMap le32) ∧
    (nAddr + 4 ≤ statusesAddr ∨ statusesAddr + 4 * xs.length ≤ nAddr →
      (delivered pt nAddr statusesAddr xs).load32 nAddr = some (.ofNat 32 xs.length)) ∧
    ∀ a, (a < nAddr ∨ nAddr + 4 ≤ a) → (a < statusesAddr ∨ statusesAddr + 4 * xs.length ≤ a) →
      (delivered pt nAddr statusesAddr xs).load a = pt.load a := by
  have hlen := flatMap_le32_length xs
  obtain ⟨pt1, e1, hh1, hm1, ho1⟩ := copyout_holds (le32 (.ofNat 32 xs.length)) hn
  obtain ⟨pt2, e2, hh2, -, ho2⟩ := copyout_holds (xs.flatMap le32)
    (hlen.symm ▸ hs.of_load hm1)
  rw [hlen] at ho2
  have hd : delivered pt nAddr statusesAddr xs = pt2 := by
    unfold delivered
    rw [e1, e2]
  rw [hd]
  refine ⟨hh2, fun hdis => (hh1.of_eq fun i hi => ho2 _ ?_).load32, fun a h1 h2 => ?_⟩
  · have hi : i < 4 := hi
    omega
  · rw [ho2 a h2, ho1 a h1]

/-! ## a pass of `waitall` -/

/-- the children of `p` in a part of the table -/
def Kern.childrenIn (k : Kern N) (p : Slot N) (js : List (Slot N)) : List (Slot N) :=
  js.filter fun j => (k.proc j).parent = some p

theorem Kern.childrenIn_snoc (k : Kern N) (p j : Slot N) (js : List (Slot N)) :
    k.childrenIn p (js ++ [j])
      = k.childrenIn p js ++ if (k.proc j).parent = some p then [j] else [] := by
  unfold childrenIn
  rw [List.filter_append]
  by_cases h : (k.proc j).parent = some p <;> simp [h]

/-- the locals of a pass of `p` that has visited the slots `pre` -/
structure Pass.Inv (p : Slot N) (k : Kern N) (pre : List (Slot N)) (l : Pass N) : Prop where
  found : l.foundChild = true ↔ k.childrenIn p pre ≠ []
  count : l.count = (k.childrenIn p pre).length
  done : l.allDone = true ↔ ∀ j ∈ k.childrenIn p pre, (k.proc j).state = .zombie
  free : l.allDone = true → l.toFree = k.childrenIn p pre
  stat : l.allDone = true →
    (List.range l.count).map l.statuses = (k.childrenIn p pre).map fun j => (k.proc j).xstate

theorem Pass.Inv.start (p : Slot N) (k : Kern N) (st : Nat → CInt) :
    Pass.Inv p k [] (Pass.start st) where
  found := by simp [Pass.start, Kern.childrenIn]
  count := rfl
  done := by simp [Pass.start, Kern.childrenIn]
  free _ := rfl
  stat _ := rfl

theorem Pass.Inv.visit {p : Slot N} {k : Kern N} {pre : List (Slot N)} {l : Pass N}
    (h : Pass.Inv p k pre l) (j : Slot N) :
    Pass.Inv p k (pre ++ [j]) (l.visit p j (k.proc j)) := by
  unfold Pass.visit
  by_cases hc : (k.proc j).parent = some p
  · have hk : k.childrenIn p (pre ++ [j]) = k.childrenIn p pre ++ [j] := by
      rw [Kern.childrenIn_snoc, if_pos hc]
    rw [if_pos hc]
    by_cases hz : (k.proc j).state = .zombie
    · rw [if_neg (not_not.mpr hz)]
      refine ⟨?_, ?_, ?_, fun hd => ?_, fun hd => ?_⟩
      · simp [hk]
      · rw [hk, List.length_append, ← h.count]
        rfl
      · rw [hk, h.done, List.forall_mem_append, List.forall_mem_singleton]
        exact (and_iff_left hz).symm
      · rw [hk, ← h.free hd]
      · have hkeep : (List.range l.count).map (Function.update l.statuses l.count (k.proc j).xstate)
            = (List.range l.count).map l.statuses :=
          List.map_congr_left fun i hi =>
            Function.update_of_ne (Nat.ne_of_lt (List.mem_range.mp hi)) _ _
        show (List.range (l.count + 1)).map (Function.update l.statuses l.count _) = _
        rw [List.range_succ, List.map_append, hkeep, h.stat hd, hk, List.map_append]
        simp
    · rw [if_pos hz]
      refine ⟨?_, ?_, ?_, fun hd => Bool.noConfusion hd, fun hd => Bool.noConfusion hd⟩
      · simp [hk]
      · rw [hk, List.length_append, ← h.count]
        rfl
      · rw [hk, List.forall_mem_append, List.forall_mem_singleton]
        exact iff_of_false (fun e => by cases e) fun e => hz e.2
  · have hk : k.childrenIn p (pre ++ [j]) = k.childrenIn p pre := by
      rw [Kern.childrenIn_snoc, if_neg hc, List.append_nil]
    rw [if_neg hc]
    exact ⟨hk ▸ h.found, hk ▸ h.count, hk ▸ h.done, hk ▸ h.free, hk ▸ h.stat⟩

end Xv6
