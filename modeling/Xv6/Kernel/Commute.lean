import Xv6.Kernel.Spec

/-!
# Routines that do not see a change of the process table

* `KState.mapProc φ`, `onKids kids F`   a change of every slot, and of some slots;
* `Commutes φ x`   running `x` before the change `φ` or after it is the same; one rule per
  construct and one lemma for each piece of `proc.c`;
* `critical_run`   a critical section that changes one slot.
-/

namespace Xv6
variable {N : ℕ} {α β : Type}

/-- change the record of every slot -/
def KState.mapProc (φ : Slot N → Proc N → Proc N) (s : KState N) : KState N :=
  s.withK { s.k with proc := fun j => φ j (s.k.proc j) }

/-- running `x` after the change `φ` is the same as running it before -/
def Commutes (φ : Slot N → Proc N → Proc N) (x : KM N α) : Prop :=
  ∀ s, x (s.mapProc φ) = (x s).map fun r => (r.1, r.2.mapProc φ)

namespace Commutes
variable {φ : Slot N → Proc N → Proc N}

theorem pure (a : α) : Commutes φ (Pure.pure a : KM N α) := fun _ => rfl

theorem stop : Commutes φ (Act.stop : KM N α) := fun _ => rfl

theorem bind {x : KM N α} {f : α → KM N β} (hx : Commutes φ x) (hf : ∀ a, Commutes φ (f a)) :
    Commutes φ (x >>= f) := by
  intro s
  rw [Act.bind_run, Act.bind_run, hx s]
  cases x s with
  | none => rfl
  | some r => exact hf r.1 r.2

theorem each {f : β → KM N Unit} (bs : List β) (h : ∀ b ∈ bs, Commutes φ (f b)) :
    Commutes φ (Act.each f bs) := by
  induction bs with
  | nil => exact pure ()
  | cons b bs ih =>
    rw [List.forall_mem_cons] at h
    exact h.1.bind fun _ => ih h.2

theorem acquire (l : Lock N) : Commutes φ (Xv6.acquire l) := by
  intro s
  unfold Xv6.acquire
  by_cases h : l ∈ s.held
  · rw [if_pos h, if_pos (show l ∈ (s.mapProc φ).held from h)]
    rfl
  · rw [if_neg h, if_neg (show l ∉ (s.mapProc φ).held from h)]
    rfl

theorem release (l : Lock N) : Commutes φ (Xv6.release l) := by
  intro s
  unfold Xv6.release
  by_cases h : l ∈ s.held ∧ 1 ≤ s.noff
  · rw [if_pos h, if_pos (show l ∈ (s.mapProc φ).held ∧ 1 ≤ (s.mapProc φ).noff from h)]
    rfl
  · rw [if_neg h, if_neg (show ¬ (l ∈ (s.mapProc φ).held ∧ 1 ≤ (s.mapProc φ).noff) from h)]
    rfl

theorem of_memOnly {x : KM N α} (h : MemOnly x) : Commutes φ x := by
  obtain ⟨g, hg⟩ := h
  intro s
  rw [hg s, hg (s.mapProc φ), Option.map_map]
  rfl

theorem read {f : KState N → α} (h : ∀ s, f (s.mapProc φ) = f s) : Commutes φ (Act.read f) := by
  intro s
  rw [Act.read_run, Act.read_run, h s]
  rfl

theorem setKern {g : Kern N → Kern N}
    (h : ∀ s : KState N, g (s.mapProc φ).k = ((s.withK (g s.k)).mapProc φ).k) :
    Commutes φ (Xv6.setKern g) := by
  intro s
  show some ((), (s.mapProc φ).withK (g (s.mapProc φ).k)) = _
  rw [h s]
  rfl

theorem getProc {j : Slot N} (h : ∀ q, φ j q = q) : Commutes φ (Xv6.getProc j) :=
  read fun s => h (s.k.proc j)

theorem setProc {j : Slot N} {g : Proc N → Proc N} (h : ∀ q, φ j (g q) = g (φ j q)) :
    Commutes φ (Xv6.setProc j g) := by
  refine setKern fun s => ?_
  have hu : (fun i => φ i ((s.k.upd j g).proc i)) = ((s.mapProc φ).k.upd j g).proc := by
    funext i
    rw [Kern.upd_proc, Kern.upd_proc]
    by_cases hi : i = j
    · rw [if_pos hi, if_pos hi, hi, h]
      rfl
    · rw [if_neg hi, if_neg hi]
      rfl
  show _ = { s.k with proc := fun i => φ i ((s.k.upd j g).proc i) }
  rw [hu]
  rfl

/-! ## the pieces of `proc.c` -/

theorem allocpid : Commutes φ (Xv6.allocpid : KM N CInt) := by
  refine (acquire _).bind fun _ => (read fun _ => rfl).bind fun pid => ?_
  refine (setKern fun _ => rfl).bind fun _ => (release _).bind fun _ => pure pid

theorem freeproc {j : Slot N} (h : ∀ q, φ j q = q) : Commutes φ (Xv6.freeproc j) := by
  refine (getProc h).bind fun q => (of_memOnly (freeTrapframe_memOnly _)).bind fun _ => ?_
  refine (of_memOnly (freeUserMem_memOnly _ _)).bind fun _ => setProc fun q => ?_
  rw [h, h]

theorem allocprocFound {j : Slot N} (h : ∀ q, φ j q = q) : Commutes φ (Xv6.allocprocFound j) := by
  have hset : ∀ g : Proc N → Proc N, Commutes φ (Xv6.setProc j g) :=
    fun g => setProc fun q => by rw [h, h]
  refine allocpid.bind fun pid => (hset _).bind fun _ => (of_memOnly kalloc_memOnly).bind fun r => ?_
  cases r with
  | none => exact (hset _).bind fun _ => (freeproc h).bind fun _ => pure false
  | some pa =>
    refine (hset _).bind fun _ => (of_memOnly (procPagetable_memOnly pa)).bind fun r => ?_
    cases r with
    | none => exact (hset _).bind fun _ => (freeproc h).bind fun _ => pure false
    | some pt => exact (hset _).bind fun _ => pure true

/-- duplicating the open files sees no change of the other fields -/
theorem dupFile {np : Slot N} (ofile : Nat → Option Nat) (fd : Nat)
    (h : ∀ q o, φ np { q with ofile := o } = { φ np q with ofile := o })
    (ho : ∀ q, (φ np q).ofile = q.ofile) : Commutes φ (Xv6.dupFile ofile np fd) := by
  unfold Xv6.dupFile
  split
  · exact pure ()
  · refine Commutes.bind ?_ fun _ => setProc fun q => by rw [h, ho]
    refine (acquire _).bind fun _ => (read fun _ => rfl).bind fun r => ?_
    split
    · exact stop
    · exact (setKern fun _ => rfl).bind fun _ => release _

theorem idup (ip : Nat) : Commutes φ (Xv6.idup ip : KM N Unit) :=
  (acquire _).bind fun _ => (setKern fun _ => rfl).bind fun _ => release _

theorem copyRest {p np : Slot N} (a0 : BitVec 64) (hp : ∀ q, φ p q = q) (hnp : ∀ q, φ np q = q) :
    Commutes φ (Xv6.copyRest p np a0) := by
  have hset : ∀ g : Proc N → Proc N, Commutes φ (Xv6.setProc np g) :=
    fun g => setProc fun q => by rw [hnp, hnp]
  refine (getProc hp).bind fun pp => (getProc hnp).bind fun nn => ?_
  split
  · refine (hset _).bind fun _ => Commutes.bind (each _ fun fd _ => ?_) fun _ =>
      (idup _).bind fun _ => hset _
    exact dupFile _ _ (fun q o => by rw [hnp, hnp]) fun q => by rw [hnp]
  · exact stop

theorem copyChild {p np : Slot N} (a0 : BitVec 64) (hp : ∀ q, φ p q = q) (hnp : ∀ q, φ np q = q) :
    Commutes φ (Xv6.copyChild p np a0) := by
  refine (getProc hp).bind fun pp => (getProc hnp).bind fun nn => ?_
  split
  · refine (of_memOnly (uvmcopy_memOnly _ _ _)).bind fun r => ?_
    refine (setProc fun q => by rw [hnp, hnp]).bind fun _ => ?_
    split
    · exact (copyRest a0 hp hnp).bind fun _ => pure true
    · exact (freeproc hnp).bind fun _ => pure false
  · exact stop

end Commutes

theorem Commutes.some {φ : Slot N → Proc N → Proc N} {x : KM N α} (hx : Commutes φ x)
    {s u : KState N} {a : α} :
    x (s.mapProc φ) = some (a, u) ↔ ∃ t, x s = some (a, t) ∧ u = t.mapProc φ := by
  rw [hx s, Option.map_eq_some_iff]
  constructor
  · rintro ⟨⟨b, t⟩, h, e⟩
    cases e
    exact ⟨t, h, rfl⟩
  · rintro ⟨t, h, rfl⟩
    exact ⟨(a, t), h, rfl⟩

/-! ## changes of some slots -/

/-- `F` on the slots of the list -/
def onKids (kids : List (Slot N)) (F : Proc N → Proc N) : Slot N → Proc N → Proc N :=
  fun j q => if j ∈ kids then F q else q

theorem onKids_not_mem {kids : List (Slot N)} {F : Proc N → Proc N} {j : Slot N} (h : j ∉ kids)
    (q : Proc N) : onKids kids F j q = q := if_neg h

theorem onKids_mem {kids : List (Slot N)} {F : Proc N → Proc N} {j : Slot N} (h : j ∈ kids)
    (q : Proc N) : onKids kids F j q = F q := if_pos h

theorem mapProc_proc (φ : Slot N → Proc N → Proc N) (s : KState N) (j : Slot N) :
    (s.mapProc φ).k.proc j = φ j (s.k.proc j) := rfl

theorem mapProc_congr {φ ψ : Slot N → Proc N → Proc N} {s : KState N}
    (h : ∀ j, φ j (s.k.proc j) = ψ j (s.k.proc j)) : s.mapProc φ = s.mapProc ψ := by
  have : (fun j => φ j (s.k.proc j)) = fun j => ψ j (s.k.proc j) := funext h
  unfold KState.mapProc
  rw [this]

theorem mapProc_mapProc (φ ψ : Slot N → Proc N → Proc N) (s : KState N) :
    (s.mapProc φ).mapProc ψ = s.mapProc fun j q => ψ j (φ j q) := rfl

theorem mapProc_nil (F : Proc N → Proc N) (s : KState N) : s.mapProc (onKids [] F) = s := by
  have : (fun j => onKids [] F j (s.k.proc j)) = s.k.proc :=
    funext fun j => onKids_not_mem List.not_mem_nil _
  unfold KState.mapProc
  rw [this]
  rfl

theorem withK_upd (s : KState N) (j : Slot N) (F : Proc N → Proc N) :
    s.withK (s.k.upd j F) = s.mapProc (onKids [j] F) := by
  have : (s.k.upd j F).proc = fun i => onKids [j] F i (s.k.proc i) := by
    funext i
    rw [Kern.upd_proc]
    by_cases h : i = j
    · rw [if_pos h, onKids_mem (by simpa using h), h]
    · rw [if_neg h, onKids_not_mem (by simpa using h)]
  unfold KState.mapProc
  rw [← this]
  rfl

/-- the memory of a process -/
def Proc.withMem (pt : PageTable) (q : Proc N) : Proc N := { q with pagetable := some pt }

theorem critical_run {l : Lock N} {j : Slot N} {g : Proc N → Proc N} {x : KM N β}
    (s : KState N) (hl : l ∉ s.held) :
    (do acquire l; setProc j g; release l; x) s = x (s.withK (s.k.upd j g)) := by
  rw [Act.bind_of (acquire_some.mpr ⟨hl, rfl⟩), Act.bind_of (setProc_run _ _ _),
    Act.bind_of (release_some.mpr ⟨⟨Finset.mem_insert_self _ _, by simp⟩, rfl⟩)]
  have he : (insert l s.held).erase l = s.held := Finset.erase_insert hl
  show x (KState.mk _ ((insert l s.held).erase l) (s.noff + 1 - 1) _) = _
  rw [he]
  rfl

theorem critical_run_withK {l : Lock N} {j : Slot N} {g : Proc N → Proc N} {x : KM N β}
    (s : KState N) (k : Kern N) (hl : l ∉ s.held) :
    (do acquire l; setProc j g; release l; x) (s.withK k) = x (s.withK (k.upd j g)) :=
  critical_run (s.withK k) hl

end Xv6
