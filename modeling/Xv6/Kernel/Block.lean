import Xv6.Kernel.Spec

/-!
# Pieces of code as functions of the tables

A piece of `proc.c` between two operations on `wait_lock` or on a `p->lock` takes and gives back
leaf locks only (`pid_lock` and the locks of the allocator and of the file and inode tables).  So it
does the same whatever else the CPU holds: it is a function of the tables.

* `exec x k`   the piece `x` run on the tables `k`;
* `CodeBlock x`   run by a CPU that holds no leaf lock, `x` does `exec x` and nothing else.
-/

namespace Xv6
open Function (update)
variable {N : ℕ} {α β : Type}

/-- the result of `x` and the tables it leaves -/
def exec (x : KM N α) (k : Kern N) : Option (α × Kern N) :=
  (x ⟨k, ∅, 0, []⟩).map fun r => (r.1, r.2.k)

/-- the CPU holds none of the leaf locks -/
def LeafFree (s : KState N) : Prop :=
  .pid ∉ s.held ∧ .kmem ∉ s.held ∧ .ftable ∉ s.held ∧ .itable ∉ s.held

def CodeBlock (x : KM N α) : Prop :=
  ∀ s, LeafFree s → x s = (exec x s.k).map fun r => (r.1, s.withK r.2)

theorem leafFree_empty (k : Kern N) : LeafFree (N := N) ⟨k, ∅, 0, []⟩ := by
  simp [LeafFree]

namespace CodeBlock

theorem of_run {x : KM N α} (g : Kern N → Option (α × Kern N))
    (h : ∀ s, LeafFree s → x s = (g s.k).map fun r => (r.1, s.withK r.2)) : CodeBlock x := by
  intro s hs
  have he : exec x s.k = g s.k := by
    unfold exec
    rw [h _ (leafFree_empty s.k), Option.map_map]
    exact Option.map_id'
  rw [he, h s hs]

theorem pure (a : α) : CodeBlock (Pure.pure a : KM N α) := of_run (fun k => some (a, k)) fun _ _ => rfl

theorem stop : CodeBlock (Act.stop : KM N α) := of_run (fun _ => none) fun _ _ => rfl

theorem bind {x : KM N α} {f : α → KM N β} (hx : CodeBlock x) (hf : ∀ a, CodeBlock (f a)) :
    CodeBlock (x >>= f) := by
  refine of_run (fun k => (exec x k).bind fun r => exec (f r.1) r.2) fun s hs => ?_
  rw [Act.bind_run, hx s hs]
  cases exec x s.k with
  | none => rfl
  | some r => exact hf r.1 (s.withK r.2) hs

theorem each {f : β → KM N Unit} (h : ∀ b, CodeBlock (f b)) (bs : List β) :
    CodeBlock (Act.each f bs) := by
  induction bs with
  | nil => exact pure ()
  | cons b bs ih => exact (h b).bind fun _ => ih

theorem of_memOnly {x : KM N α} (h : MemOnly x) : CodeBlock x := by
  obtain ⟨g, hg⟩ := h
  refine of_run (fun k => (g false k.freelist).map fun r => (r.1, { k with freelist := r.2 }))
    fun s hs => ?_
  rw [hg s, decide_eq_false hs.2.1, Option.map_map]
  rfl

theorem readKern (f : Kern N → α) : CodeBlock (Act.read fun s => f s.k) :=
  of_run (fun k => some (f k, k)) fun _ _ => rfl

theorem setKern (g : Kern N → Kern N) : CodeBlock (Xv6.setKern g) :=
  of_run (fun k => some ((), g k)) fun _ _ => rfl

theorem getProc (j : Slot N) : CodeBlock (Xv6.getProc j) := readKern fun k => k.proc j

theorem setProc (j : Slot N) (g : Proc N → Proc N) : CodeBlock (Xv6.setProc j g) := setKern _

/-! ## the pieces of `proc.c` -/

theorem freeproc (j : Slot N) : CodeBlock (Xv6.freeproc j) := by
  refine (getProc j).bind fun q => (of_memOnly (freeTrapframe_memOnly _)).bind fun _ => ?_
  exact (of_memOnly (freeUserMem_memOnly _ _)).bind fun _ => setProc j _

theorem copyoutTo (p : Slot N) (va : Nat) (src : List Byte) : CodeBlock (Xv6.copyoutTo p va src) := by
  refine (getProc p).bind fun q => ?_
  split
  · exact stop
  · exact (setProc p _).bind fun _ => pure _

theorem tryCopyout (p : Slot N) (va : Nat) (src : List Byte) :
    CodeBlock (Xv6.tryCopyout p va src) := by
  unfold Xv6.tryCopyout
  split
  · exact pure ()
  · exact (copyoutTo p va src).bind fun _ => pure ()

theorem waitReap (p j : Slot N) (addr msg : Nat) : CodeBlock (Xv6.waitReap p j addr msg) := by
  refine (getProc j).bind fun q => (tryCopyout p _ _).bind fun _ => CodeBlock.bind ?_ fun ok => ?_
  · unfold storeStatus
    split
    · exact pure true
    · exact copyoutTo p _ _
  · split
    · exact (freeproc j).bind fun _ => pure _
    · exact pure none

end CodeBlock

/-! ## pieces of code in critical sections -/

theorem LeafFree.lock {s : KState N} (hs : LeafFree s) {l : Lock N}
    (hl : l = .wait ∨ ∃ j, l = .proc j) :
    LeafFree (s.lock l) := by
  rcases hl with rfl | ⟨j, rfl⟩ <;> simpa [LeafFree, KState.lock] using hs

/-- a critical section around a piece of code does what the piece does -/
theorem CodeBlock.locked {x : KM N α} (hx : CodeBlock x) {s : KState N} (hs : LeafFree s) {l : Lock N}
    (hl : l = .wait ∨ ∃ j, l = .proc j) (hf : l ∉ s.held) (f : α → KM N β) :
    (do acquire l; let a ← x; release l; f a) s = (do let a ← x; f a) s := by
  have e1 := acquire_run hf
  rw [Act.bind_of e1, Act.bind_run, Act.bind_run, hx _ (hs.lock hl), hx s hs, KState.lock_k]
  cases exec x s.k with
  | none => rfl
  | some r => exact Act.bind_of (locked_run (k := r.2) e1) fun _ => f r.1

/-! ## what the pieces do to the process table -/

theorem exec_some {x : KM N α} {k k' : Kern N} {a : α} (e : exec x k = some (a, k')) :
    ∃ s', x ⟨k, ∅, 0, []⟩ = some (a, s') ∧ s'.k = k' := by
  unfold exec at e
  rw [Option.map_eq_some_iff] at e
  obtain ⟨⟨b, s'⟩, h, e⟩ := e
  cases e
  exact ⟨s', h, rfl⟩

section
variable {k k' : Kern N} {i j : Slot N}

theorem exec_freeproc (e : exec (freeproc j) k = some ((), k')) :
    k'.proc = update k.proc j (k.proc j).freed := by
  obtain ⟨s', h, rfl⟩ := exec_some e
  exact (freeproc_spec h).proc_eq

theorem exec_clean
    (e : exec (do setProc j (fun q => { q with state := .unused }); freeproc j) k = some ((), k')) :
    k'.proc = update k.proc j (k.proc j).freed := by
  obtain ⟨s', h, rfl⟩ := exec_some e
  obtain ⟨_, s1, e1, h⟩ := Act.bind_some.mp h
  have h1 := Edit.set _ e1
  have h2 := h1.trans (freeproc_spec h)
  rw [h1.here] at h2
  exact h2.proc_eq

theorem exec_allocprocFound {ok : Bool} (e : exec (allocprocFound j) k = some (ok, k')) :
    (ok = false ∧ k'.proc = update k.proc j (k.proc j).freed) ∨
    (ok = true ∧ ∃ pa pt,
      k'.proc = update k.proc j ((k.proc j).allocated k.nextpid pa pt)) := by
  obtain ⟨s', h, rfl⟩ := exec_some e
  rcases allocprocFound_spec h with ⟨rfl, hE⟩ | ⟨rfl, pa, pt, hE⟩
  · exact .inl ⟨rfl, hE.proc_eq⟩
  · exact .inr ⟨rfl, pa, pt, hE.proc_eq⟩

theorem exec_copyChild {a0 : BitVec 64} {ok : Bool} (e : exec (copyChild i j a0) k = some (ok, k')) :
    (ok = false ∧ k'.proc = update k.proc j (k.proc j).freed) ∨
    (ok = true ∧ ∃ pt sz pa tf o ip nm,
      k'.proc = update k.proc j ((k.proc j).copied pt sz pa tf a0 o ip nm)) := by
  obtain ⟨s', h, rfl⟩ := exec_some e
  rcases copyChild_spec h with ⟨rfl, hE⟩ | ⟨rfl, pt, sz, pa, tf, o, ip, nm, hE⟩
  · exact .inl ⟨rfl, hE.proc_eq⟩
  · exact .inr ⟨rfl, pt, sz, pa, tf, o, ip, nm, hE.proc_eq⟩

theorem exec_copyoutTo {va : Nat} {src : List Byte} {ok : Bool}
    (e : exec (copyoutTo i va src) k = some (ok, k')) :
    ∃ pt, k'.proc = update k.proc i { k.proc i with pagetable := pt } := by
  obtain ⟨s', h, rfl⟩ := exec_some e
  obtain ⟨pt, hE⟩ := copyoutTo_edit h
  exact ⟨pt, hE.proc_eq⟩

theorem exec_tryCopyout {va : Nat} {src : List Byte}
    (e : exec (tryCopyout i va src) k = some ((), k')) :
    ∃ pt, k'.proc = update k.proc i { k.proc i with pagetable := pt } := by
  obtain ⟨s', h, rfl⟩ := exec_some e
  obtain ⟨pt, hE⟩ := tryCopyout_edit h
  exact ⟨pt, hE.proc_eq⟩

theorem exec_waitReap {addr msg : Nat} {r : Option CInt}
    (e : exec (waitReap i j addr msg) k = some (r, k')) :
    ∃ pt, (r = none ∧ k'.proc = update k.proc i { k.proc i with pagetable := pt }) ∨
      (r = some (k.proc j).pid ∧
        k'.proc = update (update k.proc i { k.proc i with pagetable := pt })
          j (k.proc j).freed) := by
  obtain ⟨s', h, rfl⟩ := exec_some e
  obtain ⟨t, pt, h1, h2⟩ := waitReap_spec h
  refine ⟨pt, ?_⟩
  rcases h2 with ⟨rfl, rfl⟩ | ⟨rfl, h2⟩
  · exact .inl ⟨rfl, h1.proc_eq⟩
  · refine .inr ⟨rfl, ?_⟩
    rw [h2.proc_eq, h1.proc_eq]
    by_cases hij : j = i
    · subst hij
      simp [Proc.freed]
    · rw [Function.update_of_ne hij]

end

end Xv6
