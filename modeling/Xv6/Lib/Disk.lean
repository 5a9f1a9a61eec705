import Mathlib

/-!
# Programs over a disk, and crashes

A disk is a function from addresses to blocks.  A block is written at once, and the writes of a program
reach the disk in order; a crash leaves the disk with some of them, from the first on.

* `DiskProg`   programs that read and write blocks;
* `run`, `crashAt`   the disk after the program, and after its first `j` writes;
* `Triple P p Q C`   from `P` the program ends with `Q`, and a crash in it leaves `C`;
  the rules `ret`, `read`, `write`, `bind`, `conseq`, `range`;
* `Recovers`   a recovery that may crash itself, any number of times, and is started again;
* `Triple.recovers`   a recovery that keeps its precondition at crashes ends as without them.
-/

/-- a program over a disk with addresses `A` and blocks `B` -/
inductive DiskProg (A B α : Type) : Type where
  | ret (x : α)
  | read (a : A) (k : B → DiskProg A B α)
  | write (a : A) (b : B) (k : DiskProg A B α)

namespace DiskProg
variable {A B α β : Type}

def bind : DiskProg A B α → (α → DiskProg A B β) → DiskProg A B β
  | ret x, f => f x
  | read a k, f => read a fun b => (k b).bind f
  | write a b k, f => write a b (k.bind f)

instance : Monad (DiskProg A B) where
  pure := ret
  bind := bind

/-- read one block -/
def get (a : A) : DiskProg A B B := read a ret

/-- write one block -/
def put (a : A) (b : B) : DiskProg A B Unit := write a b (ret ())

/-- `for (i = 0; i < n; i++) f i` -/
def range (f : ℕ → DiskProg A B Unit) (n : ℕ) : DiskProg A B Unit :=
  match n with
  | 0 => pure ()
  | n + 1 => do
    range f n
    f n

variable [DecidableEq A]

/-- the result, and the disk at the end -/
def run : DiskProg A B α → (A → B) → α × (A → B)
  | ret x, d => (x, d)
  | read a k, d => (k (d a)).run d
  | write a b k, d => k.run (Function.update d a b)

/-- the disk after the first `j` writes, or all of them -/
def crashAt : DiskProg A B α → (A → B) → ℕ → (A → B)
  | ret _, d, _ => d
  | read a k, d, j => (k (d a)).crashAt d j
  | write _ _ _, d, 0 => d
  | write a b k, d, j + 1 => k.crashAt (Function.update d a b) j

theorem run_bind (p : DiskProg A B α) (f : α → DiskProg A B β) (d : A → B) :
    (p >>= f).run d = (f (p.run d).1).run (p.run d).2 := by
  induction p generalizing d with
  | ret x => rfl
  | read a k ih => exact ih (d a) d
  | write a b k ih => exact ih (Function.update d a b)

/-- a crash in a sequence is one in its first or in its second part -/
theorem crashAt_bind (p : DiskProg A B α) (f : α → DiskProg A B β) (d : A → B) (j : ℕ) :
    ∃ i, (p >>= f).crashAt d j = p.crashAt d i ∨
      (p >>= f).crashAt d j = (f (p.run d).1).crashAt (p.run d).2 i := by
  induction p generalizing d j with
  | ret x => exact ⟨j, .inr rfl⟩
  | read a k ih => exact ih (d a) d j
  | write a b k ih =>
    cases j with
    | zero => exact ⟨0, .inl rfl⟩
    | succ j =>
      obtain ⟨i, h | h⟩ := ih (Function.update d a b) j
      · exact ⟨i + 1, .inl h⟩
      · exact ⟨i, .inr h⟩

/-! ## conditions before, after and at a crash -/

/-- from a disk with `P` the program ends with `Q`, and a crash in it leaves a disk with `C` -/
def Triple (P : (A → B) → Prop) (p : DiskProg A B α) (Q : α → (A → B) → Prop)
    (C : (A → B) → Prop) : Prop :=
  ∀ d, P d → Q (p.run d).1 (p.run d).2 ∧ ∀ j, C (p.crashAt d j)

namespace Triple
variable {P P' C C' : (A → B) → Prop} {Q Q' : α → (A → B) → Prop} {p : DiskProg A B α}

theorem ret {x : α} (h : ∀ d, P d → Q x d ∧ C d) : Triple P (pure x : DiskProg A B α) Q C :=
  fun d hd => ⟨(h d hd).1, fun _ => (h d hd).2⟩

/-- a read, and what is done with the block -/
theorem read {a : A} {f : B → DiskProg A B α}
    (h : ∀ x, Triple (fun d => P d ∧ d a = x) (f x) Q C) : Triple P (get a >>= f) Q C :=
  fun d hd => h (d a) d ⟨hd, rfl⟩

theorem write {a : A} {b : B} {Q : Unit → (A → B) → Prop}
    (h : ∀ d, P d → C d ∧ C (Function.update d a b) ∧ Q () (Function.update d a b)) :
    Triple P (put a b) Q C := by
  intro d hd
  obtain ⟨h1, h2, h3⟩ := h d hd
  refine ⟨h3, fun j => ?_⟩
  cases j with
  | zero => exact h1
  | succ j => exact h2

theorem bind {f : α → DiskProg A B β} {R : β → (A → B) → Prop} (hp : Triple P p Q C)
    (hf : ∀ x, Triple (Q x) (f x) R C) : Triple P (p >>= f) R C := by
  intro d hd
  obtain ⟨hq, hc⟩ := hp d hd
  obtain ⟨hr, hc'⟩ := hf _ _ hq
  rw [run_bind]
  refine ⟨hr, fun j => ?_⟩
  obtain ⟨i, h | h⟩ := crashAt_bind p f d j
  · rw [h]
    exact hc i
  · rw [h]
    exact hc' i

theorem conseq (h : Triple P p Q C) (hP : ∀ d, P' d → P d) (hQ : ∀ x d, Q x d → Q' x d)
    (hC : ∀ d, C d → C' d) : Triple P' p Q' C' :=
  fun d hd => ⟨hQ _ _ (h d (hP d hd)).1, fun j => hC _ ((h d (hP d hd)).2 j)⟩

/-- the loop with the invariant `I i` before round `i` -/
theorem range {I : ℕ → (A → B) → Prop} {f : ℕ → DiskProg A B Unit} {n : ℕ}
    (hf : ∀ i < n, Triple (I i) (f i) (fun _ => I (i + 1)) C) (hC : ∀ d, I 0 d → C d) :
    Triple (I 0) (DiskProg.range f n) (fun _ => I n) C := by
  induction n with
  | zero => exact ret fun d hd => ⟨hd, hC d hd⟩
  | succ n ih => exact (ih fun i hi => hf i (by omega)).bind fun _ => hf n (by omega)

end Triple

/-! ## recovery -/

/-- the disk `d'` after a recovery from `d` that has been started again after each of its crashes -/
inductive Recovers (r : DiskProg A B Unit) : (A → B) → (A → B) → Prop
  | done (d : A → B) : Recovers r d (r.run d).2
  | again {d d' : A → B} (j : ℕ) (h : Recovers r (r.crashAt d j) d') : Recovers r d d'

/-- **A recovery that keeps its precondition at crashes.** -/
theorem Triple.recovers {r : DiskProg A B Unit} {C : (A → B) → Prop}
    {Q : (A → B) → Prop} (h : Triple C r (fun _ => Q) C) {d d' : A → B} (hr : Recovers r d d')
    (hd : C d) : Q d' := by
  induction hr with
  | done d => exact (h d hd).1
  | again j _ ih => exact ih ((h _ hd).2 j)

end DiskProg
