import Mathlib

/-!
# Actions: state transformers that may stop

`Act σ α` is a routine over the state `σ`: it returns a value and a new state, or it stops for good
(`none`: a panic, or a wait that nothing ends).

* `bind_run`, `bind_some`   how a sequence runs, forwards and backwards;
* `Triple P x Q`   partial correctness, with the rules `pure`, `bind`, `conseq`, `stop`;
* `each`   a loop over a list, with its invariant rule `Triple.each`.
-/

/-- a routine over `σ` that may stop -/
def Act (σ α : Type) : Type := σ → Option (α × σ)

namespace Act
variable {σ α β γ : Type}

instance : Monad (Act σ) where
  pure a := fun s => some (a, s)
  bind x f := fun s => (x s).bind fun r => f r.1 r.2

/-- never returns -/
def stop : Act σ α := fun _ => none

def get : Act σ σ := fun s => some (s, s)

def read (f : σ → α) : Act σ α := fun s => some (f s, s)

def modify (f : σ → σ) : Act σ Unit := fun s => some ((), f s)

@[simp] theorem pure_run (a : α) (s : σ) : (pure a : Act σ α) s = some (a, s) := rfl
@[simp] theorem stop_run (s : σ) : (stop : Act σ α) s = none := rfl
@[simp] theorem read_run (f : σ → α) (s : σ) : (read f : Act σ α) s = some (f s, s) := rfl
@[simp] theorem modify_run (f : σ → σ) (s : σ) : modify f s = some ((), f s) := rfl

theorem bind_run (x : Act σ α) (f : α → Act σ β) (s : σ) :
    (x >>= f) s = (x s).bind fun r => f r.1 r.2 := rfl

theorem bind_of {x : Act σ α} {s s' : σ} {a : α} (h : x s = some (a, s')) (f : α → Act σ β) :
    (x >>= f) s = f a s' := by
  rw [bind_run, h]
  rfl

theorem bind_some {x : Act σ α} {f : α → Act σ β} {s s' : σ} {b : β} :
    (x >>= f) s = some (b, s') ↔ ∃ a t, x s = some (a, t) ∧ f a t = some (b, s') := by
  rw [bind_run, Option.bind_eq_some_iff]
  constructor
  · rintro ⟨⟨a, t⟩, h1, h2⟩
    exact ⟨a, t, h1, h2⟩
  · rintro ⟨a, t, h1, h2⟩
    exact ⟨(a, t), h1, h2⟩

/-- a last statement, followed by nothing -/
theorem then_nothing (x : Act σ Unit) : x = (x >>= fun _ => pure ()) := by
  funext s
  rw [bind_run]
  cases x s <;> rfl

/-- run `f` on every element of the list, first to last -/
def each (f : β → Act σ Unit) : List β → Act σ Unit
  | [] => pure ()
  | b :: bs => do
    f b
    each f bs

theorem each_cons (f : β → Act σ Unit) (b : β) (bs : List β) :
    each f (b :: bs) = (do f b; each f bs) := rfl

/-! ## partial correctness -/

/-- from a state with `P`, if `x` returns, it does so with `Q` -/
def Triple (P : σ → Prop) (x : Act σ α) (Q : α → σ → Prop) : Prop :=
  ∀ s, P s → ∀ a s', x s = some (a, s') → Q a s'

namespace Triple
variable {P P' : σ → Prop} {Q Q' : α → σ → Prop}

theorem pure {a : α} (h : ∀ s, P s → Q a s) : Triple P (Pure.pure a : Act σ α) Q := by
  intro s hs b t e
  rw [pure_run, Option.some.injEq, Prod.mk.injEq] at e
  obtain ⟨rfl, rfl⟩ := e
  exact h s hs

theorem stop : Triple P (Act.stop : Act σ α) Q := by
  intro s _ a t e
  cases e

theorem modify {f : σ → σ} {Q : Unit → σ → Prop} : Triple (fun s => Q () (f s)) (Act.modify f) Q := by
  intro s h a t e
  rw [modify_run, Option.some.injEq, Prod.mk.injEq] at e
  obtain ⟨_, rfl⟩ := e
  exact h

theorem read {f : σ → α} {Q : α → σ → Prop} : Triple (fun s => Q (f s) s) (Act.read f) Q := by
  intro s h a t e
  rw [read_run, Option.some.injEq, Prod.mk.injEq] at e
  obtain ⟨rfl, rfl⟩ := e
  exact h

theorem conseq {x : Act σ α} (h : Triple P x Q) (hP : ∀ s, P' s → P s)
    (hQ : ∀ a s, Q a s → Q' a s) : Triple P' x Q' :=
  fun s hs a t e => hQ a t (h s (hP s hs) a t e)

theorem bind {x : Act σ α} {f : α → Act σ β} {R : β → σ → Prop} (hx : Triple P x Q)
    (hf : ∀ a, Triple (Q a) (f a) R) : Triple P (x >>= f) R := by
  intro s hs b t e
  obtain ⟨a, u, h1, h2⟩ := bind_some.mp e
  exact hf a u (hx s hs a u h1) b t h2

/-- the invariant rule of the loop over a list -/
theorem each {I : σ → Prop} {f : β → Act σ Unit} (h : ∀ b, Triple I (f b) fun _ => I)
    (bs : List β) : Triple I (Act.each f bs) fun _ => I := by
  induction bs with
  | nil => exact Triple.pure fun _ hs => hs
  | cons b bs ih => exact (h b).bind fun _ => ih

end Triple

end Act
