import Xv6.Lib.Run

/-!
# Concurrent code

`Code σ ε π α` is a routine made of atomic acts on a shared state `σ`: an act goes through, waits (for a
lock that another holds) or panics.  It may carry a label.  The same code is run by one thread alone
(`Code.run`) or by many, whose acts interleave in any way (`Pool.Step`).

A `Logic` proves code with a ghost state `Γ` that an invariant ties to `σ`: a thread may change the
ghost state by `guar` and relies on the others changing it by `rely` only.

* `Logic.Safe`   every act of the code keeps the invariant, whatever the others do in between;
* `Logic.Safe.bind`   the rule of composition, `mono` that of consequence;
* `Logic.Gives`   the same for what a thread knows of its own changes;
* `Logic.Safe.run`   what is safe keeps its promise when it runs alone;
* `Pool.of_schedule`   the run of a schedule, `Pool.steps_of_runAll` that of one routine after the other;
* `Pool.Good.step`   **if the routines of all threads are safe, every step of the pool keeps the
  invariant and the safety of all of them**;
* `Pool.Good.solo`   the same for threads that never overlap.
-/

/-- what comes of an act -/
inductive Reply (π α : Type) where
  | ok (a : α)
  | wait
  | panic (m : π)

/-- the value of an act that comes to its end -/
def Reply.value {π α : Type} : Reply π α → Option α
  | ok a => some a
  | wait => none
  | panic _ => none

theorem Reply.ok_of_value {π α : Type} {r : Reply π α} {a : α} (h : r.value = some a) : r = .ok a := by
  cases r with
  | ok b => exact congrArg ok (Option.some.inj h)
  | wait => cases h
  | panic m => cases h

/-- a routine of atomic acts -/
inductive Code (σ ε π α : Type) : Type 1 where
  | done (a : α)
  | act {β : Type} (l : Option ε) (x : σ → Reply π (β × σ)) (k : β → Code σ ε π α)

set_option linter.unusedSectionVars false

namespace Code
variable {σ ε π α β γ : Type}

def andThen : Code σ ε π α → (α → Code σ ε π β) → Code σ ε π β
  | .done a, f => f a
  | .act l x k, f => .act l x fun b => (k b).andThen f

instance : Monad (Code σ ε π) where
  pure := .done
  bind := andThen

/-- the code of one act -/
def atom (x : σ → Reply π (β × σ)) : Code σ ε π β := .act none x .done

/-- one act with a label -/
def labelled (l : ε) (x : σ → Reply π (β × σ)) : Code σ ε π β := .act (some l) x .done

def read (f : σ → β) : Code σ ε π β := atom fun s => .ok (f s, s)

def modify (f : σ → σ) : Code σ ε π Unit := atom fun s => .ok ((), f s)

def panic (m : π) : Code σ ε π β := atom fun _ => .panic m

/-- the code run by one thread alone -/
def run : Code σ ε π α → σ → Reply π (α × σ)
  | .done a, s => .ok (a, s)
  | .act _ x k, s =>
    match x s with
    | .ok (b, s') => (k b).run s'
    | .wait => .wait
    | .panic m => .panic m

/-- the labels of the acts that it makes, one by one -/
def labelsOf : Code σ ε π α → σ → List (Option ε)
  | .done _, _ => []
  | .act l x k, s =>
    match x s with
    | .ok (b, s') => l :: (k b).labelsOf s'
    | .wait => []
    | .panic _ => []

@[simp] theorem pure_run (a : α) (s : σ) : (pure a : Code σ ε π α).run s = .ok (a, s) := rfl

theorem bind_act {δ : Type} (l : Option ε) (x : σ → Reply π (δ × σ)) (k : δ → Code σ ε π α)
    (f : α → Code σ ε π β) : (Code.act l x k >>= f) = .act l x fun b => k b >>= f := rfl

/-- every act has a label with `lab`, and changes the state by `R` only -/
def Keeps (lab : Option ε → Prop) (R : σ → σ → Prop) : Code σ ε π α → Prop
  | .done _ => True
  | .act l x k => lab l ∧ (∀ s b s', x s = .ok (b, s') → R s s') ∧ ∀ b, (k b).Keeps lab R

section
variable {lab : Option ε → Prop} {R : σ → σ → Prop} {c : Code σ ε π α}

theorem Keeps.pure (a : α) : (Pure.pure a : Code σ ε π α).Keeps lab R := trivial

theorem Keeps.bind {f : α → Code σ ε π β} (hc : c.Keeps lab R) (hf : ∀ a, (f a).Keeps lab R) :
    (c >>= f).Keeps lab R := by
  induction c with
  | done a => exact hf a
  | act l x k ih => exact ⟨hc.1, hc.2.1, fun b => ih b (hc.2.2 b)⟩

theorem Keeps.atom {x : σ → Reply π (α × σ)} (hl : lab none)
    (hx : ∀ s b s', x s = .ok (b, s') → R s s') : (Code.atom x : Code σ ε π α).Keeps lab R :=
  ⟨hl, hx, fun _ => trivial⟩

theorem Keeps.labelled {x : σ → Reply π (α × σ)} {l : ε} (hl : lab (some l))
    (hx : ∀ s b s', x s = .ok (b, s') → R s s') : (Code.labelled l x : Code σ ε π α).Keeps lab R :=
  ⟨hl, hx, fun _ => trivial⟩

theorem Keeps.read {f : σ → α} (hl : lab none) (hR : ∀ s, R s s) :
    (Code.read f : Code σ ε π α).Keeps lab R := by
  refine .atom hl fun s b s' h => ?_
  cases h
  exact hR s

theorem Keeps.modify {f : σ → σ} (hl : lab none) (hR : ∀ s, R s (f s)) :
    (Code.modify f : Code σ ε π Unit).Keeps lab R := by
  refine .atom hl fun s b s' h => ?_
  cases h
  exact hR s

theorem Keeps.panic {m : π} (hl : lab none) : (Code.panic m : Code σ ε π α).Keeps lab R :=
  .atom hl fun _ _ _ h => by cases h

end

end Code

/-! ## The logic -/

/-- the parts of a proof of concurrent code -/
structure Logic (σ ε π : Type) (Γ : Type*) where
  /-- the ghost state fits the state -/
  inv : σ → Γ → Prop
  /-- what the others may do between two acts -/
  rely : Γ → Γ → Prop
  /-- what an act with this label may do -/
  guar : Γ → Option ε → Γ → Prop
  /-- the labels of the runs considered; what follows any other label is not looked at -/
  labels : Option ε → Prop
  /-- whether the code may wait -/
  waits : Prop
  /-- the panics that are not excluded -/
  allow : π → Prop
  rely_refl : ∀ g, rely g g
  rely_trans : ∀ {g h i}, rely g h → rely h i → rely g i

namespace Logic
variable {σ ε π α β : Type} {Γ : Type*} (L : Logic σ ε π Γ)

/-- from the ghost state `g` every act keeps the invariant, and the code returns with `Q` -/
def Safe (g : Γ) : Code σ ε π α → (α → Γ → Prop) → Prop
  | .done a, Q => ∀ h, L.rely g h → Q a h
  | .act l x k, Q => L.labels l → ∀ h s, L.rely g h → L.inv s h →
    match x s with
    | .ok (b, s') => ∃ h', L.guar h l h' ∧ L.inv s' h' ∧ Safe h' (k b) Q
    | .wait => L.waits
    | .panic m => L.allow m

variable {L} {g h : Γ} {Q R : α → Γ → Prop} {c : Code σ ε π α}

theorem Safe.rely (hs : L.Safe g c Q) (hr : L.rely g h) : L.Safe h c Q := by
  cases c with
  | done a => exact fun i hi => hs i (L.rely_trans hr hi)
  | act l x k => exact fun hl i s hi hinv => hs hl i s (L.rely_trans hr hi) hinv

theorem Safe.mono (hs : L.Safe g c Q) (hQ : ∀ a h, Q a h → R a h) : L.Safe g c R := by
  induction c generalizing g with
  | done a => exact fun h hr => hQ a h (hs h hr)
  | act l x k ih =>
    intro hl h s hr hi
    have := hs hl h s hr hi
    split at this
    · obtain ⟨h', hg, hi', hk⟩ := this
      exact ⟨h', hg, hi', ih _ hk⟩
    · exact this
    · exact this

theorem Safe.bind {f : α → Code σ ε π β} {R : β → Γ → Prop}
    (hs : L.Safe g c fun a h => L.Safe h (f a) R) : L.Safe g (c >>= f) R := by
  induction c generalizing g with
  | done a => exact hs g (L.rely_refl g)
  | act l x k ih =>
    intro hl h s hr hi
    have := hs hl h s hr hi
    split at this
    · obtain ⟨h', hg, hi', hk⟩ := this
      exact ⟨h', hg, hi', ih _ hk⟩
    · exact this
    · exact this

theorem Safe.pure {a : α} (hQ : ∀ h, L.rely g h → Q a h) : L.Safe g (Pure.pure a) Q := hQ

/-- one act: what it does if it goes through, and why it may wait or panic -/
theorem Safe.act {x : σ → Reply π (α × σ)} {l : Option ε}
    (ok : L.labels l → ∀ h s b s', L.rely g h → L.inv s h → x s = .ok (b, s') →
      ∃ h', L.guar h l h' ∧ L.inv s' h' ∧ ∀ i, L.rely h' i → Q b i)
    (wait : ∀ h s, L.rely g h → L.inv s h → x s = .wait → L.waits)
    (panic : ∀ h s m, L.rely g h → L.inv s h → x s = .panic m → L.allow m) :
    L.Safe g (Code.act l x .done) Q := by
  intro hl h s hr hi
  cases hx : x s with
  | ok r => exact ok hl h s r.1 r.2 hr hi hx
  | wait => exact wait h s hr hi hx
  | panic m => exact panic h s m hr hi hx

/-- the code returns with `R` of its own changes: the ghost state is one with `R`, but for what the
others have done since -/
def Gives (L : Logic σ ε π Γ) (g : Γ) (c : Code σ ε π α) (R : α → Γ → Prop) : Prop :=
  L.Safe g c fun a h => ∃ g', L.rely g' h ∧ R a g'

theorem Gives.mono (hc : L.Gives g c Q) (hQ : ∀ a h, Q a h → R a h) : L.Gives g c R :=
  Safe.mono hc fun a _ ⟨g', hr, hq⟩ => ⟨g', hr, hQ a g' hq⟩

theorem Gives.pure {a : α} (hQ : Q a g) : L.Gives g (Pure.pure a) Q :=
  fun _ hr => ⟨g, hr, hQ⟩

theorem Gives.bind {f : α → Code σ ε π β} {R : β → Γ → Prop} (hc : L.Gives g c Q)
    (hf : ∀ a h, Q a h → L.Gives h (f a) R) : L.Gives g (c >>= f) R :=
  Safe.bind (Safe.mono hc fun a _ ⟨g', hr, hq⟩ => Safe.rely (hf a g' hq) hr)

theorem Gives.ite {b : Prop} [Decidable b] {x y : Code σ ε π α} (ht : b → L.Gives g x R)
    (he : ¬ b → L.Gives g y R) : L.Gives g (if b then x else y) R := by
  split
  · exact ht ‹b›
  · exact he ‹¬ b›

/-- one act, with what it does to the ghost state of the thread and to the actual one -/
theorem Gives.act {x : σ → Reply π (α × σ)} {l : Option ε}
    (ok : L.labels l → ∀ h s b s', L.rely g h → L.inv s h → x s = .ok (b, s') →
      ∃ g' h', L.guar h l h' ∧ L.inv s' h' ∧ L.rely g' h' ∧ R b g')
    (wait : ∀ h s, L.rely g h → L.inv s h → x s = .wait → L.waits)
    (panic : ∀ h s m, L.rely g h → L.inv s h → x s = .panic m → L.allow m) :
    L.Gives g (Code.act l x .done) R := by
  refine Safe.act (fun hl h s b s' hr hi hx => ?_) wait panic
  obtain ⟨g', h', hg, hi', hr', hR⟩ := ok hl h s b s' hr hi hx
  exact ⟨h', hg, hi', fun i hri => ⟨g', L.rely_trans hr' hri, hR⟩⟩

/-- alone, the code keeps what it promises -/
theorem Safe.run {s : σ} (hs : L.Safe g c Q) (hl : ∀ l, L.labels l) (hi : L.inv s g) :
    match c.run s with
    | .ok (a, s') => ∃ g', L.inv s' g' ∧ Q a g'
    | .wait => L.waits
    | .panic m => L.allow m := by
  induction c generalizing g s with
  | done a => exact ⟨g, hi, hs g (L.rely_refl g)⟩
  | act l x k ih =>
    have := hs (hl l) g s (L.rely_refl g) hi
    unfold Code.run
    revert this
    cases x s with
    | ok r =>
      rintro ⟨h', _, hi', hk⟩
      exact ih _ hk hi'
    | wait => exact fun h => h
    | panic m => exact fun h => h

end Logic

/-! ## Many threads -/

/-- the shared state, and what each thread has still to do -/
structure Pool (P σ ε π : Type) : Type 1 where
  state : σ
  code : P → Code σ ε π Unit

namespace Pool
variable {P σ ε π : Type} [DecidableEq P]

/-- a step: a thread makes its next act, or takes up a routine when it has none -/
inductive Step (calls : P → Code σ ε π Unit → Prop) (s : Pool P σ ε π) :
    P × Option ε → Pool P σ ε π → Prop where
  | act {p : P} {β : Type} {l : Option ε} {x : σ → Reply π (β × σ)} {k : β → Code σ ε π Unit}
      {b : β} {s' : σ} (hc : s.code p = .act l x k) (hx : x s.state = .ok (b, s')) :
      Step calls s (p, l) ⟨s', Function.update s.code p (k b)⟩
  | call {p : P} {c : Code σ ε π Unit} (hc : s.code p = .done ()) (hcall : calls p c) :
      Step calls s (p, none) ⟨s.state, Function.update s.code p c⟩

/-- the next act of `p` panics -/
def Panics (s : Pool P σ ε π) (p : P) (m : π) : Prop :=
  ∃ (β : Type) (l : Option ε) (x : σ → Reply π (β × σ)) (k : β → Code σ ε π Unit),
    s.code p = .act l x k ∧ x s.state = .panic m

variable {Γ : Type*} {L : P → Logic σ ε π Γ} {idle : P → Γ → Prop} {inv : σ → Γ → Prop}

/-- the invariant holds, and what every thread has still to do is safe -/
structure Good (L : P → Logic σ ε π Γ) (inv : σ → Γ → Prop) (idle : P → Γ → Prop)
    (s : Pool P σ ε π) (g : Γ) : Prop where
  inv : inv s.state g
  safe : ∀ p, (L p).Safe g (s.code p) fun _ h => idle p h

variable {calls : P → Code σ ε π Unit → Prop} {s s' : Pool P σ ε π} {g : Γ} {p : P} {l : Option ε}

/-- **every step keeps the invariant, and the safety of all threads** -/
theorem Good.step (hL : ∀ p, (L p).inv = inv)
    (hguar : ∀ p q g l h, q ≠ p → (L p).guar g l h → (L q).rely g h)
    (hcalls : ∀ p c g, calls p c → idle p g → (L p).Safe g c fun _ h => idle p h)
    (hg : Good L inv idle s g) (hl : (L p).labels l) (hs : Step calls s (p, l) s') :
    ∃ g', (g' = g ∧ l = none ∨ (L p).guar g l g') ∧ Good L inv idle s' g' := by
  cases hs with
  | act hc hx =>
    have h := hg.safe p
    rw [hc] at h
    have h := h hl g s.state ((L p).rely_refl g) (by rw [hL]; exact hg.inv)
    rw [hx] at h
    obtain ⟨g', hgg, hi, hk⟩ := h
    refine ⟨g', .inr hgg, by rw [hL] at hi; exact hi, fun q => ?_⟩
    by_cases hq : q = p
    · subst hq
      show (L q).Safe g' (Function.update s.code q _ q) _
      rw [Function.update_self]
      exact hk
    · show (L q).Safe g' (Function.update s.code p _ q) _
      rw [Function.update_of_ne hq]
      exact (hg.safe q).rely (hguar p q g l g' hq hgg)
  | call hc hcall =>
    refine ⟨g, .inl ⟨rfl, rfl⟩, hg.inv, fun q => ?_⟩
    by_cases hq : q = p
    · subst hq
      show (L q).Safe g (Function.update s.code q _ q) _
      rw [Function.update_self]
      have h := hg.safe q
      rw [hc] at h
      exact hcalls q _ g hcall (h g ((L q).rely_refl g))
    · show (L q).Safe g (Function.update s.code p _ q) _
      rw [Function.update_of_ne hq]
      exact hg.safe q

/-- a panic is one that the logic of the thread allows -/
theorem Good.allow (hL : ∀ p, (L p).inv = inv) (hl : ∀ l, (L p).labels l)
    (hg : Good L inv idle s g) {m : π} (h : s.Panics p m) : (L p).allow m := by
  obtain ⟨β, l, x, k, hc, hx⟩ := h
  have hs := hg.safe p
  rw [hc] at hs
  have hs := hs (hl l) g s.state ((L p).rely_refl g) (by rw [hL]; exact hg.inv)
  rw [hx] at hs
  exact hs

/-! ### One routine after the other -/

/-- a step while all other threads are idle -/
def Solo (calls : P → Code σ ε π Unit → Prop) (s : Pool P σ ε π) (e : P × Option ε)
    (s' : Pool P σ ε π) : Prop := Step calls s e s' ∧ ∀ q, q ≠ e.1 → s.code q = .done ()

/-- a thread without code is idle -/
theorem Good.idle_of_done (hg : Good L inv idle s g) (hc : s.code p = .done ()) : idle p g := by
  have h := hg.safe p
  rw [hc] at h
  exact h g ((L p).rely_refl g)

/-- a step keeps the invariant when the others have only to stay idle -/
theorem Good.solo (hL : ∀ p, (L p).inv = inv)
    (hguar : ∀ p q g l h, q ≠ p → (L p).guar g l h → idle q g → idle q h)
    (hrely : ∀ p g h, (L p).rely g h → idle p g → idle p h)
    (hcalls : ∀ p c g, calls p c → idle p g → (L p).Safe g c fun _ h => idle p h)
    (hg : Good L inv idle s g) (hl : (L p).labels l) (hs : Solo calls s (p, l) s') :
    ∃ g', Good L inv idle s' g' := by
  obtain ⟨hs, hothers⟩ := hs
  cases hs with
  | act hc hx =>
    have h := hg.safe p
    rw [hc] at h
    have h := h hl g s.state ((L p).rely_refl g) (by rw [hL]; exact hg.inv)
    rw [hx] at h
    obtain ⟨g', hgg, hi, hk⟩ := h
    refine ⟨g', by rw [hL] at hi; exact hi, fun q => ?_⟩
    by_cases hq : q = p
    · subst hq
      show (L q).Safe g' (Function.update s.code q _ q) _
      rw [Function.update_self]
      exact hk
    · show (L q).Safe g' (Function.update s.code p _ q) _
      have hd := hothers q hq
      rw [Function.update_of_ne hq, hd]
      exact fun h hr => hrely q g' h hr (hguar p q g l g' hq hgg (hg.idle_of_done hd))
  | call hc hcall =>
    refine ⟨g, hg.inv, fun q => ?_⟩
    by_cases hq : q = p
    · subst hq
      show (L q).Safe g (Function.update s.code q _ q) _
      rw [Function.update_self]
      exact hcalls q _ g hcall (hg.idle_of_done hc)
    · show (L q).Safe g (Function.update s.code p _ q) _
      rw [Function.update_of_ne hq]
      exact hg.safe q

/-- the acts of a thread whose code runs to its end -/
theorem acts_of_run (calls : P → Code σ ε π Unit → Prop) {c : Code σ ε π Unit} {st st' : σ}
    {f : P → Code σ ε π Unit} (hf : ∀ q, q ≠ p → f q = .done ()) (h : c.run st = .ok ((), st')) :
    Steps (Solo calls) ⟨st, Function.update f p c⟩ ((c.labelsOf st).map (p, ·))
      ⟨st', Function.update f p (.done ())⟩ := by
  induction c generalizing st with
  | done a =>
    cases h
    exact .nil _
  | act l x k ih =>
    unfold Code.run at h
    unfold Code.labelsOf
    split at h
    · rename_i b s1 hx
      refine .cons ⟨.act (Function.update_self ..) hx, fun q hq => ?_⟩ ?_
      · show Function.update f p _ q = _
        rw [Function.update_of_ne hq]
        exact hf q hq
      · have e : Function.update (Function.update f p (.act l x k)) p (k b) = Function.update f p (k b) :=
          Function.update_idem ..
        rw [e]
        exact ih b h
    · cases h
    · cases h

/-- **a routine that runs to its end, taken up while all are idle** -/
theorem steps_of_run {c : Code σ ε π Unit} {st st' : σ} (hc : calls p c)
    (h : c.run st = .ok ((), st')) :
    Steps (Solo calls) ⟨st, fun _ => .done ()⟩ ((p, none) :: (c.labelsOf st).map (p, ·))
      ⟨st', fun _ => .done ()⟩ := by
  have key := acts_of_run calls (p := p) (f := fun _ => .done ()) (fun _ _ => rfl) h
  have e : Function.update (fun _ => (.done () : Code σ ε π Unit)) p (.done ()) = fun _ => .done () :=
    Function.update_eq_self p fun _ => (.done () : Code σ ε π Unit)
  rw [e] at key
  exact .cons ⟨.call rfl hc, fun _ _ => rfl⟩ key

/-- routines run one after the other; none if one of them does not come to its end -/
def runAll : List (P × Code σ ε π Unit) → σ → Option σ
  | [], st => some st
  | (_, c) :: cs, st =>
    match c.run st with
    | .ok (_, st') => runAll cs st'
    | .wait => none
    | .panic _ => none

/-- the labels of their acts -/
def labelsAll : List (P × Code σ ε π Unit) → σ → List (P × Option ε)
  | [], _ => []
  | (p, c) :: cs, st =>
    match c.run st with
    | .ok (_, st') => ((p, none) :: (c.labelsOf st).map (p, ·)) ++ labelsAll cs st'
    | .wait => []
    | .panic _ => []

theorem steps_of_runAll {cs : List (P × Code σ ε π Unit)} {st st' : σ}
    (hc : ∀ c ∈ cs, calls c.1 c.2) (h : runAll cs st = some st') :
    Steps (Solo calls) ⟨st, fun _ => .done ()⟩ (labelsAll cs st) ⟨st', fun _ => .done ()⟩ := by
  induction cs generalizing st with
  | nil =>
    cases h
    exact .nil _
  | cons c cs ih =>
    unfold runAll at h
    unfold labelsAll
    split at h
    · rename_i a s1 hx
      exact (steps_of_run (hc c List.mem_cons_self) hx).append
        (ih (fun d hd => hc d (List.mem_cons_of_mem _ hd)) h)
    · cases h
    · cases h

/-! ### Schedules -/

/-- the thread that acts, or that takes up a routine -/
inductive Move (P σ ε π : Type) : Type 1 where
  | act (p : P)
  | call (p : P) (c : Code σ ε π Unit)

/-- a step of a schedule, if it is possible -/
def move (s : Pool P σ ε π) : Move P σ ε π → Option (Pool P σ ε π × (P × Option ε))
  | .act p =>
    match s.code p with
    | .done _ => none
    | .act l x k =>
      match x s.state with
      | .ok (b, st) => some (⟨st, Function.update s.code p (k b)⟩, (p, l))
      | .wait => none
      | .panic _ => none
  | .call p c =>
    match s.code p with
    | .done _ => some (⟨s.state, Function.update s.code p c⟩, (p, none))
    | .act .. => none

/-- the routine that a step takes up is one of the calls -/
def Move.Allowed (calls : P → Code σ ε π Unit → Prop) : Move P σ ε π → Prop
  | .act _ => True
  | .call p c => calls p c

theorem step_of_move {m : Move P σ ε π} {e : P × Option ε} (hm : m.Allowed calls)
    (h : s.move m = some (s', e)) : Step calls s e s' := by
  cases m with
  | act p =>
    dsimp only [move] at h
    split at h
    · cases h
    · rename_i l x k hc
      split at h
      · rename_i b st hx
        cases h
        exact .act hc hx
      · cases h
      · cases h
  | call p c =>
    dsimp only [move] at h
    split at h
    · rename_i hc
      cases h
      exact .call hc hm
    · cases h

/-- the steps of a list, one at each time -/
def schedule (ms : List (Move P σ ε π)) (t : ℕ) (s : Pool P σ ε π) :
    Option (Pool P σ ε π × (P × Option ε)) := ms[t]?.bind s.move

theorem of_schedule {I : Pool P σ ε π → Prop} {ms : List (Move P σ ε π)} (h0 : I s)
    (hms : ∀ m ∈ ms, m.Allowed calls) :
    Traces I (Step calls) (Traces.drive (schedule ms) s) (Traces.labels (schedule ms) s) := by
  refine Traces.of_drive h0 fun t s s' e h => ?_
  obtain ⟨m, hm, h⟩ := Option.bind_eq_some_iff.1 h
  exact step_of_move (hms m (List.mem_of_getElem? hm)) h

theorem labels_of_length_le {ms : List (Move P σ ε π)} {t : ℕ} (h : ms.length ≤ t) :
    Traces.labels (schedule ms) s t = none := by
  unfold Traces.labels schedule
  rw [List.getElem?_eq_none h]
  rfl

end Pool
