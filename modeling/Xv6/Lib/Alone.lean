import Xv6.Lib.Code

/-!
# Code run by one thread alone

* `Code.Yields`   the code comes to its end, and what holds then; `bind`, `pure`, `read`, `modify`
  are the rules;
* `Code.Quiet`   no act waits, and an act panics only with one of the given messages;
* `Code.Outcome`   the same, or a panic with one of the given messages;
* `Code.Ends`   the same, with the state in which it panics;
* `Logic.Safe.of_run`, `Logic.Safe.of_panic`   how safe code ends;
* `Code.Keeps.run`   what every act keeps is kept by the whole run.
-/

namespace Code
variable {σ ε π α β : Type} {c : Code σ ε π α} {s s' : σ} {a : α}

theorem run_act {γ : Type} (l : Option ε) (x : σ → Reply π (γ × σ)) (k : γ → Code σ ε π α) (s : σ) :
    (Code.act l x k).run s =
      match x s with
      | .ok (b, s') => (k b).run s'
      | .wait => .wait
      | .panic m => .panic m := by
  cases hx : x s <;> simp only [run, hx]

theorem run_bind (c : Code σ ε π α) (f : α → Code σ ε π β) (s : σ) :
    (c >>= f).run s =
      match c.run s with
      | .ok (a, s') => (f a).run s'
      | .wait => .wait
      | .panic m => .panic m := by
  induction c generalizing s with
  | done a => rfl
  | act l x k ih =>
    rw [bind_act, run_act, run_act]
    cases x s with
    | ok r => exact ih r.1 r.2
    | wait => rfl
    | panic m => rfl

/-! ## What a run yields -/

/-- the code comes to its end with `Q` -/
def Yields (c : Code σ ε π α) (s : σ) (Q : α → σ → Prop) : Prop :=
  ∃ a s', c.run s = .ok (a, s') ∧ Q a s'

namespace Yields
variable {Q R : α → σ → Prop}

theorem mono (h : c.Yields s Q) (hQ : ∀ a s', Q a s' → R a s') : c.Yields s R := by
  obtain ⟨a, s', hr, hq⟩ := h
  exact ⟨a, s', hr, hQ a s' hq⟩

theorem pure (h : Q a s) : (Pure.pure a : Code σ ε π α).Yields s Q := ⟨a, s, rfl, h⟩

theorem bind {f : α → Code σ ε π β} {R : β → σ → Prop} (h : c.Yields s Q)
    (hf : ∀ a s', Q a s' → (f a).Yields s' R) : (c >>= f).Yields s R := by
  obtain ⟨a, s', hr, hq⟩ := h
  obtain ⟨b, s'', hr', hR⟩ := hf a s' hq
  refine ⟨b, s'', ?_, hR⟩
  rw [run_bind, hr]
  exact hr'

theorem ite {b : Prop} [Decidable b] {x y : Code σ ε π α} (ht : b → x.Yields s Q)
    (he : ¬ b → y.Yields s Q) : (if b then x else y).Yields s Q := by
  split
  · exact ht ‹b›
  · exact he ‹¬ b›

/-- one act -/
theorem act {x : σ → Reply π (α × σ)} {l : Option ε} {r : α × σ} (hx : x s = .ok r) (h : Q r.1 r.2) :
    (Code.act l x .done : Code σ ε π α).Yields s Q := by
  refine ⟨r.1, r.2, ?_, h⟩
  rw [run_act, hx]
  rfl

theorem read {f : σ → α} (h : Q (f s) s) : (Code.read f : Code σ ε π α).Yields s Q := act rfl h

theorem modify {f : σ → σ} {Q : Unit → σ → Prop} (h : Q () (f s)) :
    (Code.modify f : Code σ ε π Unit).Yields s Q := act rfl h

/-- two facts about one run -/
theorem and (h : c.Yields s Q) (h' : c.Yields s R) : c.Yields s fun a s' => Q a s' ∧ R a s' := by
  obtain ⟨a, s', hr, hq⟩ := h
  obtain ⟨b, t, hr', hR⟩ := h'
  rw [hr] at hr'
  cases hr'
  exact ⟨a, s', hr, hq, hR⟩

theorem of_run (h : c.Yields s Q) (hr : c.run s = .ok (a, s')) : Q a s' := by
  obtain ⟨b, t, hr', hq⟩ := h
  rw [hr] at hr'
  cases hr'
  exact hq

end Yields

/-! ## How a run ends -/

/-- the code comes to its end with `Q`, or it panics with a message in `A`; it waits for nothing -/
def Outcome (c : Code σ ε π α) (s : σ) (Q : α → σ → Prop) (A : π → Prop) : Prop :=
  match c.run s with
  | .ok r => Q r.1 r.2
  | .wait => False
  | .panic m => A m

namespace Outcome
variable {Q R : α → σ → Prop} {A B : π → Prop}

theorem mono (h : c.Outcome s Q A) (hQ : ∀ a s', Q a s' → R a s') (hA : ∀ m, A m → B m) :
    c.Outcome s R B := by
  unfold Outcome at h ⊢
  split at h
  · exact hQ _ _ h
  · exact h
  · exact hA _ h

theorem of_yields (h : c.Yields s Q) : c.Outcome s Q A := by
  obtain ⟨a, s', hr, hq⟩ := h
  unfold Outcome
  rw [hr]
  exact hq

theorem pure (h : Q a s) : (Pure.pure a : Code σ ε π α).Outcome s Q A := h

/-- one act -/
theorem act {x : σ → Reply π (α × σ)} {l : Option ε} (h : match x s with
      | .ok r => Q r.1 r.2
      | .wait => False
      | .panic m => A m) : (Code.act l x .done : Code σ ε π α).Outcome s Q A := by
  unfold Outcome
  rw [run_act]
  cases hx : x s with
  | ok r =>
    rw [hx] at h
    exact h
  | wait =>
    rw [hx] at h
    exact h
  | panic m =>
    rw [hx] at h
    exact h

theorem bind {f : α → Code σ ε π β} {R : β → σ → Prop} (h : c.Outcome s Q A)
    (hf : ∀ a s', Q a s' → (f a).Outcome s' R A) : (c >>= f).Outcome s R A := by
  unfold Outcome at h ⊢
  rw [run_bind]
  cases hr : c.run s with
  | ok r =>
    rw [hr] at h
    exact hf _ _ h
  | wait =>
    rw [hr] at h
    exact h
  | panic m =>
    rw [hr] at h
    exact h

theorem ite {b : Prop} [Decidable b] {x y : Code σ ε π α} (ht : b → x.Outcome s Q A)
    (he : ¬ b → y.Outcome s Q A) : (if b then x else y).Outcome s Q A := by
  split
  · exact ht ‹b›
  · exact he ‹¬ b›

theorem of_run (h : c.Outcome s Q A) (hr : c.run s = .ok (a, s')) : Q a s' := by
  unfold Outcome at h
  rw [hr] at h
  exact h

/-- without panics -/
theorem and (h : c.Outcome s Q A) (h' : c.Outcome s R B) :
    c.Outcome s (fun a s' => Q a s' ∧ R a s') fun m => A m ∧ B m := by
  unfold Outcome at *
  cases hr : c.run s with
  | ok r =>
    rw [hr] at h h'
    exact ⟨h, h'⟩
  | wait =>
    rw [hr] at h
    exact h
  | panic m =>
    rw [hr] at h h'
    exact ⟨h, h'⟩

theorem yields (h : c.Outcome s Q fun _ => False) : c.Yields s Q := by
  unfold Outcome at h
  cases hr : c.run s with
  | ok r =>
    rw [hr] at h
    exact ⟨r.1, r.2, hr, h⟩
  | wait =>
    rw [hr] at h
    exact h.elim
  | panic m =>
    rw [hr] at h
    exact h.elim

end Outcome

/-! ## Where a run stops -/

/-- the code comes to its end with `Q`, or an act of it panics in a state with `A` -/
def Ends (A : π → σ → Prop) : Code σ ε π α → σ → (α → σ → Prop) → Prop
  | .done a, s, Q => Q a s
  | .act _ x k, s, Q =>
    match x s with
    | .ok r => Ends A (k r.1) r.2 Q
    | .wait => False
    | .panic m => A m s

namespace Ends
variable {Q R : α → σ → Prop} {A B : π → σ → Prop}

theorem pure (h : Q a s) : (Pure.pure a : Code σ ε π α).Ends A s Q := h

theorem mono (h : c.Ends A s Q) (hQ : ∀ a s', Q a s' → R a s') (hA : ∀ m s', A m s' → B m s') :
    c.Ends B s R := by
  induction c generalizing s with
  | done a => exact hQ a s h
  | act l x k ih =>
    unfold Ends at h ⊢
    split at h
    · exact ih _ h
    · exact h
    · exact hA _ _ h

theorem bind {f : α → Code σ ε π β} {R : β → σ → Prop} (h : c.Ends A s Q)
    (hf : ∀ a s', Q a s' → (f a).Ends A s' R) : (c >>= f).Ends A s R := by
  induction c generalizing s with
  | done a => exact hf a s h
  | act l x k ih =>
    rw [bind_act]
    unfold Ends at h ⊢
    split at h
    · exact ih _ h
    · exact h
    · exact h

theorem ite {b : Prop} [Decidable b] {x y : Code σ ε π α} (ht : b → x.Ends A s Q)
    (he : ¬ b → y.Ends A s Q) : (if b then x else y).Ends A s Q := by
  split
  · exact ht ‹b›
  · exact he ‹¬ b›

theorem act {x : σ → Reply π (α × σ)} {l : Option ε} {r : α × σ} (hx : x s = .ok r) (h : Q r.1 r.2) :
    (Code.act l x .done : Code σ ε π α).Ends A s Q := by
  unfold Ends
  rw [hx]
  exact h

theorem act_panic {x : σ → Reply π (α × σ)} {l : Option ε} {m : π} (hx : x s = .panic m) (h : A m s) :
    (Code.act l x .done : Code σ ε π α).Ends A s Q := by
  unfold Ends
  rw [hx]
  exact h

theorem read {f : σ → α} (h : Q (f s) s) : (Code.read f : Code σ ε π α).Ends A s Q := h

theorem modify {f : σ → σ} {Q : Unit → σ → Prop} (h : Q () (f s)) :
    (Code.modify f : Code σ ε π Unit).Ends A s Q := h

theorem outcome {B : π → Prop} (h : c.Ends A s Q) (hA : ∀ m s', A m s' → B m) : c.Outcome s Q B := by
  induction c generalizing s with
  | done a => exact h
  | act l x k ih =>
    unfold Ends at h
    unfold Outcome
    rw [run_act]
    cases hx : x s with
    | ok r =>
      rw [hx] at h
      exact ih r.1 h
    | wait =>
      rw [hx] at h
      exact h
    | panic m =>
      rw [hx] at h
      exact hA m s h

end Ends

/-! ## Code that does not stop -/

/-- no act waits, and an act panics only with a message in `A` -/
def Quiet (A : π → Prop) : Code σ ε π α → Prop
  | .done _ => True
  | .act _ x k => (∀ s, (match x s with
      | .ok _ => True
      | .wait => False
      | .panic m => A m)) ∧ ∀ b, (k b).Quiet A

namespace Quiet
variable {A : π → Prop}

theorem pure (a : α) : (Pure.pure a : Code σ ε π α).Quiet A := trivial

theorem bind {f : α → Code σ ε π β} (h : c.Quiet A) (hf : ∀ a, (f a).Quiet A) : (c >>= f).Quiet A := by
  induction c with
  | done a => exact hf a
  | act l x k ih => exact ⟨h.1, fun b => ih b (h.2 b)⟩

theorem act {x : σ → Reply π (α × σ)} {l : Option ε} (h : ∀ s, ∃ r, x s = .ok r) :
    (Code.act l x .done : Code σ ε π α).Quiet A := by
  refine ⟨fun s => ?_, fun _ => trivial⟩
  obtain ⟨r, hr⟩ := h s
  rw [hr]
  trivial

theorem read (f : σ → α) : (Code.read f : Code σ ε π α).Quiet A := act fun _ => ⟨_, rfl⟩

theorem modify (f : σ → σ) : (Code.modify f : Code σ ε π Unit).Quiet A := act fun _ => ⟨_, rfl⟩

theorem panic {m : π} (h : A m) : (Code.panic m : Code σ ε π α).Quiet A := ⟨fun _ => h, fun _ => trivial⟩

theorem ite {b : Prop} [Decidable b] {x y : Code σ ε π α} (hx : x.Quiet A) (hy : y.Quiet A) :
    (if b then x else y).Quiet A := by
  split
  · exact hx
  · exact hy

theorem outcome (h : c.Quiet A) (s : σ) : c.Outcome s (fun _ _ => True) A := by
  induction c generalizing s with
  | done a => exact .pure trivial
  | act l x k ih =>
    have hx := h.1 s
    unfold Outcome
    rw [run_act]
    cases hxs : x s with
    | ok r => exact ih r.1 (h.2 r.1) r.2
    | wait =>
      rw [hxs] at hx
      exact hx
    | panic m =>
      rw [hxs] at hx
      exact hx

end Quiet

/-- what every act keeps, the run keeps -/
theorem Keeps.run {lab : Option ε → Prop} {R : σ → σ → Prop} (hc : c.Keeps lab R) (hR : ∀ s, R s s)
    (ht : ∀ {s t u}, R s t → R t u → R s u) (h : c.run s = .ok (a, s')) : R s s' := by
  induction c generalizing s with
  | done a =>
    cases h
    exact hR _
  | act l x k ih =>
    rw [run_act] at h
    split at h
    · rename_i b s1 hx
      exact ht (hc.2.1 s b s1 hx) (ih b (hc.2.2 b) h)
    · cases h
    · cases h

theorem Keeps.outcome {lab : Option ε → Prop} {R : σ → σ → Prop} {Q : α → σ → Prop} {A : π → Prop}
    (hc : c.Keeps lab R) (hR : ∀ s, R s s) (ht : ∀ {s s' s''}, R s s' → R s' s'' → R s s'') {s : σ}
    (h : c.Outcome s Q A) : c.Outcome s (fun _ s' => R s s') A := by
  unfold Outcome at *
  cases hr : c.run s with
  | ok r => exact hc.run hR ht hr
  | wait =>
    rw [hr] at h
    exact h
  | panic m =>
    rw [hr] at h
    exact h

end Code

/-- safe code that comes to its end does so as it should -/
theorem Logic.Safe.of_run {σ ε π α : Type} {Γ : Type*} {L : Logic σ ε π Γ} {g : Γ} {c : Code σ ε π α}
    {s s' : σ} {a : α} {Q : α → Γ → Prop} (hs : L.Safe g c Q) (hl : ∀ l, L.labels l) (hi : L.inv s g)
    (hr : c.run s = .ok (a, s')) : ∃ g', L.inv s' g' ∧ Q a g' := by
  induction c generalizing g s with
  | done b =>
    cases hr
    exact ⟨g, hi, hs g (L.rely_refl g)⟩
  | act l x k ih =>
    have h := hs (hl l) g s (L.rely_refl g) hi
    rw [Code.run_act] at hr
    cases hxs : x s with
    | ok r =>
      rw [hxs] at h hr
      obtain ⟨g', -, hi', hk⟩ := h
      exact ih r.1 hk hi' hr
    | wait =>
      rw [hxs] at hr
      cases hr
    | panic m =>
      rw [hxs] at hr
      cases hr

/-- and it panics only as it may -/
theorem Logic.Safe.of_panic {σ ε π α : Type} {Γ : Type*} {L : Logic σ ε π Γ} {g : Γ} {c : Code σ ε π α}
    {s : σ} {m : π} {Q : α → Γ → Prop} (hs : L.Safe g c Q) (hl : ∀ l, L.labels l) (hi : L.inv s g)
    (hr : c.run s = .panic m) : L.allow m := by
  induction c generalizing g s with
  | done b => cases hr
  | act l x k ih =>
    have h := hs (hl l) g s (L.rely_refl g) hi
    rw [Code.run_act] at hr
    cases hxs : x s with
    | ok r =>
      rw [hxs] at h hr
      obtain ⟨g', -, hi', hk⟩ := h
      exact ih r.1 hk hi' hr
    | wait =>
      rw [hxs] at hr
      cases hr
    | panic m' =>
      rw [hxs] at h hr
      cases hr
      exact h
