import Xv6.Lib.Act
import Xv6.Lib.Alone

/-!
# Code on a part of a state

* `StatePart`   a part of a state: it can be read, and replaced with the rest left alone;
* `Code.zoom`   code on the part, as code on the whole;
* `Code.ofAct`   a routine that may stop, as one act;
* `Outcome.zoom`, `Yields.zoom`, `Yields.ofAct`   what they do to the whole.
-/

/-- a part `σ` of a state `τ` -/
structure StatePart (τ σ : Type) where
  get : τ → σ
  put : σ → τ → τ
  get_put : ∀ s t, get (put s t) = s
  put_get : ∀ t, put (get t) t = t
  put_put : ∀ s s' t, put s (put s' t) = put s t

namespace Code
variable {τ σ ε π ρ α β : Type}

/-- code on a part of the state; `e` embeds its panics -/
def zoom (part : StatePart τ σ) (e : π → ρ) : Code σ ε π α → Code τ ε ρ α
  | .done a => .done a
  | .act l x k => .act l (fun t =>
      match x (part.get t) with
      | .ok (b, s) => .ok (b, part.put s t)
      | .wait => .wait
      | .panic m => .panic (e m)) fun b => (k b).zoom part e

/-- a routine that stops with the panic `m` -/
def ofAct (part : StatePart τ σ) (m : ρ) (x : Act σ α) : Code τ ε ρ α :=
  Code.atom fun t =>
    match x (part.get t) with
    | some (a, s) => .ok (a, part.put s t)
    | none => .panic m

variable {part : StatePart τ σ} {e : π → ρ} {c : Code σ ε π α} {t : τ}

theorem run_zoom (part : StatePart τ σ) (e : π → ρ) (c : Code σ ε π α) (t : τ) :
    (c.zoom part e).run t =
      match c.run (part.get t) with
      | .ok (a, s) => .ok (a, part.put s t)
      | .wait => .wait
      | .panic m => .panic (e m) := by
  induction c generalizing t with
  | done a =>
    show Reply.ok (a, t) = Reply.ok (a, part.put (part.get t) t)
    rw [part.put_get]
  | act l x k ih =>
    rw [zoom, run_act, run_act]
    cases x (part.get t) with
    | ok r =>
      obtain ⟨b, s⟩ := r
      dsimp only
      rw [ih b, part.get_put]
      cases (k b).run s with
      | ok r => exact congrArg (fun u => Reply.ok (r.1, u)) (part.put_put r.2 s t)
      | wait => rfl
      | panic m => rfl
    | wait => rfl
    | panic m => rfl

/-- the outcome on the part, and the rest of the state -/
theorem Outcome.zoom {Q : α → σ → Prop} {A : π → Prop} (h : c.Outcome (part.get t) Q A) :
    (c.zoom part e).Outcome t (fun a t' => ∃ s, t' = part.put s t ∧ Q a s) fun m => ∃ n, m = e n ∧ A n := by
  unfold Outcome at h ⊢
  rw [run_zoom]
  cases hr : c.run (part.get t) with
  | ok r =>
    rw [hr] at h
    exact ⟨r.2, rfl, h⟩
  | wait =>
    rw [hr] at h
    exact h
  | panic m =>
    rw [hr] at h
    exact ⟨m, rfl, h⟩

theorem Yields.zoom {Q : α → σ → Prop} (h : c.Yields (part.get t) Q) :
    (c.zoom part e).Yields t fun a t' => ∃ s, t' = part.put s t ∧ Q a s := by
  obtain ⟨a, s, hr, hq⟩ := h
  refine ⟨a, part.put s t, ?_, s, rfl, hq⟩
  rw [run_zoom, hr]

theorem Yields.ofAct {x : Act σ α} {m : ρ} {a : α} {s : σ} {Q : α → τ → Prop}
    (h : x (part.get t) = some (a, s)) (hQ : Q a (part.put s t)) :
    (Code.ofAct part m x : Code τ ε ρ α).Yields t Q := by
  refine .act (r := (a, part.put s t)) ?_ hQ
  rw [h]

end Code
