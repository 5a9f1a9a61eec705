import Mathlib

/-!
# Runs of a transition system

A run is a sequence of states: the first is initial and each is followed by itself or by a successor.

* `Runs.invariant`   what holds at first and is kept by every step holds at all times;
* `Runs.drive`   the run of a schedule: at each time the step it names, or none.

A trace is a run whose steps are labelled: `Traces.invariant` speaks of the state and of the labels
so far, `Traces.of_drive` gives the trace of a schedule, `Traces.of_steps` that of finitely many steps.
-/

/-- a run from `I` by the steps `R`; a state may rest -/
structure Runs {σ : Type*} (I : σ → Prop) (R : σ → σ → Prop) (ρ : ℕ → σ) : Prop where
  init : I (ρ 0)
  next : ∀ t, ρ (t + 1) = ρ t ∨ R (ρ t) (ρ (t + 1))

namespace Runs
variable {σ : Type*} {I P : σ → Prop} {R : σ → σ → Prop} {ρ : ℕ → σ}

theorem invariant (h : Runs I R ρ) (h0 : ∀ s, I s → P s) (hs : ∀ s s', P s → R s s' → P s') (t : ℕ) :
    P (ρ t) := by
  induction t with
  | zero => exact h0 _ h.init
  | succ t ih =>
    rcases h.next t with e | e
    · rw [e]
      exact ih
    · exact hs _ _ ih e

/-- the states along a schedule of partial steps; a step that is not possible is left out -/
def drive (f : ℕ → σ → Option σ) (s : σ) : ℕ → σ
  | 0 => s
  | t + 1 => (f t (drive f s t)).getD (drive f s t)

theorem of_drive {f : ℕ → σ → Option σ} {s : σ} (h0 : I s)
    (hf : ∀ t s s', f t s = some s' → R s s') : Runs I R (drive f s) := by
  refine ⟨h0, fun t => ?_⟩
  show (f t (drive f s t)).getD (drive f s t) = _ ∨ _
  cases h : f t (drive f s t) with
  | none => exact .inl rfl
  | some s' =>
    refine .inr ?_
    show R _ ((f t (drive f s t)).getD (drive f s t))
    rw [h]
    exact hf t _ _ h

end Runs

/-- a run from `I` by the labelled steps `R`; `ev` has the labels, none where the state rests -/
structure Traces {σ ε : Type*} (I : σ → Prop) (R : σ → ε → σ → Prop) (ρ : ℕ → σ) (ev : ℕ → Option ε) :
    Prop where
  init : I (ρ 0)
  next : ∀ t, (ρ (t + 1) = ρ t ∧ ev t = none) ∨ ∃ e, ev t = some e ∧ R (ρ t) e (ρ (t + 1))

namespace Traces
variable {σ ε : Type*} {I : σ → Prop} {R : σ → ε → σ → Prop} {ρ : ℕ → σ} {ev : ℕ → Option ε}

/-- the labels before time `t`, in order -/
def history (ev : ℕ → Option ε) : ℕ → List ε
  | 0 => []
  | t + 1 => history ev t ++ (ev t).toList

theorem mem_history {e : ε} {t : ℕ} : e ∈ history ev t ↔ ∃ u < t, ev u = some e := by
  induction t with
  | zero => simp [history]
  | succ t ih =>
    rw [history, List.mem_append, ih, Option.mem_toList]
    constructor
    · rintro (⟨u, hu, he⟩ | he)
      · exact ⟨u, by omega, he⟩
      · exact ⟨t, by omega, he⟩
    · rintro ⟨u, hu, he⟩
      rcases Nat.lt_succ_iff_lt_or_eq.1 hu with h | rfl
      · exact .inl ⟨u, h, he⟩
      · exact .inr he

theorem invariant {P : σ → List ε → Prop} (h : Traces I R ρ ev) (h0 : ∀ s, I s → P s [])
    (hs : ∀ s e s' l, P s l → R s e s' → P s' (l ++ [e])) (t : ℕ) : P (ρ t) (history ev t) := by
  induction t with
  | zero => exact h0 _ h.init
  | succ t ih =>
    show P _ (history ev t ++ _)
    rcases h.next t with ⟨e, he⟩ | ⟨e, he, hr⟩
    · rw [e, he, Option.toList_none, List.append_nil]
      exact ih
    · rw [he]
      exact hs _ _ _ _ ih hr

/-- the step that a label names -/
theorem step_of_label (h : Traces I R ρ ev) {t : ℕ} {e : ε} (he : ev t = some e) :
    R (ρ t) e (ρ (t + 1)) := by
  rcases h.next t with ⟨_, hn⟩ | ⟨e', he', hr⟩
  · rw [hn] at he
    cases he
  · rw [he'] at he
    cases he
    exact hr

/-- the states along a schedule of partial labelled steps -/
def drive (f : ℕ → σ → Option (σ × ε)) (s : σ) : ℕ → σ :=
  Runs.drive (fun t s => (f t s).map Prod.fst) s

/-- the labels along it -/
def labels (f : ℕ → σ → Option (σ × ε)) (s : σ) (t : ℕ) : Option ε :=
  (f t (drive f s t)).map Prod.snd

theorem of_drive {f : ℕ → σ → Option (σ × ε)} {s : σ} (h0 : I s)
    (hf : ∀ t s s' e, f t s = some (s', e) → R s e s') : Traces I R (drive f s) (labels f s) := by
  refine ⟨h0, fun t => ?_⟩
  show (((f t (drive f s t)).map Prod.fst).getD (drive f s t) = _ ∧ (f t (drive f s t)).map _ = _) ∨
    ∃ e, (f t (drive f s t)).map _ = _ ∧ R _ e (((f t (drive f s t)).map Prod.fst).getD (drive f s t))
  cases h : f t (drive f s t) with
  | none => exact .inl ⟨rfl, rfl⟩
  | some r => exact .inr ⟨r.2, rfl, hf t _ _ _ h⟩

theorem mono {J : σ → Prop} {S : σ → ε → σ → Prop} (h : Traces I R ρ ev) (hI : ∀ s, I s → J s)
    (hS : ∀ s e s', R s e s' → S s e s') : Traces J S ρ ev := by
  refine ⟨hI _ h.init, fun t => ?_⟩
  rcases h.next t with e | ⟨e, he, hr⟩
  · exact .inl e
  · exact .inr ⟨e, he, hS _ _ _ hr⟩

end Traces

/-! ## Finitely many steps -/

/-- the steps of a list of labels, one after the other -/
inductive Steps {σ ε : Type*} (R : σ → ε → σ → Prop) : σ → List ε → σ → Prop where
  | nil (s : σ) : Steps R s [] s
  | cons {s s' s'' : σ} {e : ε} {l : List ε} (h : R s e s') (hl : Steps R s' l s'') :
      Steps R s (e :: l) s''

section
variable {σ ε : Type*} {I : σ → Prop} {R : σ → ε → σ → Prop} {s s' s'' : σ} {l l' : List ε}

theorem Steps.append (h : Steps R s l s') (h' : Steps R s' l' s'') : Steps R s (l ++ l') s'' := by
  induction h with
  | nil s => exact h'
  | cons hr _ ih => exact .cons hr (ih h')

/-- a state before a trace -/
def Traces.before (s : σ) (ρ : ℕ → σ) : ℕ → σ
  | 0 => s
  | t + 1 => ρ t

/-- the trace of finitely many steps, which rests after them -/
theorem Traces.of_steps (hs : I s) (h : Steps R s l s') :
    ∃ ρ, Traces I R ρ (fun t => l[t]?) ∧ ρ l.length = s' := by
  suffices key : ∃ ρ, Traces (· = s) R ρ (fun t => l[t]?) ∧ ρ l.length = s' by
    obtain ⟨ρ, hρ, e⟩ := key
    exact ⟨ρ, hρ.mono (fun _ h => h ▸ hs) fun _ _ _ h => h, e⟩
  clear hs
  induction h with
  | nil s => exact ⟨fun _ => s, ⟨rfl, fun _ => .inl ⟨rfl, rfl⟩⟩, rfl⟩
  | @cons s s1 s2 e l hr _ ih =>
    obtain ⟨ρ, hρ, e2⟩ := ih
    refine ⟨Traces.before s ρ, ⟨rfl, fun t => ?_⟩, e2⟩
    cases t with
    | zero =>
      refine .inr ⟨e, rfl, ?_⟩
      show R s e (ρ 0)
      rw [hρ.init]
      exact hr
    | succ t => exact hρ.next t

/-- and the run -/
theorem Runs.of_steps {S : σ → σ → Prop} (hs : I s) (h : Steps R s l s')
    (hS : ∀ s e s', R s e s' → S s s') : ∃ ρ t, Runs I S ρ ∧ ρ t = s' := by
  obtain ⟨ρ, hρ, e⟩ := Traces.of_steps hs h
  refine ⟨ρ, l.length, ⟨hρ.init, fun t => ?_⟩, e⟩
  rcases hρ.next t with h | ⟨e, _, hr⟩
  · exact .inl h.1
  · exact .inr (hS _ _ _ hr)

end
