import Xv6.Machine.Sane

/-!
# The scheduler

* `Sane.step`   every step keeps the invariant, so it holds in every run (`Sane.of_run`);
* `scheduler_exclusion`   **a process is on at most one CPU, and it is on none when it is freed.**
-/

set_option linter.unusedSectionVars false

namespace Xv6
open Function (update update_self update_of_ne update_eq_self)
variable {N : ℕ}

/-! ## steps of processes -/

theorem Kern.setContext_proj {α : Type} (f : Proc N → α)
    (hf : ∀ (q : Proc N) st, f { q with context := st } = f q) (k : Kern N) (i x : Slot N)
    (st : List (Frame N)) : f ((k.setContext i st).proc x) = f (k.proc x) := by
  unfold Kern.setContext
  rw [Kern.upd_proc]
  split
  · rename_i h
    rw [hf, h]
  · rfl

theorem Kern.setContext_state (k : Kern N) (i x : Slot N) (st : List (Frame N)) :
    ((k.setContext i st).proc x).state = (k.proc x).state :=
  k.setContext_proj Proc.state (fun _ _ => rfl) i x st

theorem Kern.setContext_self (k : Kern N) (i : Slot N) (st : List (Frame N)) :
    ((k.setContext i st).proc i).context = st := by
  unfold Kern.setContext
  rw [Kern.upd_same]

theorem Kern.setContext_ne (k : Kern N) {i x : Slot N} (h : x ≠ i) (st : List (Frame N)) :
    (k.setContext i st).proc x = k.proc x := Kern.upd_ne _ _ h

theorem Kern.Reapable.setContext {k : Kern N} {p x : Slot N} (h : k.Reapable p x) (i : Slot N)
    (st : List (Frame N)) : (k.setContext i st).Reapable p x :=
  ⟨(k.setContext_state i x st).trans h.1,
    (k.setContext_proj Proc.parent (fun _ _ => rfl) i x st).trans h.2⟩

namespace Machine
variable {C : Type} [DecidableEq C] [NeZero N] {m : Machine N C} {c : C} {i : Slot N}

/-- what a step of process `i` does, with the invariant at hand -/
theorem Sane.does (h : m.Sane) (hc : m.cur c = some i) {ch : Choice}
    {o : Out N (List (Frame N))}
    (e : threadInstr i m.k ch (m.locks.depth c) (m.k.proc i).context = some o) :
    Does i m.k (m.k.proc i).context o ∧ Low i o.next :=
  threadInstr_does (fun h0 => h.counted.none h0 (h.cpu c i hc).owns) (h.low i) e

theorem Sane.shift_all (h : m.Sane) (hc : m.cur c = some i) {ch : Choice} {op : Op (Lock N)}
    {k' : Kern N} {st' : List (Frame N)} {locks' : Spin (Lock N) C}
    (e : threadInstr i m.k ch (m.locks.depth c) (m.k.proc i).context = some ⟨op, k', st'⟩)
    (hl : m.locks.apply c op = some locks') {x : Slot N} (hx : x ≠ i) :
    Shift (m.locks.owner (.proc x) = none) (m.k.proc x)
      ((k'.setContext i st').proc x) := by
  obtain ⟨j, g, ht, hch⟩ := (h.does hc e).1.touch
  rw [Kern.setContext_ne _ hx]
  by_cases hxj : x = j
  · subst hxj
    exact h.shift ht hl hx hch.here
  · rw [hch.other x hx hxj]
    exact .keep ⟨rfl, rfl, rfl, rfl⟩

theorem Sane.hands (h : m.Sane) (hc : m.cur c = some i) {ch : Choice} {op : Op (Lock N)}
    {k' : Kern N} {st' : List (Frame N)} {locks' : Spin (Lock N) C}
    (e : threadInstr i m.k ch (m.locks.depth c) (m.k.proc i).context = some ⟨op, k', st'⟩)
    (hl : m.locks.apply c op = some locks') :
    (k'.setContext i st').Hands := by
  obtain ⟨⟨hdisc, ⟨j, g, ht, hch⟩, hmem, hkind⟩, hlow⟩ := h.does hc e
  -- the threads of the other processes stay where they are, or start
  have hother : ∀ x, x ≠ i →
      ((k'.setContext i st').proc x).context = (m.k.proc x).context ∨
      ((k'.setContext i st').proc x).context = [.forkret] :=
    fun x hx => (h.shift_all hc e hl hx).context
  have hmaking : ∀ x y, y ∈ (k'.setContext i st').making x →
      (x = i ∧ y ∈ makingOf st') ∨ (x ≠ i ∧ y ∈ m.k.making x) := by
    intro x y hy
    unfold Kern.making at hy
    by_cases hx : x = i
    · subst hx
      rw [Kern.setContext_self] at hy
      exact .inl ⟨rfl, hy⟩
    · rcases hother x hx with hcx | hcx
      · rw [hcx] at hy
        exact .inr ⟨hx, hy⟩
      · rw [hcx] at hy
        cases hy
  have hmine : ∀ y ∈ makingOf st', y ∈ m.k.making i ∨ (m.k.proc y).state = .unused := by
    intro y hy
    rcases ht.making_next hch with hs | ⟨z, hz, hu, -⟩
    · exact .inl (hs.subset hy)
    · rw [hz, List.mem_append, List.mem_singleton] at hy
      rcases hy with hy | rfl
      · exact .inl hy
      · exact .inr hu
  refine ⟨fun x => ?_, fun x y hy => ?_, fun x => ?_, fun x x' y hy hy' => ?_, fun x y hy => ?_,
    fun x => ?_⟩
  · by_cases hx : x = i
    · subst hx
      rw [Kern.setContext_self]
      exact hlow
    · rcases hother x hx with hcx | hcx
      · rw [hcx]
        exact h.low x
      · rw [hcx]
        trivial
  · rw [Kern.setContext_state]
    rcases hmaking x y hy with ⟨rfl, h1⟩ | ⟨hx, h1⟩
    · rcases ht.making_next hch with hs | ⟨z, hz, hu, hu'⟩
      · exact (h.used_stays hc ht hch (h.used x y (hs.subset h1))).resolve_right fun hn => hn.2 h1
      · have h2 := h1
        rw [show makingOf st' = _ from hz, List.mem_append, List.mem_singleton] at h2
        rcases h2 with h2 | rfl
        · exact (h.used_stays hc ht hch (h.used x y h2)).resolve_right fun hn => hn.2 h1
        · exact hu'
    · refine (h.used_stays hc ht hch (h.used x y h1)).resolve_right fun hn => hx ?_
      exact h.disjoint x i y h1 hn.1
  · by_cases hx : x = i
    · subst hx
      unfold Kern.making
      rw [Kern.setContext_self]
      rcases ht.making_next hch with hs | ⟨z, hz, hu, -⟩
      · exact hs.nodup (h.nodup x)
      · rw [hz]
        refine List.nodup_append.mpr ⟨h.nodup x, List.nodup_singleton z, ?_⟩
        intro a ha b hb hab
        rw [List.mem_singleton] at hb
        have hua := h.used x a ha
        rw [hab, hb, hu] at hua
        cases hua
    · unfold Kern.making
      rcases hother x hx with hcx | hcx
      · rw [hcx]
        exact h.nodup x
      · rw [hcx]
        exact List.nodup_nil
  · have hne : ∀ z, (m.k.proc y).state = .unused → y ∈ m.k.making z → False := by
      intro z hu hz
      have hs := h.used z y hz
      rw [hu] at hs
      cases hs
    rcases hmaking x y hy with ⟨rfl, h1⟩ | ⟨hx, h1⟩ <;>
      rcases hmaking x' y hy' with ⟨rfl, h2⟩ | ⟨hx', h2⟩
    · rfl
    · rcases hmine y h1 with hm | hu
      · exact h.disjoint x x' y hm h2
      · exact (hne _ hu h2).elim
    · rcases hmine y h2 with hm | hu
      · exact h.disjoint x x' y h1 hm
      · exact (hne _ hu h1).elim
    · exact h.disjoint x x' y h1 h2
  · refine Kern.Reapable.setContext ?_ i st'
    by_cases hx : x = i
    · subst hx
      rw [Kern.setContext_self] at hy
      have hstay : y ∈ reapingOf (m.k.proc x).context → k'.Reapable x y := fun hr =>
        (h.reapable_stays hc ht hch (h.reapable x y hr)).resolve_right fun hn => hn.2 hy
      rcases threadInstr_main e with ⟨f, f', hst, hst', hf⟩ | ⟨hmain, -⟩
      · rcases (instr_reaping hf (by have := h.once x; rwa [hst] at this)).2 y
          (by have := hy; rwa [show st' = [f'] from hst'] at this) with hr | hr
        · exact hstay (by rw [hst]; exact hr)
        · exact hr
      · refine hstay ?_
        show y ∈ (mainOf (m.k.proc x).context).reaping
        rw [← hmain]
        exact hy
    · rcases hother x hx with hcx | hcx
      · rw [hcx] at hy
        exact (h.reapable_stays hc ht hch (h.reapable x y hy)).resolve_right fun hn => hx hn.1
      · rw [hcx] at hy
        cases hy
  · by_cases hx : x = i
    · subst hx
      rw [Kern.setContext_self]
      rcases threadInstr_main e with ⟨f, f', hst, hst', hf⟩ | ⟨hmain, -⟩
      · rw [show st' = [f'] from hst']
        exact (instr_reaping hf (by have := h.once x; rwa [hst] at this)).1
      · rw [show mainOf st' = mainOf (m.k.proc x).context from hmain]
        exact h.once x
    · rcases hother x hx with hcx | hcx
      · rw [hcx]
        exact h.once x
      · rw [hcx]
        trivial

omit [NeZero N] in
theorem OnCpu.other {m' : Machine N C} (h : m.OnCpu c i) (hp : m'.cproc c = m.cproc c)
    (hs : m'.sch c = m.sch c) (hl : ∀ l, m.locks.owner l = some c → m'.locks.owner l = some c)
    (hk : (m.k.proc i).Keeps (m'.k.proc i)) : m'.OnCpu c i where
  cproc := hp.trans h.cproc
  sch := hs ▸ h.sch
  owns l hn := hl l (h.owns l (by rwa [hk.context] at hn))
  mode := by
    rw [hk.context]
    exact h.mode.keeps hk

omit [NeZero N] in
theorem Idle.other {m' : Machine N C} {st : List (Frame N)} (h : m.Idle c st)
    (hp : m'.cproc c = m.cproc c) (hl : ∀ l, m.locks.owner l = some c → m'.locks.owner l = some c)
    (hs : ∀ j, m.cproc c = some j → (m'.k.proc j).state = (m.k.proc j).state) : m'.Idle c st := by
  unfold Idle at h ⊢
  split at h
  · exact hp.trans h
  · exact ⟨hp.trans h.1, hl _ h.2.1, (hs _ h.1).trans h.2.2⟩
  · rw [hs _ h.1]
    exact ⟨hp.trans h.1, hl _ h.2.1, h.2.2⟩
  · exact ⟨hp.trans h.1, hl _ h.2⟩
  · exact ⟨hp.trans h.1, fun l hn => hl l (h.2 l hn)⟩
  · exact h.elim

theorem Sane.proc_step (h : m.Sane) (hc : m.cur c = some i) {ch : Choice} {op : Op (Lock N)}
    {k' : Kern N} {st' : List (Frame N)} {locks' : Spin (Lock N) C}
    (e : threadInstr i m.k ch (m.locks.depth c) (m.k.proc i).context = some ⟨op, k', st'⟩)
    (hop : op ≠ .swtch) (hl : m.locks.apply c op = some locks') :
    Sane { m with k := k'.setContext i st', locks := locks' } := by
  have hcpu := h.cpu c i hc
  obtain ⟨⟨hdisc, ⟨j, g, ht, hch⟩, -, -⟩, -⟩ := h.does hc e
  have hshift := fun x (hx : x ≠ i) => h.shift_all hc e hl hx
  -- a slot that another CPU has as `c->proc` keeps its state
  have hkeep : ∀ d x, d ≠ c → m.cproc d = some x →
      (m.k.proc x).Keeps ((k'.setContext i st').proc x) := by
    intro d x hd hx
    have hxi : x ≠ i := by
      rintro rfl
      exact hd (h.uniq d c x hx hcpu.cproc)
    obtain ⟨h1, h2, h3⟩ := h.of_cproc hx
    refine (hshift x hxi).keeps (h1.imp id fun ho hf => ?_) h2 h3
    rw [hf] at ho
    cases ho
  refine ⟨h.hands hc e hl, h.counted.apply hl, fun d x hd => ?_, fun d hd => ?_, h.uniq, fun x hx => ?_,
    fun x hx => ?_⟩
  · by_cases hdc : d = c
    · subst hdc
      obtain rfl : i = x := Option.some.inj (hc.symm.trans hd)
      refine ⟨hcpu.cproc, hcpu.sch, ?_, ?_⟩
      · show locks'.Owns d (needs i ((k'.setContext i st').proc i).context)
        rw [Kern.setContext_self]
        exact hcpu.owns.apply hdisc hl
      · show (modeOf i ((k'.setContext i st').proc i).context).Of ((k'.setContext i st').proc i)
        rw [Kern.setContext_self]
        refine (h.own_mode hc ht hch hop).keeps_but ?_ ?_ ?_
        · exact k'.setContext_state i i st'
        · exact k'.setContext_proj Proc.chan (fun _ _ => rfl) i i st'
        · exact k'.setContext_proj Proc.xstate (fun _ _ => rfl) i i st'
    · have hx := h.cpu d x hd
      exact hx.other rfl rfl (fun l hn => Spin.owner_other hdc hl hn) (hkeep d x hdc hx.cproc)
  · have hdc : d ≠ c := by
      rintro rfl
      rw [hc] at hd
      cases hd
    exact (h.idle d hd).other rfl (fun l hn => Spin.owner_other hdc hl hn)
      fun x hx => (hkeep d x hdc hx).state
  · by_cases hxi : x = i
    · exact ⟨c, hxi ▸ hcpu.cproc⟩
    · have hx' : ((k'.setContext i st').proc x).state = .running := hx
      cases hshift x hxi with
      | keep hk => exact h.running x (hk.state.symm.trans hx)
      | wake _ _ hs' | alloc _ hs' | publish _ hs' | freed _ hs' =>
        rw [hs'] at hx'
        cases hx'
  · have hxi : x ≠ i := by
      rintro rfl
      exact hx c hc
    exact (h.parked x hx).shift (hshift x hxi)

theorem Sane.swtch_step (h : m.Sane) (hc : m.cur c = some i) {ch : Choice} {k' : Kern N}
    {st' : List (Frame N)}
    (e : threadInstr i m.k ch (m.locks.depth c) (m.k.proc i).context = some ⟨.swtch, k', st'⟩)
    (ho : m.locks.owner (.proc i) = some c) (hs : (k'.proc i).state ≠ .running) :
    Sane { m with k := k'.setContext i st', cur := update m.cur c none } := by
  have hcpu := h.cpu c i hc
  obtain ⟨⟨-, ⟨j, g, ht, hch⟩, -, -⟩, hlow⟩ := h.does hc e
  have hl : m.locks.apply c .swtch = some m.locks := rfl
  obtain ⟨rfl, rfl, hpoint⟩ : j = i ∧ g = id ∧ pointOf i st' = (modeOf i (m.k.proc i).context).point := by
    cases ht with
    | swtch hp => exact ⟨rfl, rfl, hp⟩
    | keep hn => exact absurd rfl hn
    | link hn => exact absurd rfl hn
  have hsame : ∀ x, (m.k.proc x).Same (k'.proc x) := by
    intro x
    by_cases hx : x = j
    · rw [hx]
      exact hch.here
    · rw [hch.other x hx hx]
      exact .refl _
  have hstate : ∀ x, ((k'.setContext j st').proc x).state = (m.k.proc x).state := fun x =>
    (k'.setContext_state j x st').trans (hsame x).state
  have hkeep : ∀ x, x ≠ j → (m.k.proc x).Keeps ((k'.setContext j st').proc x) := by
    intro x hx
    rw [Kern.setContext_ne _ hx]
    exact (hsame x).keeps
  have hcur : ∀ d x, update m.cur c none d = some x → d ≠ c ∧ m.cur d = some x := by
    intro d x hd
    by_cases hdc : d = c
    · subst hdc
      rw [update_self] at hd
      cases hd
    · rw [update_of_ne hdc] at hd
      exact ⟨hdc, hd⟩
  have hrun := hs
  rw [(hsame j).state] at hrun
  refine ⟨h.hands hc e hl, h.counted, fun d x hd => ?_, fun d hd => ?_, h.uniq, fun x hx => ?_,
    fun x hx => ?_⟩
  · obtain ⟨hdc, hd⟩ := hcur d x hd
    have hx := h.cpu d x hd
    refine hx.other rfl rfl (fun l hn => hn) (hkeep x ?_)
    rintro rfl
    exact hdc (h.uniq d c x hx.cproc hcpu.cproc)
  · by_cases hdc : d = c
    · subst hdc
      obtain ⟨rem, hsch⟩ := hcpu.sch
      show Idle _ d (m.sch d)
      rw [hsch]
      refine ⟨hcpu.cproc, ho, ?_⟩
      show ((k'.setContext j st').proc j).state ≠ _ ∧ ((k'.setContext j st').proc j).state ≠ _ ∧
        ((k'.setContext j st').proc j).state ≠ _
      rw [hstate j]
      exact ⟨hcpu.state.1, hcpu.state.2, hrun⟩
    · have hd' : m.cur d = none := by
        have : update m.cur c none d = none := hd
        rwa [update_of_ne hdc] at this
      exact (h.idle d hd').other rfl (fun l hn => hn) fun x _ => hstate x
  · exact h.running x ((hstate x).symm.trans hx)
  · by_cases hxj : x = j
    · subst hxj
      have hm := hcpu.mode
      have hctx := k'.setContext_self x st'
      have hxs := (k'.setContext_proj Proc.xstate (fun _ _ => rfl) x x st').trans (hsame x).xstate
      have hch' := (k'.setContext_proj Proc.chan (fun _ _ => rfl) x x st').trans (hsame x).chan
      show Parked x ((k'.setContext x st').proc x)
      unfold Parked
      rw [hstate x, hctx, hpoint]
      cases hmode : modeOf x (m.k.proc x).context with
      | run =>
        rw [hmode] at hm
        exact absurd hm hrun
      | asleep ch' =>
        rw [hmode] at hm
        rw [hm.1]
        exact ⟨ch', rfl, hch'.trans hm.2⟩
      | ready =>
        rw [hmode] at hm
        rw [show (m.k.proc x).state = .runnable from hm]
        exact ⟨.yield, rfl, nofun⟩
      | dead status =>
        rw [hmode] at hm
        rw [hm.1, hxs, hm.2]
        exact (pointOf_facts hlow (hpoint.trans (by rw [hmode]; rfl))).2.2 status rfl
    · have hx' : ∀ d, m.cur d ≠ some x := by
        intro d hd
        by_cases hdc : d = c
        · subst hdc
          exact hxj (Option.some.inj (hd.symm.trans hc))
        · refine hx d ?_
          show update m.cur c none d = some x
          rw [update_of_ne hdc]
          exact hd
      exact (h.parked x hx').shift (.keep (hkeep x hxj) : Shift False _ _)

/-! ## steps of the scheduler -/

omit [NeZero N] in
/-- a step of the scheduler thread of `c` that changes no slot -/
theorem Sane.sched_step (h : m.Sane) (hc : m.cur c = none) (op : Op (Lock N))
    {locks' : Spin (Lock N) C} (p : Option (Slot N)) (st : List (Frame N))
    (hl : m.locks.apply c op = some locks') (hp : p = none ∨ p = m.cproc c)
    (hr : ∀ j, m.cproc c = some j → p = none → (m.k.proc j).state ≠ .running)
    (hi : Idle { m with locks := locks', cproc := update m.cproc c p,
                        sch := update m.sch c st } c st) :
    Sane { m with locks := locks', cproc := update m.cproc c p,
                  sch := update m.sch c st } := by
  have hcp : ∀ d x, update m.cproc c p d = some x → m.cproc d = some x := by
    intro d x hx
    by_cases hdc : d = c
    · subst hdc
      rw [update_self] at hx
      rcases hp with rfl | rfl
      · cases hx
      · exact hx
    · rwa [update_of_ne hdc] at hx
  refine ⟨h.toHands, h.counted.apply hl, fun d x hd => ?_, fun d hd => ?_, fun d d' x hx hx' => ?_,
    fun x hx => ?_, h.parked⟩
  · have hdc : d ≠ c := by
      rintro rfl
      rw [hc] at hd
      cases hd
    exact (h.cpu d x hd).other (update_of_ne hdc _ _) (update_of_ne hdc _ _)
      (fun l hn => Spin.owner_other hdc hl hn) ⟨rfl, rfl, rfl, rfl⟩
  · by_cases hdc : d = c
    · subst hdc
      show Idle _ d (update m.sch d st d)
      rw [update_self]
      exact hi
    · show Idle _ d (update m.sch c st d)
      rw [update_of_ne hdc]
      exact (h.idle d hd).other (update_of_ne hdc _ _)
        (fun l hn => Spin.owner_other hdc hl hn) fun _ _ => rfl
  · exact h.uniq d d' x (hcp d x hx) (hcp d' x hx')
  · obtain ⟨d, hd⟩ := h.running x hx
    refine ⟨d, ?_⟩
    show update m.cproc c p d = some x
    by_cases hdc : d = c
    · subst hdc
      rw [update_self]
      rcases hp with rfl | rfl
      · exact absurd hx (hr x hd rfl)
      · exact hd
    · rw [update_of_ne hdc]
      exact hd

omit [NeZero N] in
/-- a process whose lock is free and that does not run is on no CPU -/
theorem Sane.not_cproc (h : m.Sane) {j : Slot N} (hf : m.locks.owner (.proc j) = none)
    (hr : (m.k.proc j).state ≠ .running) (d : C) : m.cproc d ≠ some j := by
  intro hd
  rcases (h.of_cproc hd).1 with h1 | h1
  · exact hr h1
  · rw [hf] at h1
    cases h1

omit [NeZero N] in
theorem Sane.take_step (h : m.Sane) (hc : m.cur c = none) {j : Slot N} {rem : List (Slot N)}
    {locks' : Spin (Lock N) C} (hs : m.sch c = [.schedLoop (j :: rem)])
    (hr : (m.k.proc j).state = .runnable) (hl : m.locks.apply c (.acq (.proc j)) = some locks') :
    Sane { m with k := m.k.upd j fun q => { q with state := .running }, locks := locks',
                  cproc := update m.cproc c (some j),
                  sch := update m.sch c [.schedGo j rem] } := by
  have hfree := h.not_cproc (Spin.apply_acq hl).1 (by rw [hr]; nofun)
  have hne : ∀ x, x ≠ j → (m.k.upd j fun q => { q with state := .running }).proc x = m.k.proc x :=
    fun x hx => Kern.upd_ne _ _ hx
  have hj : (m.k.upd j fun q => { q with state := .running }).proc j
      = { m.k.proc j with state := .running } := Kern.upd_same _ _ _
  have hctx : ∀ x, ((m.k.upd j fun q => { q with state := .running }).proc x).context
      = (m.k.proc x).context := by
    intro x
    by_cases hx : x = j
    · rw [hx, hj]
    · rw [hne x hx]
  have hidle := h.idle c hc
  rw [hs] at hidle
  refine ⟨h.toHands.congr hctx fun x hx => ?_, h.counted.apply hl, fun d x hd => ?_, fun d hd => ?_,
    fun d d' x hx hx' => ?_, fun x hx => ?_, fun x hx => ?_⟩
  · have hxj : x ≠ j := by
      rintro rfl
      rw [hr] at hx
      rcases hx with hx | hx <;> cases hx
    rw [hne x hxj]
    exact ⟨rfl, rfl⟩
  · have hdc : d ≠ c := by
      rintro rfl
      rw [hc] at hd
      cases hd
    have hx := h.cpu d x hd
    have hxj : x ≠ j := by
      rintro rfl
      exact hfree d hx.cproc
    refine hx.other (update_of_ne hdc _ _) (update_of_ne hdc _ _)
      (fun l hn => Spin.owner_other hdc hl hn) ?_
    show (m.k.proc x).Keeps ((m.k.upd j fun q => { q with state := .running }).proc x)
    rw [hne x hxj]
    exact ⟨rfl, rfl, rfl, rfl⟩
  · by_cases hdc : d = c
    · subst hdc
      show Idle _ d (update m.sch d _ d)
      rw [update_self]
      refine ⟨update_self _ _ _, ?_, ?_⟩
      · obtain ⟨-, rfl⟩ := Spin.apply_acq hl
        exact update_self _ _ _
      · show ((m.k.upd j fun q => { q with state := .running }).proc j).state = .running
        rw [hj]
    · show Idle _ d (update m.sch c _ d)
      rw [update_of_ne hdc]
      refine (h.idle d hd).other (update_of_ne hdc _ _)
        (fun l hn => Spin.owner_other hdc hl hn) fun x hx => ?_
      show ((m.k.upd j fun q => { q with state := .running }).proc x).state = (m.k.proc x).state
      rw [hne x fun e => hfree d (e ▸ hx)]
  · change update m.cproc c (some j) d = some x at hx
    change update m.cproc c (some j) d' = some x at hx'
    by_cases hdc : d = c <;> by_cases hdc' : d' = c
    · rw [hdc, hdc']
    · rw [hdc, update_self] at hx
      rw [update_of_ne hdc', ← Option.some.inj hx] at hx'
      exact absurd hx' (hfree d')
    · rw [hdc', update_self] at hx'
      rw [update_of_ne hdc, ← Option.some.inj hx'] at hx
      exact absurd hx (hfree d)
    · rw [update_of_ne hdc] at hx
      rw [update_of_ne hdc'] at hx'
      exact h.uniq d d' x hx hx'
  · by_cases hxj : x = j
    · exact ⟨c, by rw [hxj]; exact update_self _ _ _⟩
    · change ((m.k.upd j fun q => { q with state := .running }).proc x).state = .running at hx
      rw [hne x hxj] at hx
      obtain ⟨d, hd⟩ := h.running x hx
      have hdc : d ≠ c := by
        rintro rfl
        rw [show m.cproc d = none from hidle] at hd
        cases hd
      refine ⟨d, ?_⟩
      show update m.cproc c (some j) d = some x
      rw [update_of_ne hdc]
      exact hd
  · have hp := h.parked x hx
    show Parked x ((m.k.upd j fun q => { q with state := .running }).proc x)
    by_cases hxj : x = j
    · subst hxj
      unfold Parked at hp ⊢
      rw [hr] at hp
      rw [hj]
      exact hp
    · rw [hne x hxj]
      exact hp

omit [NeZero N] in
theorem Sane.go_step (h : m.Sane) (hc : m.cur c = none) {j : Slot N} {rem : List (Slot N)}
    (hs : m.sch c = [.schedGo j rem]) :
    Sane { m with cur := update m.cur c (some j),
                  sch := update m.sch c [.schedBack j rem] } := by
  have hidle := h.idle c hc
  rw [hs] at hidle
  obtain ⟨hcp, ho, hr⟩ := hidle
  have hcur : ∀ d, m.cur d ≠ some j := by
    intro d hd
    obtain rfl := h.uniq d c j (h.cpu d j hd).cproc hcp
    rw [hc] at hd
    cases hd
  have hp := h.parked j hcur
  unfold Parked at hp
  rw [hr] at hp
  obtain ⟨P, hP, -⟩ := hp
  obtain ⟨h1, h2, -⟩ := pointOf_facts (h.low j) hP
  refine ⟨h.toHands, h.counted, fun d x hd => ?_, fun d hd => ?_, h.uniq, h.running, fun x hx => ?_⟩
  · by_cases hdc : d = c
    · subst hdc
      change update m.cur d (some j) d = some x at hd
      rw [update_self] at hd
      obtain rfl := Option.some.inj hd
      refine ⟨hcp, ⟨rem, update_self _ _ _⟩, fun l hn => ?_, ?_⟩
      · rw [List.mem_singleton.mp (h1 hn)]
        exact ho
      · show (modeOf j (m.k.proc j).context).Of (m.k.proc j)
        rw [h2]
        exact hr
    · change update m.cur c (some j) d = some x at hd
      rw [update_of_ne hdc] at hd
      exact (h.cpu d x hd).other rfl (update_of_ne hdc _ _) (fun _ hn => hn)
        ⟨rfl, rfl, rfl, rfl⟩
  · change update m.cur c (some j) d = none at hd
    have hdc : d ≠ c := by
      rintro rfl
      rw [update_self] at hd
      cases hd
    rw [update_of_ne hdc] at hd
    show Idle _ d (update m.sch c _ d)
    rw [update_of_ne hdc]
    exact (h.idle d hd).other rfl (fun _ hn => hn) fun _ _ => rfl
  · refine h.parked x fun d hd => ?_
    have hdc : d ≠ c := by
      rintro rfl
      rw [hc] at hd
      cases hd
    refine hx d ?_
    show update m.cur c (some j) d = some x
    rw [update_of_ne hdc]
    exact hd

omit [NeZero N] in
theorem Sane.woken (h : m.Sane) {j : Slot N} (hf : m.locks.owner (.proc j) = none)
    (ch : Option (Chan N)) : Sane { m with k := m.k.upd j (Proc.woken ch) } := by
  rcases (m.k.proc j).woken_cases ch with he | ⟨hs, -, he⟩
  · have hk : m.k.upd j (Proc.woken ch) = m.k := by
      unfold Kern.upd
      rw [he, update_eq_self]
    rw [hk]
    exact h
  have hfree := h.not_cproc hf (by rw [hs]; nofun)
  have hne : ∀ x, x ≠ j → (m.k.upd j (Proc.woken ch)).proc x = m.k.proc x :=
    fun x hx => Kern.upd_ne _ _ hx
  have hj : (m.k.upd j (Proc.woken ch)).proc j = { m.k.proc j with state := .runnable } :=
    (Kern.upd_same _ _ _).trans he
  have hctx : ∀ x, ((m.k.upd j (Proc.woken ch)).proc x).context = (m.k.proc x).context := by
    intro x
    by_cases hx : x = j
    · rw [hx, hj]
    · rw [hne x hx]
  refine ⟨h.toHands.congr hctx fun x hx => ?_, h.counted, fun d x hd => ?_, fun d hd => ?_, h.uniq,
    fun x hx => ?_, fun x hx => ?_⟩
  · have hxj : x ≠ j := by
      rintro rfl
      rw [hs] at hx
      rcases hx with hx | hx <;> cases hx
    rw [hne x hxj]
    exact ⟨rfl, rfl⟩
  · have hx := h.cpu d x hd
    refine hx.other rfl rfl (fun _ hn => hn) ?_
    show (m.k.proc x).Keeps ((m.k.upd j (Proc.woken ch)).proc x)
    rw [hne x fun e => hfree d (e ▸ hx.cproc)]
    exact ⟨rfl, rfl, rfl, rfl⟩
  · refine (h.idle d hd).other rfl (fun _ hn => hn) fun x hx => ?_
    show ((m.k.upd j (Proc.woken ch)).proc x).state = (m.k.proc x).state
    rw [hne x fun e => hfree d (e ▸ hx)]
  · change ((m.k.upd j (Proc.woken ch)).proc x).state = .running at hx
    have hxj : x ≠ j := by
      rintro rfl
      rw [hj] at hx
      cases hx
    rw [hne x hxj] at hx
    exact h.running x hx
  · show Parked x ((m.k.upd j (Proc.woken ch)).proc x)
    have hshift : Shift True (m.k.proc x) ((m.k.upd j (Proc.woken ch)).proc x) := by
      by_cases hxj : x = j
      · rw [hxj]
        exact .wake trivial hs (by rw [hj]) (by rw [hj])
      · rw [hne x hxj]
        exact .keep ⟨rfl, rfl, rfl, rfl⟩
    exact (h.parked x hx).shift hshift

/-- **Every step keeps the invariant.** -/
theorem Sane.step (h : m.Sane) {m' : Machine N C} {ch : Choice} (hstep : m.step c ch = some m') :
    m'.Sane := by
  cases step_moves hstep with
  | proc hc e hop hl => exact h.proc_step hc e hop hl
  | swtch hc e ho hd hs => exact h.swtch_step hc e ho hs
  | @loop st hc hs =>
    obtain ⟨rem, hs, hst⟩ := hs
    have hidle := h.idle c hc
    rw [hs] at hidle
    have hs := h.sched_step hc .tau (m.cproc c) st rfl (.inr rfl)
      (fun j h1 h2 => by rw [h1] at h2; cases h2)
    rw [update_eq_self] at hs
    refine hs ?_
    rcases hst with rfl | ⟨timer, rfl⟩
    · exact hidle
    · exact ⟨hidle, nofun⟩
  | take hc hs hr hl => exact h.take_step hc hs hr hl
  | @skip j rem locks' hc hs hl =>
    have hidle := h.idle c hc
    rw [hs] at hidle
    have hs := h.sched_step hc _ (m.cproc c) [.schedRel j rem] hl (.inr rfl)
      (fun j h1 h2 => by rw [h1] at h2; cases h2)
    rw [update_eq_self] at hs
    refine hs ⟨hidle, ?_⟩
    obtain ⟨-, rfl⟩ := Spin.apply_acq hl
    exact update_self _ _ _
  | go hc hs => exact h.go_step hc hs
  | @back j rem hc hs =>
    have hidle := h.idle c hc
    rw [hs] at hidle
    refine h.sched_step hc .tau none [.schedRel j rem] rfl (.inl rfl)
      (fun x hx _ => ?_) ⟨update_self _ _ _, hidle.2.1⟩
    rw [hidle.1] at hx
    obtain rfl := Option.some.inj hx
    exact hidle.2.2.2.2
  | @rel j rem locks' hc hs hl =>
    have hidle := h.idle c hc
    rw [hs] at hidle
    have hs := h.sched_step hc _ (m.cproc c) [.schedLoop rem] hl (.inr rfl)
      (fun j h1 h2 => by rw [h1] at h2; cases h2)
    rw [update_eq_self] at hs
    exact hs hidle.1
  | @intr timer ks f op k' x locks' hc hs e hl =>
    have hidle := h.idle c hc
    rw [hs] at hidle
    obtain ⟨hdisc, hk⟩ := kernInstr_idle e
    -- first the slot that `wakeup` changes, then the locks and the place
    have h1 : Sane { m with k := k' } := by
      rcases hk with rfl | ⟨j, ch', rfl, rfl⟩
      · exact h
      · exact h.woken (Spin.apply_acq hl).1 ch'
    cases f with
    | schedLoop rem =>
      have h2 := h1.sched_step hc _ (m.cproc c)
        (Sum.elim (fun ks => [.intr timer ks, .schedLoop rem]) (fun _ => [.schedLoop rem]) x)
        hl (.inr rfl) (fun j h1 h2 => by rw [h1] at h2; cases h2)
      rw [show update m.cproc c (m.cproc c) = m.cproc from update_eq_self _ _] at h2
      refine h2 ?_
      cases x with
      | inl ks => exact ⟨hidle.1, hidle.2.apply hdisc hl⟩
      | inr r => exact hidle.1
    | _ => exact hidle.elim

/-! ## the start -/

end Machine

theorem slots_head [NeZero N] : ∃ rest, slots N = initproc :: rest := by
  obtain ⟨n, rfl⟩ := Nat.exists_eq_succ_of_ne_zero (NeZero.ne N)
  exact ⟨_, List.finRange_succ⟩

/-- the process table after `userinit` -/
structure Kern.Booted [NeZero N] (k : Kern N) : Prop where
  init : ({ Proc.zero with state := .runnable, pid := 1, context := [.forkret] } : Proc N).Same
    (k.proc initproc)
  other : ∀ x, x ≠ initproc → k.proc x = Proc.zero

theorem booted [NeZero N] {pages : List Nat} {k : Kern N}
    (h : exec userinit (Kern.zero pages) = some ((), k)) : k.Booted := by
  obtain ⟨s', e, rfl⟩ := exec_some h
  obtain ⟨p, pa, pt, q, ⟨s1, e1⟩, hother, hp, hq⟩ := userinit_spec e
  obtain rfl : p = initproc := by
    obtain ⟨rest, hr⟩ := slots_head (N := N)
    unfold allocproc at e1
    rw [hr] at e1
    exact allocprocScan_head rfl e1
  refine ⟨?_, hother⟩
  rw [hp, hq]
  exact ⟨rfl, rfl, rfl, rfl, rfl, rfl, rfl, rfl⟩

namespace Machine
variable {C : Type} [DecidableEq C] [NeZero N] {m : Machine N C}

theorem Init.booted (h : Init m) : m.k.Booted ∧ m.locks = .free ∧ (∀ c, m.cur c = none) ∧
    (∀ c, m.cproc c = none) ∧ ∀ c, m.sch c = [.schedLoop []] := by
  obtain ⟨pages, hb⟩ := h
  obtain ⟨⟨_, k⟩, e, rfl⟩ := Option.map_eq_some_iff.mp hb
  exact ⟨Xv6.booted e, rfl, fun _ => rfl, fun _ => rfl, fun _ => rfl⟩

theorem Sane.init (h : Init m) : m.Sane := by
  obtain ⟨hk, hl, hcur, hcp, hsch⟩ := h.booted
  have hctx : ∀ x, (m.k.proc x).context = [] ∨ (m.k.proc x).context = [.forkret] := by
    intro x
    by_cases hx : x = initproc
    · rw [hx]
      exact .inr hk.init.context
    · rw [hk.other x hx]
      exact .inl rfl
  have hstate : ∀ x, (m.k.proc x).state ≠ .running := by
    intro x
    by_cases hx : x = initproc
    · rw [hx, hk.init.state]
      nofun
    · rw [hk.other x hx]
      nofun
  refine ⟨⟨fun x => ?_, fun i x hx => ?_, fun i => ?_, fun i i' x hx _ => ?_, fun i x hx => ?_,
    fun i => ?_⟩, hl ▸ Spin.counted_free, fun c i hi => ?_, fun c _ => ?_, fun c c' j hj => ?_,
    fun x hx => absurd hx (hstate x), fun x _ => ?_⟩
  · rcases hctx x with e | e <;> rw [e] <;> trivial
  · unfold Kern.making at hx
    rcases hctx i with e | e <;> rw [e] at hx <;> cases hx
  · unfold Kern.making
    rcases hctx i with e | e <;> rw [e] <;> exact List.nodup_nil
  · unfold Kern.making at hx
    rcases hctx i with e | e <;> rw [e] at hx <;> cases hx
  · rcases hctx i with e | e <;> rw [e] at hx <;> cases hx
  · rcases hctx i with e | e <;> rw [e] <;> trivial
  · rw [hcur] at hi
    cases hi
  · rw [hsch c]
    exact hcp c
  · rw [hcp] at hj
    cases hj
  · unfold Parked
    by_cases hx : x = initproc
    · rw [hx, hk.init.state]
      refine ⟨.start, ?_, nofun⟩
      rw [hk.init.context]
      rfl
    · rw [hk.other x hx]
      exact .inl rfl

theorem Sane.of_run {σ : ℕ → Machine N C} (h : Run σ) (t : ℕ) : (σ t).Sane :=
  h.invariant (fun _ => Sane.init) (fun _ _ hs ⟨_, _, e⟩ => hs.step e) t

end Machine

/-! ## exclusion -/

/-- `allocproc` frees the slot it found when memory runs out -/
def allocFrees (k : Kern N) : AllocAt N → Option (Slot N)
  | .acq (j :: _) =>
    if (k.proc j).state = .unused ∧ (exec (allocprocFound j) k).any (fun r => !r.1) then some j
    else none
  | _ => none

/-- the slot to which the next step of the thread of `i` applies `freeproc` -/
def frees (i : Slot N) (k : Kern N) : List (Frame N) → Option (Slot N)
  | [.fork (.alloc a)] => allocFrees k a
  | [.fork (.fill np)] =>
    if (exec (copyChild i np 0) k).any (fun r => !r.1) then some np else none
  | [.forkn _ _ (.alloc a _ _)] => allocFrees k a
  | [.forkn _ _ (.fill np kids _)] =>
    if (exec (copyChild i np (kids.length + 1)) k).any (fun r => !r.1) then some np else none
  | [.forkn _ _ (.clean (j :: _))] => some j
  | [.wait addr msg (.scan (j :: _) _)] =>
    if (k.proc j).parent = some i ∧ (k.proc j).state = .zombie ∧
      (exec (waitReap i j addr msg) k).any (fun r => r.1.isSome) then some j else none
  | [.waitall _ _ (.free (j :: _) _)] => some j
  | _ => none

/-- where `freeproc` is applied: to a slot in the hands of the routine, or under its lock -/
theorem frees_cases [NeZero N] {i j : Slot N} {k : Kern N} {ch : Choice} {d : Nat}
    {st : List (Frame N)} {o : Out N (List (Frame N))} (hf : frees i k st = some j)
    (e : threadInstr i k ch d st = some o) (hch : ∀ timer, ch ≠ .irq timer) :
    j ∈ makingOf st ∨ (o.op = .acq (.proc j) ∧
      ((k.proc j).state = .unused ∨ (k.proc j).state = .zombie ∨ j ∈ reapingOf st)) := by
  have hmain : ∀ f, st = [f] → ∃ o', instr i k ch f = some o' ∧ o'.op = o.op := by
    rintro f rfl
    rcases threadInstr_main e with ⟨_, f', hst, -, h⟩ | ⟨-, -⟩
    · cases hst
      exact ⟨_, h, rfl⟩
    · have e' : (instr i k ch f).map (Out.map fun f => [f]) = some o := by
        cases ch
        case irq timer => exact absurd rfl (hch timer)
        all_goals exact e
      obtain ⟨o', h, rfl⟩ := Option.map_eq_some_iff.mp e'
      exact ⟨o', h, rfl⟩
  have halloc : ∀ a, allocFrees k a = some j → ∀ oa, allocInstr k a = some oa →
      oa.op = .acq (.proc j) ∧ (k.proc j).state = .unused := by
    intro a ha oa hoa
    unfold allocFrees at ha
    split at ha
    · rename_i x rem
      split at ha
      · rename_i hu
        cases ha
        dsimp only [allocInstr] at hoa
        rw [if_pos hu.1] at hoa
        split at hoa <;> cases hoa
        · exact ⟨rfl, hu.1⟩
        · exact ⟨rfl, hu.1⟩
      · cases ha
    · cases ha
  unfold frees at hf
  split at hf
  · obtain ⟨o', h, ho⟩ := hmain _ rfl
    obtain ⟨oa, hoa, rfl⟩ := Option.map_eq_some_iff.mp h
    obtain ⟨h1, h2⟩ := halloc _ hf oa hoa
    exact .inr ⟨ho.symm.trans h1, .inl h2⟩
  · split at hf
    · cases hf
      exact .inl List.mem_cons_self
    · cases hf
  · obtain ⟨o', h, ho⟩ := hmain _ rfl
    obtain ⟨oa, hoa, rfl⟩ := Option.map_eq_some_iff.mp h
    obtain ⟨h1, h2⟩ := halloc _ hf oa hoa
    exact .inr ⟨ho.symm.trans h1, .inl h2⟩
  · split at hf
    · cases hf
      exact .inl (List.mem_append_right [] (List.mem_append_right _ List.mem_cons_self))
    · cases hf
  · cases hf
    exact .inl List.mem_cons_self
  · split at hf
    · rename_i hc
      cases hf
      obtain ⟨o', h, ho⟩ := hmain _ rfl
      dsimp only [instr, waitInstr] at h
      rw [if_pos hc.1, if_pos hc.2.1] at h
      obtain ⟨r, -, rfl⟩ := Option.map_eq_some_iff.mp h
      exact .inr ⟨ho.symm, .inr (.inl hc.2.1)⟩
    · cases hf
  · cases hf
    obtain ⟨o', h, ho⟩ := hmain _ rfl
    obtain ⟨r, -, rfl⟩ := Option.map_eq_some_iff.mp h
    exact .inr ⟨ho.symm, .inr (.inr List.mem_cons_self)⟩
  · cases hf

namespace Machine
variable {C : Type} [DecidableEq C] [NeZero N] {m : Machine N C} {c : C} {i j : Slot N}

/-- a slot is freed by no other CPU than those that do not have it -/
theorem Sane.frees_free (h : m.Sane) (hc : m.cur c = some i) {ch : Choice} {m' : Machine N C}
    (hch : ∀ timer, ch ≠ .irq timer) (e : m.step c ch = some m')
    (hf : frees i m.k (m.k.proc i).context = some j) (d : C) : m.cproc d ≠ some j := by
  intro hd
  obtain ⟨h1, h2, h3⟩ := h.of_cproc hd
  have hmake : j ∉ makingOf (m.k.proc i).context := fun hm => h3 (h.used i j hm)
  have hlock : ∀ {o locks'}, threadInstr i m.k ch (m.locks.depth c) (m.k.proc i).context = some o →
      m.locks.apply c o.op = some locks' → False := by
    intro o locks' he hl
    rcases frees_cases hf he hch with hm | ⟨ho, hs⟩
    · exact hmake hm
    · rw [ho] at hl
      have hfree := (Spin.apply_acq hl).1
      have hz : (m.k.proc j).state = .zombie := by
        rcases hs with hu | hz | hr
        · exact absurd hu h2
        · exact hz
        · exact (h.reapable i j hr).1
      exact h.not_cproc hfree (by rw [hz]; nofun) d hd
  cases step_moves e with
  | proc hc' he _ hl =>
    obtain rfl := Option.some.inj (hc.symm.trans hc')
    exact hlock he hl
  | swtch hc' he ho =>
    obtain rfl := Option.some.inj (hc.symm.trans hc')
    exact hlock (o := ⟨.swtch, _, _⟩) he rfl
  | loop hc' | take hc' | skip hc' | go hc' | back hc' | rel hc' | intr hc' =>
    rw [hc] at hc'
    cases hc'

theorem Sane.unused_free (h : m.Sane) {ch : Choice} {m' : Machine N C} (e : m.step c ch = some m')
    (hu : (m.k.proc j).state ≠ .unused) (hu' : (m'.k.proc j).state = .unused) (d : C) :
    m.cproc d ≠ some j := by
  intro hd
  obtain ⟨h1, -, h3⟩ := h.of_cproc hd
  cases step_moves e with
  | @proc i op k' st' locks' hc he hop hl =>
    change ((k'.setContext i st').proc j).state = .unused at hu'
    by_cases hji : j = i
    · subst hji
      have := ((h.proc_step hc he hop hl).cpu c j hc).state.1
      exact this hu'
    · have hk := (h.shift_all hc he hl hji).keeps (h1.imp id fun ho hf => by
        rw [hf] at ho
        cases ho) hu h3
      exact hu (hk.state.symm.trans hu')
  | @swtch i k' st' hc he ho hd' hs =>
    change ((k'.setContext i st').proc j).state = .unused at hu'
    by_cases hji : j = i
    · subst hji
      obtain ⟨rem, hsch⟩ := (h.cpu c j hc).sch
      have hidle := (h.swtch_step hc he ho hs).idle c (update_self _ _ _)
      change Idle _ c (m.sch c) at hidle
      rw [hsch] at hidle
      exact hidle.2.2.1 hu'
    · have hk := (h.shift_all hc he rfl hji).keeps (h1.imp id fun ho hf => by
        rw [hf] at ho
        cases ho) hu h3
      exact hu (hk.state.symm.trans hu')
  | loop | skip | go | back | rel => exact hu hu'
  | @take x rem locks' hc hs hr hl =>
    change ((m.k.upd x fun q => { q with state := .running }).proc j).state = .unused at hu'
    rw [Kern.upd_proc] at hu'
    split at hu'
    · cases hu'
    · exact hu hu'
  | @intr timer ks f op k' y locks' hc hs he hl =>
    change (k'.proc j).state = .unused at hu'
    rcases (kernInstr_idle he).2 with rfl | ⟨x, ch', -, rfl⟩
    · exact hu hu'
    · rw [Kern.upd_proc] at hu'
      split at hu'
      · rename_i hjx
        rcases (m.k.proc x).woken_cases ch' with hw | ⟨-, -, hw⟩
        · rw [hw, ← hjx] at hu'
          exact hu hu'
        · rw [hw] at hu'
          cases hu'
      · exact hu hu'

end Machine

/-- **Scheduler exclusion.**  On any number of CPUs and in every state of every run: a process is
`c->proc` of at most one CPU and executed by at most one, of exactly one if it is `RUNNING` and its
lock is free; `freeproc` is applied to a slot, and a slot becomes `UNUSED`, only while no CPU has or
executes that process. -/
theorem scheduler_exclusion {C : Type} [DecidableEq C] [NeZero N] {σ : ℕ → Machine N C}
    (h : Machine.Run σ) (t : ℕ) :
    (∀ c c' p, (σ t).cproc c = some p → (σ t).cproc c' = some p → c = c') ∧
    (∀ c c' p, (σ t).cur c = some p → (σ t).cur c' = some p → c = c') ∧
    (∀ p, ((σ t).k.proc p).state = .running → (σ t).locks.owner (.proc p) = none →
      ∃! c, (σ t).cproc c = some p) ∧
    (∀ c ch m' i j, (σ t).cur c = some i → (∀ timer, ch ≠ .irq timer) →
      (σ t).step c ch = some m' → frees i (σ t).k ((σ t).k.proc i).context = some j →
      ∀ d, (σ t).cproc d ≠ some j ∧ (σ t).cur d ≠ some j) ∧
    (∀ c ch m' j, (σ t).step c ch = some m' → ((σ t).k.proc j).state ≠ .unused →
      (m'.k.proc j).state = .unused → ∀ d, (σ t).cproc d ≠ some j ∧ (σ t).cur d ≠ some j) := by
  have hs := Machine.Sane.of_run h t
  have hcur : ∀ {j d}, (σ t).cproc d ≠ some j → (σ t).cur d ≠ some j :=
    fun hn hd => hn (hs.cpu _ _ hd).cproc
  refine ⟨hs.uniq, fun c c' p h1 h2 => ?_, fun p hr _ => ?_, fun c ch m' i j hc hch e hf d => ?_,
    fun c ch m' j e hu hu' d => ?_⟩
  · exact hs.uniq c c' p (hs.cpu c p h1).cproc (hs.cpu c' p h2).cproc
  · obtain ⟨c, hc⟩ := hs.running p hr
    exact ⟨c, hc, fun c' hc' => hs.uniq c' c p hc' hc⟩
  · have hd := hs.frees_free hc hch e hf d
    exact ⟨hd, hcur hd⟩
  · have hd := hs.unused_free e hu hu' d
    exact ⟨hd, hcur hd⟩

theorem scheduler_exclusion_sample : ∃ m, sampleBoot = some m ∧
    let σ := m.schedule sampleRun
    ((σ 4).k.proc 0).state = .running ∧ (σ 4).locks.owner (.proc 0) = none ∧
    (σ 4).cproc 1 = some 0 ∧ ∃! c, (σ 4).cproc c = some 0 := by
  obtain ⟨m, hm, h1, h2, h3⟩ := sample_any (fun m => ((m.schedule sampleRun 4).k.proc 0).state = .running ∧
    (m.schedule sampleRun 4).locks.owner (.proc 0) = none ∧
    (m.schedule sampleRun 4).cproc 1 = some 0) (by decide +kernel)
  refine ⟨m, hm, h1, h2, h3, ?_⟩
  exact (scheduler_exclusion (Machine.schedule_run ⟨_, hm⟩ _) 4).2.2.1 0 h1 h2

end Xv6
