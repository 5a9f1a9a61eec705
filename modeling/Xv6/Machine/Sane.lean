import Xv6.Machine.Does

/-!
# CPUs, threads and slots: the invariant of the scheduler

* `Shift`   what another thread can do to a slot;
* `Parked`   where `swtch` left the thread of a process that is on no CPU;
* `Kern.Hands`   the slots that the routines have in their hands;
* `Machine.Sane`   the invariant: what each CPU executes and owns, and where the other threads are;
* `Sane.shift`, `Sane.own_mode`   a step of a process, seen from the other slots and from its own.
-/

set_option linter.unusedSectionVars false

namespace Xv6
variable {N : ℕ}

/-! ## where `swtch` leaves a thread -/

/-- a thread that `swtch` has left holds its own lock, and runs when it is resumed -/
theorem Frame.point_facts {i : Slot N} {f : Frame N} {P : Point N} (h : f.point i = some P) :
    f.need i = [.proc i] ∧ f.mode i = .run ∧
    ∀ status, P = .dead status → ∃ msg, f = .exit status msg .dead := by
  have hs : ∀ ch lk s, sleepPoint (N := N) ch s = some P →
      sleepNeed i lk s = [.proc i] ∧ sleepMode (N := N) ch s = .run ∧ ∃ c, P = .sleep c := by
    rintro ch lk (_ | _ | _ | _ | _ | _) hp <;> cases hp
    exact ⟨rfl, rfl, ch, rfl⟩
  have hy : ∀ s, yieldPoint (N := N) s = some P →
      yieldNeed i s = [.proc i] ∧ yieldMode (N := N) s = .run ∧ P = .yield := by
    rintro (_ | _ | _) hp <;> cases hp
    exact ⟨rfl, rfl, rfl⟩
  have hk : ∀ ks, kernPoint ks = some P →
      kernNeed (some i) ks = [.proc i] ∧ kernMode ks = .run ∧ ∃ c, P = .sleep c := by
    rintro (_ | ⟨a, lk, s⟩ | _) hp
    · cases hp
    · exact hs _ _ s hp
    · cases hp
  have sleeps : ∀ {A B : Prop}, (A ∧ B ∧ ∃ c, P = .sleep c) →
      A ∧ B ∧ ∀ status, P = .dead status → ∃ msg, f = .exit status msg .dead := by
    rintro A B ⟨h1, h2, c, rfl⟩
    exact ⟨h1, h2, fun _ e => by cases e⟩
  have yields : ∀ {A B : Prop}, (A ∧ B ∧ P = .yield) →
      A ∧ B ∧ ∀ status, P = .dead status → ∃ msg, f = .exit status msg .dead := by
    rintro A B ⟨h1, h2, rfl⟩
    exact ⟨h1, h2, fun _ e => by cases e⟩
  cases f with
  | trapDev _ ks => exact sleeps (hk ks h)
  | trapYield s => exact yields (hy s h)
  | kern _ ks => exact sleeps (hk ks h)
  | exit status msg p =>
    cases p with
    | close ks => exact sleeps (hk ks h)
    | dead =>
      cases h
      refine ⟨rfl, rfl, fun st e => ?_⟩
      cases e
      exact ⟨msg, rfl⟩
    | _ => cases h
  | wait _ _ p =>
    cases p with
    | sleeping s => exact sleeps (hs _ _ s h)
    | _ => cases h
  | waitall _ _ p =>
    cases p with
    | sleeping _ s => exact sleeps (hs _ _ s h)
    | _ => cases h
  | forkret =>
    cases h
    exact ⟨rfl, rfl, fun _ e => by cases e⟩
  | intr _ ks => exact sleeps (hk ks h)
  | intrYield s => exact yields (hy s h)
  | _ => cases h

theorem pointOf_facts {i : Slot N} {st : List (Frame N)} {P : Point N} (hl : Low i st)
    (h : pointOf i st = some P) :
    needs i st ⊆ [.proc i] ∧ modeOf i st = .run ∧
    ∀ status, P = .dead status → ∃ msg, st = [.exit status msg .dead] := by
  match st with
  | [] => cases h
  | [f] =>
    obtain ⟨h1, h2, h3⟩ := Frame.point_facts h
    refine ⟨h1 ▸ List.Subset.refl _, h2, fun status e => ?_⟩
    obtain ⟨msg, rfl⟩ := h3 status e
    exact ⟨msg, rfl⟩
  | [g, f] =>
    obtain ⟨h1, h2, h3⟩ := Frame.point_facts h
    refine ⟨?_, h2, fun status e => ?_⟩
    · show g.need i ++ f.need i ⊆ [.proc i]
      rw [h1, hl.2]
      exact List.Subset.refl _
    · obtain ⟨msg, rfl⟩ := h3 status e
      cases hl.1
  | _ :: _ :: _ :: _ => exact hl.elim

/-! ## the life of a slot -/

/-- the same state, channel, status and thread -/
structure Proc.Keeps (q q' : Proc N) : Prop where
  state : q'.state = q.state
  chan : q'.chan = q.chan
  xstate : q'.xstate = q.xstate
  context : q'.context = q.context

/-- what another thread can do to a slot; `free` says that its lock was free before -/
inductive Shift (free : Prop) (q q' : Proc N) : Prop
  | keep (h : q.Keeps q')
  | wake (hf : free) (hs : q.state = .sleeping) (hs' : q'.state = .runnable)
    (hc : q'.context = q.context)
  | alloc (hs : q.state = .unused) (hs' : q'.state = .used) (hc : q'.context = [.forkret])
  | publish (hs : q.state = .used) (hs' : q'.state = .runnable) (hc : q'.context = q.context)
  | freed (hs : q.state = .unused ∨ q.state = .used ∨ free ∧ q.state = .zombie)
    (hs' : q'.state = .unused) (hc : q'.context = q.context)

theorem Shift.keeps {free : Prop} {q q' : Proc N} (h : Shift free q q')
    (hr : q.state = .running ∨ ¬free) (hu : q.state ≠ .unused) (hd : q.state ≠ .used) :
    q.Keeps q' := by
  cases h with
  | keep h => exact h
  | wake hf hs =>
    rcases hr with hr | hr
    · rw [hs] at hr
      cases hr
    · exact absurd hf hr
  | alloc hs => exact absurd hs hu
  | publish hs => exact absurd hs hd
  | freed hs =>
    rcases hs with hs | hs | ⟨hf, hs⟩
    · exact absurd hs hu
    · exact absurd hs hd
    · rcases hr with hr | hr
      · rw [hs] at hr
        cases hr
      · exact absurd hf hr

theorem Shift.context {free : Prop} {q q' : Proc N} (h : Shift free q q') :
    q'.context = q.context ∨ q'.context = [.forkret] := by
  cases h with
  | keep hk => exact .inl hk.context
  | wake _ _ _ hc | publish _ _ hc | freed _ _ hc => exact .inl hc
  | alloc _ _ hc => exact .inr hc

/-- a process that is on no CPU: where `swtch` left its thread -/
def Parked (j : Slot N) (q : Proc N) : Prop :=
  match q.state with
  -- what the last process left, or nothing
  | .unused => q.context = [] ∨ q.context = [.forkret] ∨
      ∃ status msg, q.context = [.exit status msg .dead]
  | .used => q.context = [.forkret]
  | .sleeping => ∃ ch, pointOf j q.context = some (.sleep ch) ∧ q.chan = some ch
  | .runnable => ∃ P, pointOf j q.context = some P ∧ ∀ status, P ≠ .dead status
  | .running => ∃ P, pointOf j q.context = some P ∧ ∀ status, P ≠ .dead status
  | .zombie => ∃ msg, q.context = [.exit q.xstate msg .dead]

theorem Parked.shift {free : Prop} {j : Slot N} {q q' : Proc N} (h : Parked j q)
    (hs : Shift free q q') : Parked j q' := by
  cases hs with
  | keep hk =>
    unfold Parked at h ⊢
    rw [hk.state, hk.chan, hk.xstate, hk.context]
    exact h
  | wake _ hs hs' hc =>
    unfold Parked at h ⊢
    rw [hs] at h
    rw [hs', hc]
    obtain ⟨ch, hp, -⟩ := h
    exact ⟨_, hp, nofun⟩
  | alloc _ hs' hc =>
    unfold Parked
    rw [hs']
    exact hc
  | publish hs hs' hc =>
    unfold Parked at h ⊢
    rw [hs] at h
    rw [hs', hc, h]
    exact ⟨.start, rfl, nofun⟩
  | freed hs hs' hc =>
    unfold Parked at h ⊢
    rw [hs', hc]
    rcases hs with hs | hs | ⟨-, hs⟩
    · rwa [hs] at h
    · rw [hs] at h
      exact .inr (.inl h)
    · rw [hs] at h
      obtain ⟨msg, h⟩ := h
      exact .inr (.inr ⟨_, msg, h⟩)

theorem modeOf_facts {i : Slot N} {st : List (Frame N)} (hl : Low i st) :
    modeOf i st = .run ∨ .proc i ∈ needs i st := by
  match st with
  | [] => exact .inl rfl
  | [f] => exact f.mode_facts i
  | [g, f] => exact (g.mode_facts i).imp id fun h => List.mem_append_left _ h
  | _ :: _ :: _ :: _ => exact hl.elim

/-- the slots a routine makes: fewer, or one more that was free -/
theorem Touch.making_next [NeZero N] {i j : Slot N} {k k' : Kern N} {st st' : List (Frame N)} {op : Op (Lock N)}
    {g : Proc N → Proc N} (ht : Touch i k st op st' j g) (hch : Changes i k k' j g) :
    (makingOf st').Sublist (makingOf st) ∨
    ∃ x, makingOf st' = makingOf st ++ [x] ∧ (k.proc x).state = .unused ∧
      (k'.proc x).state = .used := by
  cases ht with
  | alloc hu _ _ hk => exact .inr ⟨j, makingOf_more hk, hu, hch.here.state⟩
  | fillFail _ _ hk =>
    rw [makingOf_more hk]
    exact .inl (List.sublist_append_left _ _)
  | publish _ _ hk hk' =>
    rw [makingOf_publish hk hk']
    exact .inl (List.sublist_cons_self _ _)
  | clean _ _ hk hk' =>
    rw [makingOf_less hk hk']
    exact .inl (List.sublist_cons_self _ _)
  | link _ _ _ hk hk' =>
    rw [makingOf_link hk hk']
    exact .inl (List.Sublist.refl _)
  | exitMsg hf | zombie hf | reparent hf | kill hf =>
    rw [hf]
    exact .inl (List.Sublist.refl _)
  | keep _ _ hk | swtch _ hk | sleep _ _ _ _ hk | unsleep _ _ _ _ hk | yield _ _ hk
  | setkilled _ _ hk | wake _ _ _ _ hk | allocFail _ _ _ hk | fill _ _ _ hk
  | reap _ _ _ _ _ hk | free _ _ _ hk =>
    rw [makingOf_same hk]
    exact .inl (List.Sublist.refl _)

/-! ## the invariant -/

/-- `j` is a zombie that only `i` can reap -/
def Kern.Reapable (k : Kern N) (i j : Slot N) : Prop :=
  (k.proc j).state = .zombie ∧ (k.proc j).parent = some i

/-- `waitall` will not free a slot twice -/
def Frame.ReapOnce : Frame N → Prop
  | .waitall _ _ (.scan rem l) => (l.toFree ++ rem).Nodup
  | .waitall _ _ (.rel _ rem l) => (l.toFree ++ rem).Nodup
  | .waitall _ _ (.free rem _) => rem.Nodup
  | .waitall _ _ (.freeRel _ rem _) => rem.Nodup
  | _ => True

theorem Frame.ReapOnce.nodup {f : Frame N} (h : f.ReapOnce) : f.reaping.Nodup := by
  cases f with
  | waitall _ _ p =>
    cases p with
    | scan rem l => exact (List.nodup_append.mp h).1
    | rel j rem l => exact (List.nodup_append.mp h).1
    | free rem l => exact h
    | freeRel j rem l => exact h
    | _ =>
      exact List.nodup_nil
  | _ => exact List.nodup_nil

/-- the slots the thread of `i` is making -/
def Kern.making (k : Kern N) (i : Slot N) : List (Slot N) := makingOf (k.proc i).context

/-- the slots in the hands of the threads -/
structure Kern.Hands (k : Kern N) : Prop where
  low : ∀ j, Low j (k.proc j).context
  used : ∀ i, ∀ j ∈ k.making i, (k.proc j).state = .used
  nodup : ∀ i, (k.making i).Nodup
  disjoint : ∀ i i' j, j ∈ k.making i → j ∈ k.making i' → i = i'
  reapable : ∀ i, ∀ j ∈ reapingOf (k.proc i).context, k.Reapable i j
  once : ∀ i, (mainOf (k.proc i).context).ReapOnce

theorem Kern.Hands.congr {k k' : Kern N} (h : k.Hands)
    (hctx : ∀ x, (k'.proc x).context = (k.proc x).context)
    (hs : ∀ x, (k.proc x).state = .used ∨ (k.proc x).state = .zombie →
      (k'.proc x).state = (k.proc x).state ∧ (k'.proc x).parent = (k.proc x).parent) :
    k'.Hands := by
  have hmk : ∀ i, k'.making i = k.making i := fun i => by
    unfold Kern.making
    rw [hctx]
  refine ⟨fun x => hctx x ▸ h.low x, fun i x hx => ?_, fun i => hmk i ▸ h.nodup i, fun i i' x h1 h2 => ?_,
    fun i x hx => ?_, fun i => hctx i ▸ h.once i⟩
  · rw [hmk] at hx
    have hu := h.used i x hx
    rw [(hs x (.inl hu)).1, hu]
  · rw [hmk] at h1 h2
    exact h.disjoint i i' x h1 h2
  · rw [hctx] at hx
    have hz := h.reapable i x hx
    obtain ⟨h1, h2⟩ := hs x (.inr hz.1)
    exact ⟨h1.trans hz.1, h2.trans hz.2⟩

namespace Machine
variable {C : Type}

/-- CPU `c` executes the thread of `i` -/
structure OnCpu (m : Machine N C) (c : C) (i : Slot N) : Prop where
  cproc : m.cproc c = some i
  sch : ∃ rem, m.sch c = [.schedBack i rem]
  owns : m.locks.Owns c (needs i (m.k.proc i).context)
  mode : (modeOf i (m.k.proc i).context).Of (m.k.proc i)

/-- CPU `c` executes its scheduler -/
def Idle (m : Machine N C) (c : C) : List (Frame N) → Prop
  | [.schedLoop _] => m.cproc c = none
  | [.schedGo j _] =>
    m.cproc c = some j ∧ m.locks.owner (.proc j) = some c ∧ (m.k.proc j).state = .running
  | [.schedBack j _] =>
    m.cproc c = some j ∧ m.locks.owner (.proc j) = some c ∧
      (m.k.proc j).state ≠ .unused ∧ (m.k.proc j).state ≠ .used ∧ (m.k.proc j).state ≠ .running
  | [.schedRel j _] => m.cproc c = none ∧ m.locks.owner (.proc j) = some c
  | [.intr _ ks, .schedLoop _] => m.cproc c = none ∧ m.locks.Owns c (kernNeed none ks)
  | _ => False

structure Sane (m : Machine N C) : Prop extends m.k.Hands where
  counted : m.locks.Counted
  cpu : ∀ c i, m.cur c = some i → m.OnCpu c i
  idle : ∀ c, m.cur c = none → m.Idle c (m.sch c)
  uniq : ∀ c c' j, m.cproc c = some j → m.cproc c' = some j → c = c'
  running : ∀ j, (m.k.proc j).state = .running → ∃ c, m.cproc c = some j
  parked : ∀ j, (∀ c, m.cur c ≠ some j) → Parked j (m.k.proc j)

section
variable {m : Machine N C} {c : C} {i j : Slot N}

theorem OnCpu.state (h : m.OnCpu c i) :
    (m.k.proc i).state ≠ .unused ∧ (m.k.proc i).state ≠ .used := by
  have hm := h.mode
  cases hmode : modeOf i (m.k.proc i).context with
  | run =>
    rw [hmode] at hm
    exact ⟨by rw [hm]; nofun, by rw [hm]; nofun⟩
  | asleep ch =>
    rw [hmode] at hm
    exact ⟨by rw [hm.1]; nofun, by rw [hm.1]; nofun⟩
  | ready =>
    rw [hmode] at hm
    exact ⟨by rw [hm]; nofun, by rw [hm]; nofun⟩
  | dead status =>
    rw [hmode] at hm
    exact ⟨by rw [hm.1]; nofun, by rw [hm.1]; nofun⟩

theorem OnCpu.running (h : m.OnCpu c i) (hm : modeOf i (m.k.proc i).context = .run) :
    (m.k.proc i).state = .running := by
  have := h.mode
  rwa [hm] at this

/-- `c->proc` is running or its lock is held by `c`, so no other CPU changes its state -/
theorem Sane.of_cproc (h : m.Sane) (hc : m.cproc c = some j) :
    ((m.k.proc j).state = .running ∨ m.locks.owner (.proc j) = some c) ∧
    (m.k.proc j).state ≠ .unused ∧ (m.k.proc j).state ≠ .used := by
  cases hcur : m.cur c with
  | some i =>
    have hcpu := h.cpu c i hcur
    obtain rfl : i = j := Option.some.inj (hcpu.cproc.symm.trans hc)
    refine ⟨?_, hcpu.state⟩
    rcases modeOf_facts (h.low i) with hm | hn
    · exact .inl (hcpu.running hm)
    · exact .inr (hcpu.owns _ hn)
  | none =>
    have hidle := h.idle c hcur
    unfold Idle at hidle
    split at hidle
    · rw [hidle] at hc
      cases hc
    · obtain ⟨h1, h2, h3⟩ := hidle
      obtain rfl := Option.some.inj (h1.symm.trans hc)
      exact ⟨.inr h2, by rw [h3]; nofun, by rw [h3]; nofun⟩
    · obtain ⟨h1, h2, h3, h4, -⟩ := hidle
      obtain rfl := Option.some.inj (h1.symm.trans hc)
      exact ⟨.inr h2, h3, h4⟩
    · rw [hidle.1] at hc
      cases hc
    · rw [hidle.1] at hc
      cases hc
    · exact hidle.elim

end

end Machine

theorem Proc.Same.keeps {q q' : Proc N} (h : q.Same q') : q.Keeps q' :=
  ⟨h.state, h.chan, h.xstate, h.context⟩

theorem Frame.Mode.Of.keeps_but {q q' : Proc N} {M : Frame.Mode N} (h : M.Of q)
    (h1 : q'.state = q.state) (h2 : q'.chan = q.chan) (h3 : q'.xstate = q.xstate) : M.Of q' := by
  cases M with
  | run => exact h1.trans h
  | asleep ch => exact ⟨h1.trans h.1, h2.trans h.2⟩
  | ready => exact h1.trans h
  | dead status => exact ⟨h1.trans h.1, h3.trans h.2⟩

theorem Frame.Mode.Of.keeps {q q' : Proc N} {M : Frame.Mode N} (h : M.Of q) (hk : q.Keeps q') :
    M.Of q' := h.keeps_but hk.state hk.chan hk.xstate

namespace Machine
variable {C : Type} [DecidableEq C] [NeZero N] {m : Machine N C} {c : C} {i j : Slot N}

/-! ## a step of a process, seen from the other slots -/

theorem Sane.shift (h : m.Sane) {op : Op (Lock N)} {st' : List (Frame N)}
    {g : Proc N → Proc N} {locks' : Spin (Lock N) C}
    (ht : Touch i m.k (m.k.proc i).context op st' j g) (hl : m.locks.apply c op = some locks')
    (hj : j ≠ i) {q' : Proc N} (hq : (g (m.k.proc j)).Same q') :
    Shift (m.locks.owner (.proc j) = none) (m.k.proc j) q' := by
  cases ht with
  | keep | swtch | sleep | unsleep | yield | setkilled | exitMsg | zombie => exact absurd rfl hj
  | reparent => exact .keep ⟨hq.state, hq.chan, hq.xstate, hq.context⟩
  | wake ch =>
    have hf := (Spin.apply_acq hl).1
    rcases (m.k.proc j).woken_cases ch with he | ⟨hs, -, he⟩
    · rw [he] at hq
      exact .keep hq.keeps
    · rw [he] at hq
      exact .wake hf hs hq.state hq.context
  | kill =>
    have hf := (Spin.apply_acq hl).1
    by_cases hs : (m.k.proc j).state = .sleeping
    · refine .wake hf hs (hq.state.trans ?_) hq.context
      simp [Proc.onKill, hs]
    · refine .keep ⟨hq.state.trans ?_, hq.chan, hq.xstate, hq.context⟩
      simp [Proc.onKill, hs]
  | allocFail hu => exact .freed (.inl hu) hq.state hq.context
  | alloc hu => exact .alloc hu hq.state hq.context
  | fill => exact .keep hq.keeps
  | fillFail _ _ hk =>
    have hu := h.used i j (by
      show j ∈ makingOf (m.k.proc i).context
      rw [makingOf_more hk]
      exact List.mem_append_right _ List.mem_cons_self)
    exact .freed (.inr (.inl hu)) hq.state hq.context
  | link => exact .keep ⟨hq.state, hq.chan, hq.xstate, hq.context⟩
  | publish _ _ hk hk' =>
    have hu := h.used i j (by
      show j ∈ makingOf (m.k.proc i).context
      rw [makingOf_publish hk hk']
      exact List.mem_cons_self)
    exact .publish hu hq.state hq.context
  | clean _ _ hk hk' =>
    have hu := h.used i j (by
      show j ∈ makingOf (m.k.proc i).context
      rw [makingOf_less hk hk']
      exact List.mem_cons_self)
    exact .freed (.inr (.inl hu)) hq.state hq.context
  | reap hc hz =>
    exact .freed (.inr (.inr ⟨(Spin.apply_acq hl).1, hz⟩)) hq.state hq.context
  | free hr =>
    have hz := h.reapable i j (by
      show j ∈ reapingOf (m.k.proc i).context
      rw [hr]
      exact List.mem_cons_self)
    exact .freed (.inr (.inr ⟨(Spin.apply_acq hl).1, hz.1⟩)) hq.state hq.context

theorem Sane.own_mode (h : m.Sane) (hc : m.cur c = some i) {op : Op (Lock N)}
    {st' : List (Frame N)} {g : Proc N → Proc N} {k' : Kern N}
    (ht : Touch i m.k (m.k.proc i).context op st' j g) (hch : Changes i m.k k' j g)
    (hop : op ≠ .swtch) : (modeOf i st').Of (k'.proc i) := by
  have hcpu := h.cpu c i hc
  -- the routines touch other slots while their process runs, and a slot they touch is not their own
  have run : modeOf i (m.k.proc i).context = .run → modeOf i st' = .run →
      (j = i → (m.k.proc i).state = .running → (g (m.k.proc j)).state = .running) →
      (modeOf i st').Of (k'.proc i) := by
    intro hm hm' hg
    have hr := hcpu.running hm
    rw [hm']
    show (k'.proc i).state = .running
    by_cases hij : i = j
    · subst hij
      exact hch.here.state.trans (hg rfl hr)
    · exact (hch.own hij).state.trans hr
  have other : ∀ {P : Prop} {s : ProcState}, (m.k.proc j).state = s → s ≠ .running → j = i →
      (m.k.proc i).state = .running → P := by
    intro P s hs hne hji hr
    rw [hji, hr] at hs
    exact absurd hs.symm hne
  cases ht with
  | keep _ hm =>
    rw [hm]
    exact hcpu.mode.keeps hch.here.keeps
  | swtch => exact absurd rfl hop
  | sleep ch _ _ hm' =>
    rw [hm']
    exact ⟨hch.here.state, hch.here.chan⟩
  | unsleep ch _ hm hm' => exact run hm hm' fun _ hr => hr
  | yield _ hm' =>
    rw [hm']
    exact hch.here.state
  | setkilled hm hm' => exact run hm hm' fun _ hr => hr
  | exitMsg hf => exact run (by rw [hf]; rfl) rfl fun _ hr => hr
  | zombie hf => exact ⟨hch.here.state, hch.here.xstate⟩
  | reparent hf => exact run (by rw [hf]; rfl) rfl fun hji hr => hji ▸ hr
  | wake ch hj hm hm' => exact run hm hm' fun hji => absurd hji hj
  | kill hf =>
    refine run (by rw [hf]; rfl) rfl fun hji hr => ?_
    subst hji
    simp [Proc.onKill, hr]
  | allocFail hu hm hm' => exact run hm hm' (other hu nofun)
  | alloc hu hm hm' => exact run hm hm' (other hu nofun)
  | fill hm hm' => exact run hm hm' fun hji hr => hji ▸ hr
  | fillFail hm hm' hk =>
    have hj : j ∈ makingOf (m.k.proc i).context := by
      rw [makingOf_more hk]
      exact List.mem_append_right _ List.mem_cons_self
    exact run hm hm' (other (h.used i j hj) nofun)
  | link _ hm hm' => exact run hm hm' fun hji hr => hji ▸ hr
  | publish hm hm' hk hk' =>
    have hj : j ∈ makingOf (m.k.proc i).context := by
      rw [makingOf_publish hk hk']
      exact List.mem_cons_self
    exact run hm hm' (other (h.used i j hj) nofun)
  | clean hm hm' hk hk' =>
    have hj : j ∈ makingOf (m.k.proc i).context := by
      rw [makingOf_less hk hk']
      exact List.mem_cons_self
    exact run hm hm' (other (h.used i j hj) nofun)
  | reap _ hz _ hm hm' => exact run hm hm' (other hz nofun)
  | free hr hm hm' =>
    have hj : j ∈ reapingOf (m.k.proc i).context := by
      rw [hr]
      exact List.mem_cons_self
    exact run hm hm' (other (h.reapable i j hj).1 nofun)

/-- a slot that is being made stays so until its maker lets go of it -/
theorem Sane.used_stays (h : m.Sane) (hc : m.cur c = some i) {op : Op (Lock N)}
    {st' : List (Frame N)} {g : Proc N → Proc N} {k' : Kern N}
    (ht : Touch i m.k (m.k.proc i).context op st' j g) (hch : Changes i m.k k' j g) {x : Slot N}
    (hx : (m.k.proc x).state = .used) :
    (k'.proc x).state = .used ∨ (x ∈ m.k.making i ∧ x ∉ makingOf st') := by
  have hxi : x ≠ i := by
    rintro rfl
    exact (h.cpu c x hc).state.2 hx
  by_cases hxj : x = j
  · subst hxj
    have keep : (g (m.k.proc x)).state = .used → (k'.proc x).state = .used ∨
        (x ∈ m.k.making i ∧ x ∉ makingOf st') := fun hg => .inl (hch.here.state.trans hg)
    have hnd := h.nodup i
    unfold Kern.making at hnd ⊢
    cases ht with
    | keep | swtch | sleep | unsleep | yield | setkilled | exitMsg | zombie => exact absurd rfl hxi
    | reparent => exact keep hx
    | wake ch =>
      rcases (m.k.proc x).woken_cases ch with he | ⟨hs, -, -⟩
      · exact keep (by rw [he, hx])
      · rw [hx] at hs
        cases hs
    | kill => exact keep (by simp [Proc.onKill, hx])
    | allocFail hu | alloc hu =>
      rw [hx] at hu
      cases hu
    | fill | link => exact keep hx
    | fillFail _ _ hk =>
      rw [makingOf_more hk] at hnd ⊢
      exact .inr ⟨List.mem_append_right _ List.mem_cons_self,
        fun hm => List.disjoint_of_nodup_append hnd hm List.mem_cons_self⟩
    | publish _ _ hk hk' =>
      rw [makingOf_publish hk hk'] at hnd ⊢
      exact .inr ⟨List.mem_cons_self, (List.nodup_cons.mp hnd).1⟩
    | clean _ _ hk hk' =>
      rw [makingOf_less hk hk'] at hnd ⊢
      exact .inr ⟨List.mem_cons_self, (List.nodup_cons.mp hnd).1⟩
    | reap _ hz =>
      rw [hx] at hz
      cases hz
    | free hr =>
      have hz := (h.reapable i x (by
        show x ∈ reapingOf _
        rw [hr]
        exact List.mem_cons_self)).1
      rw [hx] at hz
      cases hz
  · exact .inl (by rw [hch.other x hxi hxj, hx])

theorem Sane.reapable_stays (h : m.Sane) (hc : m.cur c = some i) {op : Op (Lock N)}
    {st' : List (Frame N)} {g : Proc N → Proc N} {k' : Kern N}
    (ht : Touch i m.k (m.k.proc i).context op st' j g) (hch : Changes i m.k k' j g)
    {p x : Slot N} (hx : m.k.Reapable p x) :
    k'.Reapable p x ∨ (p = i ∧ x ∉ reapingOf st') := by
  obtain ⟨hz, hp⟩ := hx
  by_cases hxj : x = j
  · subst hxj
    have keep : (g (m.k.proc x)).state = .zombie → (g (m.k.proc x)).parent = some p →
        k'.Reapable p x ∨ (p = i ∧ x ∉ reapingOf st') :=
      fun h1 h2 => .inl ⟨hch.here.state.trans h1, hch.here.parent.trans h2⟩
    have used : ∀ {P : Prop}, x ∈ makingOf (m.k.proc i).context → P := by
      intro P hm
      have hu := h.used i x hm
      rw [hz] at hu
      cases hu
    have running : ∀ {P : Prop}, x = i → modeOf i (m.k.proc i).context = .run → P := by
      intro P hxi hm
      have hr := (h.cpu c i hc).running hm
      rw [← hxi, hz] at hr
      cases hr
    have mine : (m.k.proc x).parent = some i → p = i :=
      fun hpi => Option.some.inj (hp.symm.trans hpi)
    cases ht with
    | keep | swtch => exact keep hz hp
    | sleep _ _ hm | unsleep _ _ hm | yield hm | setkilled hm => exact running rfl hm
    | exitMsg hf | zombie hf => exact running rfl (by rw [hf]; rfl)
    | reparent hf hpi => exact .inr ⟨mine hpi, by simp [reapingOf, mainOf, Frame.reaping]⟩
    | wake ch =>
      rcases (m.k.proc x).woken_cases ch with he | ⟨hs, -, -⟩
      · exact keep (by rw [he, hz]) (by rw [he, hp])
      · rw [hz] at hs
        cases hs
    | kill => exact keep (by simp [Proc.onKill, hz]) hp
    | allocFail hu | alloc hu =>
      rw [hz] at hu
      cases hu
    | fill => exact keep hz hp
    | fillFail _ _ hk => exact used (makingOf_more hk ▸ List.mem_append_right _ List.mem_cons_self)
    | link _ _ _ hk => exact used (makingOf_hands hk ▸ List.mem_cons_self)
    | publish _ _ hk => exact used (makingOf_hands hk ▸ List.mem_cons_self)
    | clean _ _ hk => exact used (makingOf_hands hk ▸ List.mem_cons_self)
    | reap hpi _ hr => exact .inr ⟨mine hpi, hr ▸ List.not_mem_nil⟩
    | free hr =>
      have hpi := (h.reapable i x (by
        show x ∈ reapingOf _
        rw [hr]
        exact List.mem_cons_self)).2
      refine .inr ⟨mine hpi, ?_⟩
      have hnd := (h.once i).nodup
      rw [show (mainOf (m.k.proc i).context).reaping = x :: reapingOf st' from hr] at hnd
      exact (List.nodup_cons.mp hnd).1
  · by_cases hxi : x = i
    · subst hxi
      have hs := hch.own hxj
      exact .inl ⟨hs.state.trans hz, hs.parent.trans hp⟩
    · exact .inl (by
        unfold Kern.Reapable
        rw [hch.other x hxi hxj]
        exact ⟨hz, hp⟩)

end Machine

/-! ## the list of `waitall` -/

theorem Frame.reaping_of_kind {f : Frame N} (h : f.kind ≠ .waitall) :
    f.ReapOnce ∧ f.reaping = [] := by
  cases f with
  | waitall => exact absurd rfl h
  | _ => exact ⟨trivial, rfl⟩

theorem Frame.Entry.reaping {f : Frame N} (h : f.Entry) : f.ReapOnce ∧ f.reaping = [] := by
  cases f with
  | waitall _ _ p =>
    cases (show p = .acqW from h)
    exact ⟨trivial, rfl⟩
  | _ => exact ⟨trivial, rfl⟩

theorem instr_reaping [NeZero N] {i : Slot N} {k : Kern N} {ch : Choice} {f : Frame N}
    {o : Out N (Frame N)} (e : instr i k ch f = some o) (h : f.ReapOnce) :
    o.next.ReapOnce ∧ ∀ x ∈ o.next.reaping, x ∈ f.reaping ∨ o.k.Reapable i x := by
  by_cases hf : f.kind = .waitall
  · cases f with
    | waitall nAddr statusesAddr p =>
      cases p with
      | acqW =>
        cases e
        exact ⟨List.nodup_finRange N, fun x hx => .inl hx⟩
      | scan rem l =>
        cases rem with
        | nil =>
          cases e
          cases hfd : l.foundChild
          · exact ⟨trivial, nofun⟩
          · cases had : l.allDone
            · exact ⟨trivial, nofun⟩
            · exact ⟨(List.nodup_append.mp h).1, fun x hx => .inl hx⟩
        | cons j rem =>
          cases e
          -- the slot is added exactly if it is a zombie child
          by_cases hr : k.Reapable i j
          · have hv : (l.visit i j (k.proc j)).toFree = l.toFree ++ [j] := by
              simp [Pass.visit, hr.1, hr.2]
            refine ⟨?_, fun x hx => ?_⟩
            · show ((l.visit i j (k.proc j)).toFree ++ rem).Nodup
              rw [hv, List.append_assoc]
              exact h
            · change x ∈ (l.visit i j (k.proc j)).toFree at hx
              rw [hv, List.mem_append, List.mem_singleton] at hx
              rcases hx with hx | rfl
              · exact .inl hx
              · exact .inr hr
          · have hv : (l.visit i j (k.proc j)).toFree = l.toFree := by
              unfold Pass.visit
              split
              · rename_i hp
                split
                · rfl
                · rename_i hz
                  exact absurd ⟨not_not.mp hz, hp⟩ hr
              · rfl
            refine ⟨?_, fun x hx => .inl ?_⟩
            · show ((l.visit i j (k.proc j)).toFree ++ rem).Nodup
              rw [hv]
              have hsub : (l.toFree ++ rem).Sublist (l.toFree ++ j :: rem) :=
                List.Sublist.append_left (List.sublist_cons_self j rem) l.toFree
              exact hsub.nodup h
            · change x ∈ (l.visit i j (k.proc j)).toFree at hx
              rwa [hv] at hx
      | rel j rem l =>
        cases e
        exact ⟨h, fun x hx => .inl hx⟩
      | free rem l =>
        cases rem with
        | nil =>
          cases e
          exact ⟨trivial, nofun⟩
        | cons j rem =>
          obtain ⟨r, -, rfl⟩ := Option.map_eq_some_iff.mp e
          exact ⟨(List.nodup_cons.mp h).2, fun x hx => .inl (List.mem_cons_of_mem j hx)⟩
      | freeRel j rem l =>
        cases e
        exact ⟨h, fun x hx => .inl hx⟩
      | relWNone | relW | relWKilled | done =>
        cases e
        exact ⟨trivial, nofun⟩
      | outNone | outN | outS =>
        obtain ⟨r, -, rfl⟩ := Option.map_eq_some_iff.mp e
        exact ⟨trivial, nofun⟩
      | killed st s =>
        cases e
        rcases s with _ | b
        · exact ⟨trivial, nofun⟩
        · cases b <;> exact ⟨trivial, nofun⟩
      | sleeping st s =>
        cases e
        cases s with
        | reacq => exact ⟨List.nodup_finRange N, nofun⟩
        | acq | relLk | set | swtch | relP => exact ⟨trivial, nofun⟩
    | _ => cases hf
  · have hn : o.next.ReapOnce ∧ o.next.reaping = [] := by
      rcases (instr_does e).kind with hk | hk
      · exact Frame.reaping_of_kind (fun h => hf (hk.symm.trans h))
      · exact hk.reaping
    exact ⟨hn.1, fun x hx => by rw [hn.2] at hx; cases hx⟩

end Xv6
