import Xv6.Machine.Sched

/-!
# `sleep` and `wakeup`

A process is *bound* to sleep from the call of `sleep` until it is woken.  It becomes so only with `lk`
held, and once `lk` is released its own lock is held until it is `SLEEPING`: a `wakeup` that has
seen its slot after that has woken it.

* `Frame.sleeping`, `Frame.waking`   the call of `sleep` or `wakeup` a thread is in;
* `Sane.sleep_step`, `Sane.bound_back`   what a step does to a call of `sleep`;
* `Sane.visit`   what `wakeup` finds when it has the lock of a slot;
* `sleep_wakeup`   **no wakeup is lost, and `sleep` returns with `lk` held.**
-/

set_option linter.unusedSectionVars false

namespace Xv6
variable {N : ℕ}

/-! ## calls of `sleep` -/

/-- the call of `sleep` a piece of code is in: channel, lock and place -/
def KernAt.sleeping : KernAt N → Option (Chan N × Lock N × SleepAt)
  | .sleep a lk s => some (.other a, .other lk, s)
  | _ => none

def Frame.sleeping (i : Slot N) : Frame N → Option (Chan N × Lock N × SleepAt)
  | .trapDev _ ks => ks.sleeping
  | .kern _ ks => ks.sleeping
  | .exit _ _ (.close ks) => ks.sleeping
  | .wait _ _ (.sleeping s) => some (.proc i, .wait, s)
  | .waitall _ _ (.sleeping _ s) => some (.proc i, .wait, s)
  | _ => none

/-- from the call until it is woken, a process is bound to be `SLEEPING` -/
def SleepAt.Bound (state : ProcState) : SleepAt → Prop
  | .relP => state = .sleeping
  | .reacq => False
  | _ => True

section
variable {i : Slot N} {ch : Chan N} {lk : Lock N} {s : SleepAt}

theorem Frame.sleeping_facts {f : Frame N} (h : f.sleeping i = some (ch, lk, s)) :
    f.need i = sleepNeed i lk s ∧ f.mode i = sleepMode ch s ∧ f.point i = sleepPoint ch s := by
  have hk : ∀ ks : KernAt N, ks.sleeping = some (ch, lk, s) →
      kernNeed (some i) ks = sleepNeed i lk s ∧ kernMode ks = sleepMode ch s ∧
      kernPoint ks = sleepPoint ch s := by
    intro ks h
    cases ks with
    | sleep a lk s =>
      cases h
      exact ⟨rfl, rfl, rfl⟩
    | run | wake => cases h
  cases f with
  | trapDev _ ks => exact hk ks h
  | kern _ ks => exact hk ks h
  | exit _ _ p =>
    cases p with
    | close ks => exact hk ks h
    | _ => cases h
  | wait _ _ p =>
    cases p with
    | sleeping s =>
      cases h
      exact ⟨rfl, rfl, rfl⟩
    | _ => cases h
  | waitall _ _ p =>
    cases p with
    | sleeping st s =>
      cases h
      exact ⟨rfl, rfl, rfl⟩
    | _ => cases h
  | _ => cases h

theorem Frame.Entry.sleeping {f : Frame N} (h : f.Entry) : f.sleeping i = none := by
  cases f with
  | trapDev => exact h.elim
  | kern _ ks =>
    cases (show ks = .run [] from h)
    rfl
  | exit _ _ p =>
    cases (show p = .start from h)
    rfl
  | wait _ _ p =>
    cases (show p = .acqW from h)
    rfl
  | waitall _ _ p =>
    cases (show p = .acqW from h)
    rfl
  | _ => rfl

/-- where the code goes on from a call of `sleep` -/
def afterSleep (ch : Chan N) (lk : Lock N) (next : SleepAt ⊕ Unit) :
    Option (Chan N × Lock N × SleepAt) := Sum.elim (fun s => some (ch, lk, s)) (fun _ => none) next

theorem kernInstr_sleep {b : Bool} {k : Kern N} {x : Choice} {ks : KernAt N}
    {o : Out N (KernAt N ⊕ BitVec 64)} (h : ks.sleeping = some (ch, lk, s))
    (e : kernInstr (some i) b k x ks = some o) :
    ∃ next ks', sleepInstr i ch lk k s = ⟨o.op, o.k, next⟩ ∧ o.next = .inl ks' ∧
      ks'.sleeping = afterSleep ch lk next := by
  cases ks with
  | sleep a lk s =>
    cases h
    cases e
    cases s <;> exact ⟨_, _, rfl, rfl, rfl⟩
  | run | wake => cases h

theorem kernInstr_enters {b : Bool} {k : Kern N} {x : Choice} {ks ks' : KernAt N}
    {o : Out N (KernAt N ⊕ BitVec 64)} (e : kernInstr (some i) b k x ks = some o)
    (hn : ks.sleeping = none) (h' : o.next = .inl ks') (h : ks'.sleeping = some (ch, lk, s)) :
    s = .acq ∧ lk ∈ kernNeed (some i) ks := by
  cases ks with
  | run held =>
    cases x with
    | sleep a l =>
      dsimp only [kernInstr] at e
      split at e
      · rename_i hb
        cases e
        cases h'
        cases h
        rw [hb.2]
        exact ⟨rfl, List.mem_cons_self⟩
      · cases e
    | lock a | unlock a =>
      dsimp only [kernInstr] at e
      split at e <;> cases e
      cases h'
      cases h
    | work w =>
      dsimp only [kernInstr] at e
      split at e <;> cases e
      cases h'
      cases h
    | leave r =>
      dsimp only [kernInstr] at e
      split at e <;> cases e
      cases h'
    | wake a =>
      cases e
      cases h'
      cases h
    | _ => cases e
  | sleep => cases hn
  | wake a held w =>
    cases e
    generalize wakeInstr (some i) (some (Chan.other a)) k w = o at h'
    obtain ⟨op, k', y⟩ := o
    cases y <;> cases h' <;> cases h

variable [NeZero N]

theorem instr_sleep {k : Kern N} {x : Choice} {f : Frame N} {o : Out N (Frame N)}
    (h : f.sleeping i = some (ch, lk, s)) (e : instr i k x f = some o) :
    ∃ next, sleepInstr i ch lk k s = ⟨o.op, o.k, next⟩ ∧
      o.next.sleeping i = afterSleep ch lk next := by
  cases f with
  | trapDev timer ks =>
    obtain ⟨o', e', rfl⟩ := Option.map_eq_some_iff.mp e
    obtain ⟨next, ks', h1, h2, h3⟩ := kernInstr_sleep h e'
    refine ⟨next, h1, ?_⟩
    show (Sum.elim _ _ o'.next : Frame N).sleeping i = _
    rw [h2]
    exact h3
  | kern sys ks =>
    obtain ⟨o', e', rfl⟩ := Option.map_eq_some_iff.mp e
    obtain ⟨next, ks', h1, h2, h3⟩ := kernInstr_sleep h e'
    refine ⟨next, h1, ?_⟩
    show (Sum.elim _ _ o'.next : Frame N).sleeping i = _
    rw [h2]
    exact h3
  | exit status msg p =>
    cases p with
    | close ks =>
      dsimp only [instr, exitInstr] at e
      cases hx : kernInstr (some i) true k x ks with
      | none =>
        rw [hx] at e
        cases e
      | some o' =>
        obtain ⟨next, ks', h1, h2, h3⟩ := kernInstr_sleep h hx
        obtain ⟨op, k', y⟩ := o'
        cases h2
        rw [hx] at e
        cases e
        exact ⟨next, h1, h3⟩
    | _ => cases h
  | wait addr msg p =>
    cases p with
    | sleeping s =>
      cases h
      cases e
      cases s <;> exact ⟨_, rfl, rfl⟩
    | _ => cases h
  | waitall nAddr statusesAddr p =>
    cases p with
    | sleeping st s =>
      cases h
      cases e
      cases s <;> exact ⟨_, rfl, rfl⟩
    | _ => cases h
  | _ => cases h

theorem Syscall.start_sleeping (sc : Syscall) : (sc.start : Frame N).sleeping i = none := by
  cases sc <;> rfl

theorem instr_enters {k : Kern N} {x : Choice} {f : Frame N} {o : Out N (Frame N)}
    (e : instr i k x f = some o) (hn : f.sleeping i = none)
    (h : o.next.sleeping i = some (ch, lk, s)) : s = .acq ∧ lk ∈ f.need i := by
  -- the routines that do not call `sleep`
  have stays : (∀ g : Frame N, g.kind = f.kind → g.sleeping i = none) → s = .acq ∧ lk ∈ f.need i := by
    intro hg
    rcases (instr_does e).kind with hk | hk
    · rw [hg o.next hk] at h
      cases h
    · rw [show o.next.sleeping i = none from hk.sleeping] at h
      cases h
  have hkern : ∀ {b ks} {o' : Out N (KernAt N ⊕ BitVec 64)} {F : KernAt N ⊕ BitVec 64 → Frame N},
      kernInstr (some i) b k x ks = some o' → ks.sleeping = none →
      (∀ ks, (F (.inl ks)).sleeping i = ks.sleeping) → (∀ r, (F (.inr r)).sleeping i = none) →
      (F o'.next).sleeping i = some (ch, lk, s) → s = .acq ∧ lk ∈ kernNeed (some i) ks := by
    intro b ks o' F e' hks h1 h2 h3
    cases hy : o'.next with
    | inl ks' =>
      rw [hy, h1] at h3
      exact kernInstr_enters e' hks hy h3
    | inr r =>
      rw [hy, h2] at h3
      cases h3
  cases f with
  | fork | forkn | kill =>
    refine stays fun g hg => ?_
    cases g <;> first | rfl | cases hg
  | trapDev timer ks =>
    obtain ⟨o', e', rfl⟩ := Option.map_eq_some_iff.mp e
    exact hkern e' hn (fun _ => rfl) (fun _ => rfl) h
  | kern sys ks =>
    obtain ⟨o', e', rfl⟩ := Option.map_eq_some_iff.mp e
    exact hkern e' hn (fun _ => rfl) (fun _ => by cases sys <;> rfl) h
  | exit status msg p =>
    cases p with
    | close ks =>
      dsimp only [instr, exitInstr] at e
      split at e
      · cases e
      · rename_i op k' ks' hx
        cases e
        exact kernInstr_enters hx hn rfl h
      · cases e
        cases h
    | wakeInit rem w =>
      cases e
      generalize wakeInstr (some i) (some (.proc initproc)) k w = o' at h
      obtain ⟨op, k', y⟩ := o'
      cases y <;> cases h
    | wakeParent pch w =>
      cases e
      generalize wakeInstr (some i) pch k w = o' at h
      obtain ⟨op, k', y⟩ := o'
      cases y <;> cases h
    | start =>
      dsimp only [instr, exitInstr] at e
      split at e <;> cases e
      cases h
    | reparent rem =>
      cases rem with
      | nil =>
        cases e
        cases h
      | cons j rem =>
        dsimp only [instr, exitInstr] at e
        split at e <;> cases e <;> cases h
    | acqW | acqP | relW | swtch =>
      cases e
      cases h
    | dead => cases e
  | wait addr msg p =>
    cases p with
    | killed t =>
      cases e
      rcases t with _ | b
      · cases h
      · cases b
        · cases h
          exact ⟨rfl, List.mem_cons_of_mem _ List.mem_cons_self⟩
        · cases h
    | sleeping t => cases hn
    | scan rem havekids =>
      cases rem with
      | nil =>
        cases e
        cases havekids <;> cases h
      | cons j rem =>
        dsimp only [instr, waitInstr] at e
        split at e
        · split at e
          · obtain ⟨r, -, rfl⟩ := Option.map_eq_some_iff.mp e
            cases h
          · cases e
            cases h
        · cases e
          cases h
    | acqW | rel | relReap | relW =>
      cases e
      cases h
  | waitall nAddr statusesAddr p =>
    cases p with
    | killed st t =>
      cases e
      rcases t with _ | b
      · cases h
      · cases b
        · cases h
          exact ⟨rfl, List.mem_cons_of_mem _ List.mem_cons_self⟩
        · cases h
    | sleeping st t => cases hn
    | scan rem l =>
      cases rem with
      | nil =>
        cases e
        cases hf : l.foundChild
        · simp [hf, Frame.sleeping] at h
        · cases ha : l.allDone <;> simp [hf, ha, Frame.sleeping] at h
      | cons j rem =>
        cases e
        cases h
    | free rem l =>
      cases rem with
      | nil =>
        cases e
        cases h
      | cons j rem =>
        obtain ⟨r, -, rfl⟩ := Option.map_eq_some_iff.mp e
        cases h
    | outNone | outN | outS =>
      obtain ⟨r, -, rfl⟩ := Option.map_eq_some_iff.mp e
      cases h
    | _ =>
      cases e
      cases h
  | user =>
    cases x <;> cases e <;> cases h
  | trapSyscall sc t =>
    cases e
    rcases t with _ | b
    · cases h
    · cases b
      · have h' : (sc.start : Frame N).sleeping i = some (ch, lk, s) := h
        rw [Syscall.start_sleeping] at h'
        cases h'
      · cases h
  | trapFault t =>
    cases e
    cases t <;> cases h
  | trapRet timer t =>
    cases e
    rcases t with _ | b
    · cases h
    · cases b <;> cases timer <;> cases h
  | trapYield t =>
    cases e
    cases t <;> cases h
  | sysRet | forkret =>
    cases e
    cases h
  | sysExit status msg =>
    dsimp only [instr, trapInstr] at e
    split at e <;> cases e
    cases h
  | _ => cases e

end

theorem Frame.Handler.facts {g : Frame N} (h : g.Handler) (i : Slot N) :
    (g.mode i = .run ∨ g.mode i = .ready) ∧ ∀ ch, g.point i ≠ some (.sleep ch) := by
  cases g with
  | intr timer ks =>
    cases ks with
    | run | wake => exact ⟨.inl rfl, nofun⟩
    | sleep => exact h.elim
  | intrYield s =>
    cases s with
    | acq | rel => exact ⟨.inl rfl, nofun⟩
    | swtch => exact ⟨.inr rfl, nofun⟩
  | _ => exact h.elim

/-- process `p` is in the call `sleep(ch, lk)`, at the place `s` -/
def Kern.InSleep (k : Kern N) (p : Slot N) (ch : Chan N) (lk : Lock N) (s : SleepAt) : Prop :=
  (mainOf (k.proc p).context).sleeping p = some (ch, lk, s)

instance (k : Kern N) (p : Slot N) (ch : Chan N) (lk : Lock N) (s : SleepAt) :
    Decidable (k.InSleep p ch lk s) := inferInstanceAs (Decidable (_ = _))

/-- `p` is in `sleep(ch, lk)` and has not been woken -/
def Kern.Bound (k : Kern N) (p : Slot N) (ch : Chan N) (lk : Lock N) : Prop :=
  ∃ s, k.InSleep p ch lk s ∧ s.Bound (k.proc p).state

namespace Machine
variable {C : Type} [DecidableEq C] [NeZero N] {m m' : Machine N C} {c : C} {p : Slot N}
  {ch : Chan N} {lk : Lock N} {s : SleepAt}

theorem Sane.on_cpu (h : m.Sane) (hp : pointOf p (m.k.proc p).context = none)
    (hne : (m.k.proc p).context ≠ []) : ∃ c, m.cur c = some p := by
  by_contra hn
  have hpk := h.parked p fun c hc => hn ⟨c, hc⟩
  unfold Parked at hpk
  cases hs : (m.k.proc p).state with
  | unused =>
    rw [hs] at hpk
    rcases hpk with e | e | ⟨_, _, e⟩
    · exact hne e
    · rw [e] at hp
      cases hp
    · rw [e] at hp
      cases hp
  | used =>
    rw [hs] at hpk
    rw [hpk] at hp
    cases hp
  | sleeping | runnable | running =>
    rw [hs] at hpk
    obtain ⟨_, h1, -⟩ := hpk
    rw [h1] at hp
    cases hp
  | zombie =>
    rw [hs] at hpk
    obtain ⟨_, e⟩ := hpk
    rw [e] at hp
    cases hp

/-- before `lk` is to be taken again, `sleep` is not interrupted -/
theorem Sane.sleep_alone (h : m.Sane) (hs : m.k.InSleep p ch lk s) (hr : s ≠ .reacq) :
    ∃ f, (m.k.proc p).context = [f] ∧ f.sleeping p = some (ch, lk, s) := by
  have hl := h.low p
  unfold Kern.InSleep at hs
  match hst : (m.k.proc p).context with
  | [] =>
    rw [hst] at hs
    cases hs
  | [f] =>
    rw [hst] at hs
    exact ⟨f, rfl, hs⟩
  | [g, f] =>
    rw [hst] at hs hl
    have hn := hl.2
    rw [show f.need p = _ from (Frame.sleeping_facts hs).1] at hn
    cases s <;> first | exact absurd rfl hr | cases hn
  | _ :: _ :: _ :: _ =>
    rw [hst] at hs
    cases hs

/-- except at the point of `swtch`, a process in `sleep` is on a CPU and holds what it needs -/
theorem Sane.sleep_holds (h : m.Sane) (hs : m.k.InSleep p ch lk s) (hr : s ≠ .reacq)
    (hp : s ≠ .relP) : ∃ c, m.cur c = some p ∧ m.locks.Owns c (sleepNeed p lk s) := by
  obtain ⟨f, hst, hf⟩ := h.sleep_alone hs hr
  obtain ⟨h1, -, h3⟩ := Frame.sleeping_facts hf
  obtain ⟨c, hc⟩ := h.on_cpu (p := p) (by
    rw [hst]
    show f.point p = none
    rw [h3]
    cases s <;> first | rfl | exact absurd rfl hp) (by rw [hst]; nofun)
  refine ⟨c, hc, ?_⟩
  have ho := (h.cpu c p hc).owns
  rw [hst] at ho
  rw [← h1]
  exact ho

/-- who has the lock of a process that is bound to sleep finds it `SLEEPING`, or has it from before
the process took it -/
theorem Sane.visit (h : m.Sane) (hs : m.k.InSleep p ch lk s) (hb : s.Bound (m.k.proc p).state)
    (hf : m.locks.owner (.proc p) = none) :
    s = .acq ∨ (s = .relP ∧ (m.k.proc p).state = .sleeping ∧ (m.k.proc p).chan = some ch) := by
  have held : ∀ {P : Prop}, s ≠ .reacq → s ≠ .relP → .proc p ∈ sleepNeed p lk s → P := by
    intro P hr hp hn
    obtain ⟨c, -, ho⟩ := h.sleep_holds hs hr hp
    have := ho _ hn
    rw [hf] at this
    cases this
  cases s with
  | acq => exact .inl rfl
  | relLk | set | swtch => exact held nofun nofun List.mem_cons_self
  | relP =>
    refine .inr ⟨rfl, hb, ?_⟩
    have hb' : (m.k.proc p).state = .sleeping := hb
    obtain ⟨f, hst, hf'⟩ := h.sleep_alone hs nofun
    obtain ⟨-, h2, h3⟩ := Frame.sleeping_facts hf'
    have hoff : ∀ c, m.cur c ≠ some p := by
      intro c hc
      have hr := (h.cpu c p hc).running (by rw [hst]; exact h2)
      rw [hb'] at hr
      cases hr
    have hpk := h.parked p hoff
    unfold Parked at hpk
    rw [hb', hst] at hpk
    obtain ⟨ch', h4, h5⟩ := hpk
    rw [show pointOf p [f] = _ from h3] at h4
    cases h4
    exact h5
  | reacq => exact hb.elim

theorem Sane.sleep_used (h : m.Sane) (hs : m.k.InSleep p ch lk s) :
    (m.k.proc p).state ≠ .unused := by
  intro hu
  have hpk := h.parked p fun c hc => (h.cpu c p hc).state.1 hu
  unfold Parked at hpk
  unfold Kern.InSleep at hs
  rw [hu] at hpk
  rcases hpk with e | e | ⟨_, _, e⟩ <;> rw [e] at hs <;> cases hs

/-- a step of the machine leaves a call of `sleep` where it is, or is the next step of the call -/
theorem Sane.sleep_step (h : m.Sane) {x : Choice} (e : m.step c x = some m')
    (hs : m.k.InSleep p ch lk s) :
    (m'.k.InSleep p ch lk s ∧ (s.Bound (m'.k.proc p).state → s.Bound (m.k.proc p).state)) ∨
    ∃ op k' next, m.cur c = some p ∧ sleepInstr p ch lk m.k s = ⟨op, k', next⟩ ∧
      m.locks.apply c op = some m'.locks ∧ (op ≠ .swtch → m'.cur = m.cur) ∧
      (mainOf (m'.k.proc p).context).sleeping p = afterSleep ch lk next := by
  -- another thread changes no more than the state, and does not make it `SLEEPING`
  have other : (m'.k.proc p).context = (m.k.proc p).context →
      ((m'.k.proc p).state = .sleeping → (m.k.proc p).state = .sleeping) →
      m'.k.InSleep p ch lk s ∧ (s.Bound (m'.k.proc p).state → s.Bound (m.k.proc p).state) := by
    intro hc hst
    refine ⟨by unfold Kern.InSleep; rw [hc]; exact hs, fun hb => ?_⟩
    cases s with
    | relP => exact hst hb
    | reacq => exact hb
    | acq | relLk | set | swtch => trivial
  cases step_acts e with
  | still _ _ hk => exact .inl (other (by rw [hk]) (by rw [hk]; exact id))
  | @stir j _ _ hj hk =>
    by_cases hpj : p = j
    · subst hpj
      cases hj with
      | run hr h' => exact .inl (other (by rw [h']) (by rw [h']; nofun))
      | wake hr h' => exact .inl (other (by rw [h']) (by rw [h']; nofun))
    · exact .inl (other (by rw [hk p hpj]) (by rw [hk p hpj]; exact id))
  | @thread i op k' st' hc he hl hk hcur =>
    by_cases hpi : p = i
    · subst hpi
      rcases threadInstr_main he with ⟨f, f', hst, hst', hf⟩ | ⟨hmain, hk'⟩
      · have hs' : f.sleeping p = some (ch, lk, s) := by
          unfold Kern.InSleep at hs
          rwa [hst] at hs
        obtain ⟨next, h1, h2⟩ := instr_sleep hs' hf
        refine .inr ⟨op, k', next, hc, h1, hl, hcur, ?_⟩
        rw [hk, Kern.setContext_self, show st' = [f'] from hst']
        exact h2
      · refine .inl ⟨?_, fun hb => ?_⟩
        · unfold Kern.InSleep
          rw [hk, Kern.setContext_self, show mainOf st' = _ from hmain]
          exact hs
        · rcases hk' with hk' | ⟨g, f, hst⟩
          · rwa [hk, Kern.setContext_state, show k' = m.k from hk'] at hb
          · by_cases hr : s = .reacq
            · subst hr
              exact hb
            · obtain ⟨f', hst', -⟩ := h.sleep_alone hs hr
              rw [hst] at hst'
              cases hst'
    · rw [hk] at other ⊢
      have hsh := h.shift_all hc he hl hpi
      refine .inl (other ?_ ?_)
      · cases hsh with
        | keep hq => exact hq.context
        | wake _ _ _ hq | publish _ _ hq | freed _ _ hq => exact hq
        | alloc hu => exact absurd hu (h.sleep_used hs)
      · intro hsl
        cases hsh with
        | keep hq => exact hq.state.symm.trans hsl
        | wake _ _ hq | publish _ hq | freed _ hq | alloc _ hq =>
          rw [hq] at hsl
          cases hsl

/-- in a call of `sleep`, a process that has been woken is not bound again -/
theorem Sane.bound_in_sleep (h : m.Sane) {x : Choice} (e : m.step c x = some m') {ch' : Chan N}
    {lk' : Lock N} (hs : m.k.InSleep p ch' lk' s) (hb : m'.k.Bound p ch lk) :
    m.k.Bound p ch lk := by
  obtain ⟨s', hs', hb'⟩ := hb
  rcases h.sleep_step e hs with ⟨h1, h2⟩ | ⟨op, k', next, -, h1, -, -, h2⟩
  · cases hs'.symm.trans h1
    exact ⟨_, hs, h2 hb'⟩
  · unfold Kern.InSleep at hs'
    rw [h2] at hs'
    cases s with
    | acq | relLk | set | swtch =>
      cases h1
      cases hs'
      exact ⟨_, hs, trivial⟩
    | relP =>
      cases h1
      cases hs'
      exact hb'.elim
    | reacq =>
      cases h1
      cases hs'

/-- a process becomes bound to sleep only by its own call, with the lock held -/
theorem Sane.bound_back (h : m.Sane) {x : Choice} (e : m.step c x = some m')
    (hb : m'.k.Bound p ch lk) :
    m.k.Bound p ch lk ∨ (m.cur c = some p ∧ m.locks.owner lk = some c) := by
  cases hm : (mainOf (m.k.proc p).context).sleeping p with
  | some r =>
    obtain ⟨ch0, lk0, s⟩ := r
    exact .inl (h.bound_in_sleep e hm hb)
  | none =>
    obtain ⟨s', hs', -⟩ := hb
    have hne : (mainOf (m'.k.proc p).context).sleeping p ≠ none := by
      rw [show (mainOf (m'.k.proc p).context).sleeping p = _ from hs']
      nofun
    have same : (m'.k.proc p).context = (m.k.proc p).context → False := by
      intro hc
      rw [hc] at hne
      exact hne hm
    cases step_acts e with
    | still _ _ hk => exact (same (by rw [hk])).elim
    | @stir j _ _ hj hk =>
      refine (same ?_).elim
      by_cases hpj : p = j
      · subst hpj
        cases hj with
        | run _ h' | wake _ h' => rw [h']
      · rw [hk p hpj]
    | @thread i op k' st' hc he hl hk =>
      by_cases hpi : p = i
      · subst hpi
        rw [hk, Kern.setContext_self] at hne
        rcases threadInstr_main he with ⟨f, f', hst, hst', hf⟩ | ⟨hmain, -⟩
        · unfold Kern.InSleep at hs'
          rw [hk, Kern.setContext_self, show st' = [f'] from hst'] at hs'
          rw [hst] at hm
          have hn := (instr_enters hf hm hs').2
          refine .inr ⟨hc, (h.cpu c p hc).owns _ ?_⟩
          rw [hst]
          exact hn
        · rw [show mainOf st' = _ from hmain] at hne
          exact absurd hm hne
      · rcases (h.shift_all hc he hl hpi).context with hcx | hcx
        · exact (same (by rw [hk]; exact hcx)).elim
        · rw [hk, hcx] at hne
          exact absurd rfl hne

/-- a process that is `SLEEPING` in a call of `sleep` has not been woken -/
theorem Sane.sleeping_bound (h : m.Sane) (hs : m.k.InSleep p ch lk s)
    (hst : (m.k.proc p).state = .sleeping) : s.Bound (m.k.proc p).state := by
  cases s with
  | acq | relLk | set | swtch => trivial
  | relP => exact hst
  | reacq =>
    -- neither this place nor a handler above it goes with `SLEEPING`
    obtain ⟨hmode, hpoint⟩ : (modeOf p (m.k.proc p).context = .run ∨
        modeOf p (m.k.proc p).context = .ready) ∧
        ∀ ch', pointOf p (m.k.proc p).context ≠ some (.sleep ch') := by
      have hl := h.low p
      unfold Kern.InSleep at hs
      match hctx : (m.k.proc p).context with
      | [] => exact ⟨.inl rfl, nofun⟩
      | [f] =>
        rw [hctx] at hs
        obtain ⟨-, h2, h3⟩ := Frame.sleeping_facts hs
        exact ⟨.inl h2, fun ch' e => by cases h3.symm.trans e⟩
      | [g, f] =>
        rw [hctx] at hl
        exact hl.1.facts p
      | _ :: _ :: _ :: _ =>
        rw [hctx] at hs
        cases hs
    by_cases hc : ∃ c, m.cur c = some p
    · obtain ⟨c, hc⟩ := hc
      have hm := (h.cpu c p hc).mode
      rcases hmode with hmode | hmode <;> rw [hmode] at hm
      · cases hst.symm.trans hm
      · cases hst.symm.trans hm
    · have hpk := h.parked p fun c hn => hc ⟨c, hn⟩
      unfold Parked at hpk
      rw [hst] at hpk
      obtain ⟨ch', h1, -⟩ := hpk
      exact absurd h1 (hpoint ch')

end Machine

/-! ## calls of `wakeup` -/

/-- the slots that `wakeup` has still to look at -/
def WakeAt.rem : WakeAt N → List (Slot N)
  | .acq rem => rem
  | .rel _ rem => rem

/-- `wakeup` goes over the slots: what it has seen it has had the lock of -/
theorem wakeInstr_visits {p : Slot N} {self : Option (Slot N)} {k k' : Kern N} {ch : Option (Chan N)}
    {w w' : WakeAt N} {op : Op (Lock N)} (e : wakeInstr self ch k w = ⟨op, k', .inl w'⟩)
    (hp : p ∉ w'.rem) :
    p ∉ w.rem ∨ self = some p ∨ (op = .acq (.proc p) ∧ k' = k.upd p (Proc.woken ch)) := by
  rcases w with (_ | ⟨j, rem⟩) | ⟨j, rem⟩
  · cases e
  · dsimp only [wakeInstr] at e
    by_cases hpj : p = j
    · subst hpj
      split at e
      · rename_i hs
        exact .inr (.inl hs)
      · cases e
        exact .inr (.inr ⟨rfl, rfl⟩)
    · refine .inl fun hm => hp ?_
      have hr := (List.mem_cons.mp hm).resolve_left hpj
      split at e <;> cases e <;> exact hr
  · cases e
    exact .inl hp

/-- the call of `wakeup` a piece of code is in: channel and place -/
def KernAt.waking : KernAt N → Option (Option (Chan N) × WakeAt N)
  | .wake a _ w => some (some (.other a), w)
  | _ => none

section
variable [NeZero N]

def Frame.waking : Frame N → Option (Option (Chan N) × WakeAt N)
  | .trapDev _ ks => ks.waking
  | .kern _ ks => ks.waking
  | .intr _ ks => ks.waking
  | .exit _ _ (.close ks) => ks.waking
  | .exit _ _ (.wakeInit _ w) => some (some (.proc initproc), w)
  | .exit _ _ (.wakeParent pch w) => some (pch, w)
  | _ => none

end

/-- where the code goes on from a call of `wakeup` -/
def afterWake (ch : Option (Chan N)) (next : WakeAt N ⊕ Unit) :
    Option (Option (Chan N) × WakeAt N) := Sum.elim (fun w => some (ch, w)) (fun _ => none) next

section
variable {self : Option (Slot N)} {k : Kern N} {x : Choice} {ch : Option (Chan N)} {w : WakeAt N}

theorem kernInstr_wake {b : Bool} {ks : KernAt N} {o : Out N (KernAt N ⊕ BitVec 64)}
    (h : ks.waking = some (ch, w)) (e : kernInstr self b k x ks = some o) :
    ∃ next ks', wakeInstr self ch k w = ⟨o.op, o.k, next⟩ ∧ o.next = .inl ks' ∧
      ks'.waking = afterWake ch next := by
  cases ks with
  | wake a held w =>
    cases h
    cases e
    generalize wakeInstr self (some (Chan.other a)) k w = o
    obtain ⟨op, k', y⟩ := o
    cases y <;> exact ⟨_, _, rfl, rfl, rfl⟩
  | run | sleep => cases h

variable [NeZero N] {i : Slot N}

theorem instr_wake {f : Frame N} {o : Out N (Frame N)} (h : f.waking = some (ch, w))
    (e : instr i k x f = some o) :
    ∃ next, wakeInstr (some i) ch k w = ⟨o.op, o.k, next⟩ ∧ o.next.waking = afterWake ch next := by
  cases f with
  | trapDev timer ks =>
    obtain ⟨o', e', rfl⟩ := Option.map_eq_some_iff.mp e
    obtain ⟨next, ks', h1, h2, h3⟩ := kernInstr_wake h e'
    refine ⟨next, h1, ?_⟩
    show (Sum.elim _ _ o'.next : Frame N).waking = _
    rw [h2]
    exact h3
  | kern sys ks =>
    obtain ⟨o', e', rfl⟩ := Option.map_eq_some_iff.mp e
    obtain ⟨next, ks', h1, h2, h3⟩ := kernInstr_wake h e'
    refine ⟨next, h1, ?_⟩
    show (Sum.elim _ _ o'.next : Frame N).waking = _
    rw [h2]
    exact h3
  | exit status msg p =>
    cases p with
    | close ks =>
      dsimp only [instr, exitInstr] at e
      cases hx : kernInstr (some i) true k x ks with
      | none =>
        rw [hx] at e
        cases e
      | some o' =>
        obtain ⟨next, ks', h1, h2, h3⟩ := kernInstr_wake h hx
        obtain ⟨op, k', y⟩ := o'
        cases h2
        rw [hx] at e
        cases e
        exact ⟨next, h1, h3⟩
    | wakeInit rem w =>
      cases h
      cases e
      generalize wakeInstr (some i) (some (.proc initproc)) k w = o
      obtain ⟨op, k', y⟩ := o
      cases y <;> exact ⟨_, rfl, rfl⟩
    | wakeParent pch w =>
      cases h
      cases e
      generalize wakeInstr (some i) ch k w = o
      obtain ⟨op, k', y⟩ := o
      cases y <;> exact ⟨_, rfl, rfl⟩
    | _ => cases h
  | intr => cases e
  | _ => cases h

theorem intrInstr_wake {g : Frame N} {o : Out N (Option (Frame N))} (h : g.waking = some (ch, w))
    (hg : g.kind = .intr) (e : intrInstr self k x g = some o) :
    ∃ next g', wakeInstr self ch k w = ⟨o.op, o.k, next⟩ ∧ o.next = some g' ∧
      g'.waking = afterWake ch next := by
  cases g with
  | intr timer ks =>
    obtain ⟨o', e', rfl⟩ := Option.map_eq_some_iff.mp e
    obtain ⟨next, ks', h1, h2, h3⟩ := kernInstr_wake h e'
    refine ⟨next, .intr timer ks', h1, ?_, h3⟩
    show Sum.elim _ _ o'.next = _
    rw [h2]
    rfl
  | intrYield => cases h
  | _ => cases hg

end

namespace Machine
variable {C : Type} [DecidableEq C] [NeZero N] {m m' : Machine N C} {c : C} {p : Slot N}

/-- the frames of the thread of a process or of the scheduler of a CPU, the lowest first -/
def frames (m : Machine N C) : Slot N ⊕ C → List (Frame N)
  | .inl q => (m.k.proc q).context.reverse
  | .inr d => (m.sch d).reverse

/-- CPU `c` executes the thread -/
def Executes (m : Machine N C) (c : C) : Slot N ⊕ C → Prop
  | .inl q => m.cur c = some q
  | .inr d => d = c ∧ m.cur c = none

/-- the call of `wakeup` the thread is in, in its frame `l` -/
def wakeupOf (m : Machine N C) (th : Slot N ⊕ C) (l : ℕ) : Option (Option (Chan N) × WakeAt N) :=
  (m.frames th)[l]?.bind Frame.waking

/-- the thread is in a call of `wakeup(ch)`, in its frame `l` -/
def InWakeup (m : Machine N C) (th : Slot N ⊕ C) (l : ℕ) (ch : Option (Chan N)) (w : WakeAt N) :
    Prop := m.wakeupOf th l = some (ch, w)

instance (m : Machine N C) (th : Slot N ⊕ C) (l : ℕ) (ch : Option (Chan N)) (w : WakeAt N) :
    Decidable (m.InWakeup th l ch w) := inferInstanceAs (Decidable (_ = _))

/-- `myproc()` of a thread -/
def myproc : Slot N ⊕ C → Option (Slot N)
  | .inl q => some q
  | .inr _ => none

omit [DecidableEq C] in
theorem waking_low {i : Slot N} {st : List (Frame N)} (h : Low i st) :
    st.reverse[0]?.bind Frame.waking = (mainOf st).waking := by
  match st with
  | [] => rfl
  | [f] => rfl
  | [g, f] => rfl
  | _ :: _ :: _ :: _ => exact h.elim

theorem Sane.process_wakeup_step (h : m.Sane) {x : Choice} (e : m.step c x = some m') {q : Slot N}
    {l : ℕ} {ch : Option (Chan N)} {w : WakeAt N} (hw : m.InWakeup (.inl q) l ch w) :
    m'.InWakeup (.inl q) l ch w ∨
    ∃ op k' next, m.cur c = some q ∧ wakeInstr (some q) ch m.k w = ⟨op, k', next⟩ ∧
      m.locks.apply c op = some m'.locks ∧ (∀ j, (m'.k.proc j).state = (k'.proc j).state) ∧
      m'.wakeupOf (.inl q) l = afterWake ch next := by
  have same : (m'.k.proc q).context = (m.k.proc q).context → m'.InWakeup (.inl q) l ch w := by
    intro hc
    show (m'.k.proc q).context.reverse[l]?.bind Frame.waking = _
    rw [hc]
    exact hw
  cases step_acts e with
  | still _ _ hk => exact .inl (same (by rw [hk]))
  | @stir j _ _ hj hk =>
    refine .inl (same ?_)
    by_cases hqj : q = j
    · subst hqj
      cases hj with
      | run _ h' | wake _ h' => rw [h']
    · rw [hk q hqj]
  | @thread i op k' st' hc he hl hk =>
    by_cases hqi : q = i
    · subst hqi
      have hlow := h.low q
      have hlow' := (h.does hc he).2
      have hstate : ∀ j, (m'.k.proc j).state = (k'.proc j).state := by
        intro j
        rw [hk, Kern.setContext_state]
      have hfr : m'.frames (.inl q) = st'.reverse := by
        show (m'.k.proc q).context.reverse = _
        rw [hk, Kern.setContext_self]
      unfold InWakeup wakeupOf at hw ⊢
      rw [hfr]
      change (m.k.proc q).context.reverse[l]?.bind Frame.waking = _ at hw
      match hctx : (m.k.proc q).context with
      | [] =>
        rw [hctx] at hw
        cases hw
      | [f] =>
        rw [hctx] at hw he hlow
        cases l with
        | zero =>
          rw [waking_low hlow']
          rcases threadInstr_main he with ⟨f1, f', hst, hst', hf⟩ | ⟨hmain, -⟩
          · cases hst
            obtain ⟨next, h1, h2⟩ := instr_wake hw hf
            refine .inr ⟨op, k', next, hc, h1, hl, hstate, ?_⟩
            rw [show st' = [f'] from hst']
            exact h2
          · refine .inl ?_
            rw [show mainOf st' = _ from hmain]
            exact hw
        | succ l => cases hw
      | [g, f] =>
        rw [hctx] at hw he hlow
        obtain ⟨o', h1, h2⟩ := Option.map_eq_some_iff.mp he
        cases l with
        | zero =>
          rw [waking_low hlow']
          refine .inl ?_
          cases h2
          rw [show mainOf (o'.next.toList ++ [f]) = f by cases o'.next <;> rfl]
          exact hw
        | succ l =>
          cases l with
          | zero =>
            obtain ⟨next, g', h3, h4, h5⟩ := intrInstr_wake hw hlow.1.kind h1
            cases h2
            refine .inr ⟨_, _, next, hc, h3, hl, hstate, ?_⟩
            rw [h4]
            exact h5
          | succ l => cases hw
      | _ :: _ :: _ :: _ =>
        rw [hctx] at hlow
        exact hlow.elim
    · rcases (h.shift_all hc he hl hqi) with hq | ⟨_, _, _, hq⟩ | ⟨hu, _, _⟩ | ⟨_, _, hq⟩ | ⟨_, _, hq⟩
      · exact .inl (same (by rw [hk]; exact hq.context))
      · exact .inl (same (by rw [hk]; exact hq))
      · exfalso
        have hpk := h.parked q fun c hc => (h.cpu c q hc).state.1 hu
        unfold Parked at hpk
        rw [hu] at hpk
        change (m.k.proc q).context.reverse[l]?.bind Frame.waking = _ at hw
        rcases hpk with e | e | ⟨_, _, e⟩ <;> rw [e] at hw <;> rcases l with _ | l <;> cases hw
      · exact .inl (same (by rw [hk]; exact hq))
      · exact .inl (same (by rw [hk]; exact hq))

theorem Sane.scheduler_wakeup_step (h : m.Sane) {x : Choice} (e : m.step c x = some m') {d : C}
    {l : ℕ} {ch : Option (Chan N)} {w : WakeAt N} (hw : m.InWakeup (.inr d) l ch w) :
    m'.InWakeup (.inr d) l ch w ∨
    ∃ op k' next, (d = c ∧ m.cur c = none) ∧ wakeInstr none ch m.k w = ⟨op, k', next⟩ ∧
      m.locks.apply c op = some m'.locks ∧ (∀ j, (m'.k.proc j).state = (k'.proc j).state) ∧
      m'.wakeupOf (.inr d) l = afterWake ch next := by
  have hw' : (m.sch d).reverse[l]?.bind Frame.waking = some (ch, w) := hw
  have same : m'.sch d = m.sch d → m'.InWakeup (.inr d) l ch w := by
    intro hc
    show (m'.sch d).reverse[l]?.bind Frame.waking = _
    rw [hc]
    exact hw
  -- the scheduler itself does not call `wakeup`
  have plain : ∀ {f : Frame N} {P : Prop}, m.sch c = [f] → f.kind = .sched → d = c → P := by
    intro f P hs hf hd
    rw [hd, hs] at hw'
    rcases l with _ | l
    · cases f <;> cases hf <;> cases hw'
    · cases hw'
  have own : ∀ {f : Frame N} {st : List (Frame N)}, m.sch c = [f] → f.kind = .sched →
      m'.sch = Function.update m.sch c st → m'.InWakeup (.inr d) l ch w := by
    intro f st hs hf hm'
    by_cases hd : d = c
    · exact plain hs hf hd
    · exact same (by rw [hm', Function.update_of_ne hd])
  cases step_moves e with
  | proc | swtch => exact .inl (same rfl)
  | loop _ hs =>
    obtain ⟨rem, hs, -⟩ := hs
    exact .inl (own hs rfl rfl)
  | take _ hs | skip _ hs | go _ hs | back _ hs | rel _ hs => exact .inl (own hs rfl rfl)
  | @intr timer ks f op k' y locks' hc hs he hl =>
    by_cases hd : d = c
    · subst hd
      have hidle := h.idle d hc
      rw [hs] at hidle hw'
      cases f with
      | schedLoop rem =>
        rcases l with _ | _ | l
        · cases hw'
        · obtain ⟨next, ks', h1, h2, h3⟩ := kernInstr_wake hw' he
          obtain rfl : y = .inl ks' := h2
          refine .inr ⟨op, k', next, ⟨rfl, hc⟩, h1, hl, fun _ => rfl, ?_⟩
          show (Function.update m.sch d _ d).reverse[1]?.bind Frame.waking = _
          rw [Function.update_self]
          exact h3
        · cases hw'
      | _ => exact hidle.elim
    · exact .inl (same (Function.update_of_ne hd _ _))

/-- a step of the machine leaves a call of `wakeup` where it is, or is the next step of the call -/
theorem Sane.wakeup_step (h : m.Sane) {x : Choice} (e : m.step c x = some m') {th : Slot N ⊕ C}
    {l : ℕ} {ch : Option (Chan N)} {w : WakeAt N} (hw : m.InWakeup th l ch w) :
    m'.InWakeup th l ch w ∨
    ∃ op k' next, m.Executes c th ∧ wakeInstr (myproc th) ch m.k w = ⟨op, k', next⟩ ∧
      m.locks.apply c op = some m'.locks ∧ (∀ j, (m'.k.proc j).state = (k'.proc j).state) ∧
      m'.wakeupOf th l = afterWake ch next := by
  cases th with
  | inl q => exact h.process_wakeup_step e hw
  | inr d => exact h.scheduler_wakeup_step e hw

end Machine

/-! ## no wakeup is lost -/

section
variable {C : Type} [DecidableEq C] [NeZero N] {σ : ℕ → Machine N C} {p : Slot N} {ch : Chan N}
  {lk : Lock N}

/-- as long as it does not return, `sleep` does not go back to where it holds its lock -/
theorem released_stays (h : Machine.Run σ) {t0 t1 : ℕ}
    (hin : ∀ t, t0 ≤ t → t ≤ t1 → ∃ s, (σ t).k.InSleep p ch lk s)
    (h0 : (σ t0).locks.owner lk = none) :
    ∀ t, t0 ≤ t → t ≤ t1 → ∃ s, (σ t).k.InSleep p ch lk s ∧ s ≠ .acq ∧ s ≠ .relLk := by
  intro t ht ht1
  have hsane := Machine.Sane.of_run h
  induction t, ht using Nat.le_induction with
  | base =>
    obtain ⟨s, hs⟩ := hin t0 le_rfl ht1
    have held : ∀ {P : Prop}, s ≠ .reacq → s ≠ .relP → lk ∈ sleepNeed p lk s → P := by
      intro P hr hp hn
      obtain ⟨c, -, ho⟩ := (hsane t0).sleep_holds hs hr hp
      cases h0.symm.trans (ho _ hn)
    refine ⟨s, hs, ?_, ?_⟩
    · rintro rfl
      exact held nofun nofun List.mem_cons_self
    · rintro rfl
      exact held nofun nofun (List.mem_cons_of_mem _ List.mem_cons_self)
  | succ t ht ih =>
    obtain ⟨s, hs, h1, h2⟩ := ih (by omega)
    rcases h.next t with e | ⟨c, x, e⟩
    · rw [e]
      exact ⟨s, hs, h1, h2⟩
    · rcases (hsane t).sleep_step e hs with ⟨hs', -⟩ | ⟨op, k', next, -, h3, -, -, h4⟩
      · exact ⟨s, hs', h1, h2⟩
      · obtain ⟨s', hs'⟩ := hin (t + 1) (by omega) ht1
        refine ⟨s', hs', ?_⟩
        rw [show (mainOf ((σ (t + 1)).k.proc p).context).sleeping p = _ from hs'] at h4
        cases s with
        | acq => exact absurd rfl h1
        | relLk => exact absurd rfl h2
        | set | swtch | relP =>
          cases h3
          cases h4
          exact ⟨nofun, nofun⟩
        | reacq =>
          cases h3
          cases h4

/-- a slot that `wakeup` has seen is not bound to sleep on its channel -/
theorem seen_not_bound (h : Machine.Run σ) {tw te : ℕ}
    (hin : ∀ t, tw ≤ t → t ≤ te → ∃ s, (σ t).k.InSleep p ch lk s ∧ s ≠ .acq ∧ s ≠ .relLk)
    {th : Slot N ⊕ C} {l : ℕ} (hth : th ≠ .inl p)
    (hstart : (σ tw).InWakeup th l (some ch) (.acq (slots N)))
    (hwake : ∀ t, tw ≤ t → t ≤ te → ∃ w, (σ t).InWakeup th l (some ch) w) :
    ∀ t, tw ≤ t → t ≤ te → ∀ w, (σ t).InWakeup th l (some ch) w → p ∉ w.rem →
      ¬(σ t).k.Bound p ch lk := by
  intro t ht ht1
  have hsane := Machine.Sane.of_run h
  induction t, ht using Nat.le_induction with
  | base =>
    intro w hw hp
    cases hw.symm.trans hstart
    exact absurd (List.mem_finRange p) hp
  | succ t ht ih =>
    intro w' hw' hp hb
    rcases h.next t with e | ⟨c, x, e⟩
    · rw [e] at hw' hb
      exact ih (by omega) w' hw' hp hb
    obtain ⟨w, hw⟩ := hwake t ht (by omega)
    obtain ⟨s, hs, h1, h2⟩ := hin t ht (by omega)
    have hb0 := (hsane t).bound_in_sleep e hs hb
    rcases (hsane t).wakeup_step e hw with hsame | ⟨op, k', next, hex, he, hl, hst, hnext⟩
    · cases hw'.symm.trans hsame
      exact ih (by omega) w' hw hp hb0
    · rw [show (σ (t + 1)).wakeupOf th l = _ from hw'] at hnext
      cases next with
      | inr r => cases hnext
      | inl w1 =>
        cases hnext
        rcases wakeInstr_visits he hp with h3 | h3 | ⟨rfl, rfl⟩
        · exact ih (by omega) w hw h3 hb0
        · -- `wakeup` leaves out its own process, which is another one
          cases th with
          | inl q => exact hth (congrArg Sum.inl (Option.some.inj h3))
          | inr d => cases h3
        · -- the lock of `p` was free: `p` is `SLEEPING`, and it is woken
          obtain ⟨s0, hs0, hb0⟩ := hb0
          cases hs.symm.trans hs0
          rcases (hsane t).visit hs hb0 (Spin.apply_acq hl).1 with h3 | ⟨rfl, h3, h4⟩
          · exact h1 h3
          · have hrun : ((σ (t + 1)).k.proc p).state = .runnable := by
              rw [hst p, Kern.upd_same]
              unfold Proc.woken
              rw [if_pos ⟨h3, h4⟩]
            rcases (hsane t).sleep_step e hs with ⟨hs', -⟩ | ⟨_, _, _, hcur, -⟩
            · obtain ⟨s', hs1, hb'⟩ := hb
              cases hs1.symm.trans hs'
              cases hrun.symm.trans hb'
            · cases th with
              | inl q => exact hth (congrArg Sum.inl (Option.some.inj (hex.symm.trans hcur)))
              | inr d => cases hex.2.symm.trans hcur

end

/-- **`sleep` and `wakeup` lose no wakeup.**  `sleep(ch, lk)` is called with `lk` held; if, before it
returns, another thread (a process or an interrupt handler, `th`) takes `lk` and after that calls
`wakeup(ch)` and completes it, the process is not `SLEEPING` on `ch` from then on until it returns;
and when it returns, it holds `lk`. -/
theorem sleep_wakeup {C : Type} [DecidableEq C] [NeZero N] {σ : ℕ → Machine N C}
    (h : Machine.Run σ) (p : Slot N) (ch : Chan N) (lk : Lock N) :
    (∀ t, (σ t).k.InSleep p ch lk .acq →
      ∃ c, (σ t).cur c = some p ∧ (σ t).locks.owner lk = some c) ∧
    (∀ t0 t1, (σ t0).k.InSleep p ch lk .acq →
      (∀ t, t0 ≤ t → t ≤ t1 → ∃ s, (σ t).k.InSleep p ch lk s) →
      ∀ th l ta tw te, th ≠ .inl p → t0 ≤ ta → ta < tw → tw ≤ te → te ≤ t1 →
        (∃ c, (σ ta).Executes c th ∧ (σ ta).locks.owner lk = none ∧
          (σ (ta + 1)).locks.owner lk = some c) →
        (σ tw).InWakeup th l (some ch) (.acq (slots N)) →
        (∀ t, tw ≤ t → t ≤ te → ∃ w, (σ t).InWakeup th l (some ch) w) →
        (σ te).InWakeup th l (some ch) (.acq []) →
        ∀ t, te ≤ t → t ≤ t1 →
          ¬(((σ t).k.proc p).state = .sleeping ∧ ((σ t).k.proc p).chan = some ch)) ∧
    (∀ t s, (σ t).k.InSleep p ch lk s → (∀ s', ¬(σ (t + 1)).k.InSleep p ch lk s') →
      ∃ c, (σ (t + 1)).cur c = some p ∧ (σ (t + 1)).locks.owner lk = some c) := by
  have hsane := Machine.Sane.of_run h
  refine ⟨fun t hs => ?_, ?_, fun t s hs hout => ?_⟩
  · obtain ⟨c, hc, ho⟩ := (hsane t).sleep_holds hs nofun nofun
    exact ⟨c, hc, ho _ List.mem_cons_self⟩
  · intro t0 t1 _ hin th l ta tw te hth h0 h1 h2 h3 hacq hstart hwake hend t ht ht1
    obtain ⟨c, -, hfree, -⟩ := hacq
    have hrel : ∀ t, ta ≤ t → t ≤ t1 →
        ∃ s, (σ t).k.InSleep p ch lk s ∧ s ≠ .acq ∧ s ≠ .relLk :=
      released_stays h (fun t ht => hin t (by omega)) hfree
    have hseen : ¬(σ te).k.Bound p ch lk :=
      seen_not_bound h (fun t ht1 ht2 => hrel t (by omega) (by omega)) hth hstart hwake te h2 le_rfl
        _ hend List.not_mem_nil
    have hnot : ¬(σ t).k.Bound p ch lk := by
      induction t, ht using Nat.le_induction with
      | base => exact hseen
      | succ t ht ih =>
        rcases h.next t with e | ⟨c, x, e⟩
        · rw [e]
          exact ih (by omega)
        · obtain ⟨s, hs⟩ := hin t (by omega) (by omega)
          exact fun hb => ih (by omega) ((hsane t).bound_in_sleep e hs hb)
    rintro ⟨hst, -⟩
    obtain ⟨s, hs⟩ := hin t (by omega) ht1
    exact hnot ⟨s, hs, (hsane t).sleeping_bound hs hst⟩
  · rcases h.next t with e | ⟨c, x, e⟩
    · rw [e] at hout
      exact absurd hs (hout s)
    · rcases (hsane t).sleep_step e hs with ⟨hs', -⟩ | ⟨op, k', next, hc, h1, hl, hcur, h2⟩
      · exact absurd hs' (hout s)
      · cases s with
        | acq | relLk | set | swtch | relP =>
          cases h1
          exact absurd h2 (hout _)
        | reacq =>
          cases h1
          refine ⟨c, ?_, ?_⟩
          · rw [hcur nofun]
            exact hc
          · obtain ⟨-, hl'⟩ := Spin.apply_acq hl
            rw [hl']
            exact Function.update_self _ _ _

/-- the first process sleeps in `wait` from time 31 on; its child takes `wait_lock` at time 48 and
calls `wakeup` from time 53 to 58 -/
theorem sleep_wakeup_sample : ∃ m, sampleBoot = some m ∧
    let σ := m.schedule sampleRun
    (σ 53).k.Bound 0 (.proc 0) .wait ∧ ((σ 53).k.proc 0).state = .sleeping ∧
    ¬(((σ 58).k.proc 0).state = .sleeping ∧ ((σ 58).k.proc 0).chan = some (.proc 0)) ∧
    ∃ c, (σ (70 + 1)).cur c = some 0 ∧ (σ (70 + 1)).locks.owner .wait = some c := by
  have h : ∃ m, sampleBoot = some m ∧
      let σ := m.schedule sampleRun
      ((σ 31).k.InSleep 0 (.proc 0) .wait .acq ∧ (σ 53).k.InSleep 0 (.proc 0) .wait .relP ∧
        ((σ 53).k.proc 0).state = .sleeping ∧ (σ 70).k.InSleep 0 (.proc 0) .wait .reacq ∧
        (mainOf ((σ (70 + 1)).k.proc 0).context).sleeping 0 = none ∧
        ∀ d < 28, ((mainOf ((σ (31 + d)).k.proc 0).context).sleeping 0).any
          fun r => r.1 = .proc 0 ∧ r.2.1 = .wait) ∧
      ((σ 48).cur 1 = some 1 ∧ (σ 48).locks.owner .wait = none ∧
        (σ (48 + 1)).locks.owner .wait = some 1) ∧
      ((σ 53).InWakeup (.inl 1) 0 (some (.proc 0)) (.acq (slots 3)) ∧
        (σ 58).InWakeup (.inl 1) 0 (some (.proc 0)) (.acq []) ∧
        ∀ d < 6, ((σ (53 + d)).wakeupOf (.inl 1) 0).any fun r => r.1 = some (.proc 0)) :=
    sample_any _ (by decide +kernel)
  obtain ⟨m, hm, ⟨h1, h2, h3, h4, h5, h6⟩, ⟨h7, h8, h9⟩, h10, h11, h12⟩ := h
  have hw := sleep_wakeup (Machine.schedule_run ⟨_, hm⟩ sampleRun) 0 (.proc 0) .wait
  refine ⟨m, hm, ⟨_, h2, h3⟩, h3, ?_, ?_⟩
  · refine hw.2.1 31 58 h1 (fun t ht ht1 => ?_) (.inl 1) 0 48 53 58 (by simp) (by omega) (by omega)
      (by omega) (by omega) ⟨1, h7, h8, h9⟩ h10 (fun t ht ht1 => ?_) h11 58 le_rfl le_rfl
    · obtain ⟨d, rfl⟩ := Nat.exists_eq_add_of_le ht
      obtain ⟨⟨ch, lk, s⟩, hs, hr⟩ := (Option.any_eq_true _ _).mp (h6 d (by omega))
      obtain ⟨rfl, rfl⟩ := of_decide_eq_true hr
      exact ⟨s, hs⟩
    · obtain ⟨d, rfl⟩ := Nat.exists_eq_add_of_le ht
      obtain ⟨⟨ch, w⟩, hs, hr⟩ := (Option.any_eq_true _ _).mp (h12 d (by omega))
      obtain rfl := of_decide_eq_true hr
      exact ⟨w, hs⟩
  · refine hw.2.2 70 .reacq h4 fun s' hs' => ?_
    cases h5.symm.trans hs'

end Xv6
