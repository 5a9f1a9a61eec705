import Xv6.Machine.Sched

/-!
# `kill`

`kill` takes the first slot whose pid field is the given one, whatever its state.  `freeproc` leaves the
pid 0 in a free slot, so `kill(0)` finds one; `allocproc` does not reset `killed`, so the next process
in that slot starts killed.

* `Kern.KillLaw`   what `kill` is for;
* `Kern.KillMeets`   when a call does that;
* `Sane.marks`, `fresh_of_run`   the `killed` of processes that have not run yet, in one step and in a run;
* `kill_law`   **the calls that keep the law, and what follows in runs of such calls.**
-/

set_option linter.unusedSectionVars false

namespace Xv6
variable {N : ℕ}

/-! ## one call -/

/-- the slot `kill(pid)` finds -/
def Kern.findPid (k : Kern N) (pid : CInt) : Option (Slot N) :=
  (slots N).find? fun j => (k.proc j).pid = pid

/-- the call `kill(pid)` returns 0 and hits exactly one process that has that pid, or there is no such
process and the call changes nothing -/
def Kern.KillLaw (k : Kern N) (pid : CInt) (r : Int) (k' : Kern N) : Prop :=
  (r = 0 ∧ ∃ j, (k.proc j).state ≠ .unused ∧ (k.proc j).pid = pid ∧ k' = k.upd j Proc.onKill) ∨
  (r = -1 ∧ (∀ j, (k.proc j).pid = pid → (k.proc j).state = .unused) ∧ k' = k)

/-- the slot found is a process; or it is free and has been killed before, and so has a process with
that pid -/
def Kern.KillMeets (k : Kern N) (pid : CInt) : Prop :=
  ∀ j, k.findPid pid = some j → (k.proc j).state ≠ .unused ∨
    ((k.proc j).killed = true ∧ ∃ p, (k.proc p).pid = pid ∧ (k.proc p).state ≠ .unused ∧
      (k.proc p).killed = true ∧ (k.proc p).state ≠ .sleeping)

theorem Kern.upd_self (k : Kern N) {j : Slot N} {f : Proc N → Proc N} (h : f (k.proc j) = k.proc j) :
    k.upd j f = k := by
  unfold Kern.upd
  rw [h, Function.update_eq_self]

theorem Proc.onKill_eq {q : Proc N} : q.onKill = q ↔ q.killed = true ∧ q.state ≠ .sleeping := by
  constructor
  · intro h
    refine ⟨by rw [← h]; rfl, fun hs => ?_⟩
    have := congrArg Proc.state h
    simp [Proc.onKill, hs] at this
  · rintro ⟨hk, hs⟩
    cases q
    simp_all [Proc.onKill]

theorem killScan_run (pid : CInt) (s : KState N) (hs : ∀ j, .proc j ∉ s.held) (js : List (Slot N)) :
    killScan pid js s = match js.find? fun j => (s.k.proc j).pid = pid with
      | none => some (-1, s)
      | some j => some (0, s.withK (s.k.upd j Proc.onKill)) := by
  induction js with
  | nil => rfl
  | cons j js ih =>
    have e1 := acquire_run (hs j)
    unfold killScan
    rw [Act.bind_of e1, Act.bind_of (getProc_run j _)]
    by_cases hj : (s.k.proc j).pid = pid
    · have hf : (j :: js).find? (fun j => (s.k.proc j).pid = pid) = some j := by simp [hj]
      rw [hf]
      have hif : ((s.lock (.proc j)).k.proc j).pid = pid := hj
      rw [if_pos hif, Act.bind_of (setProc_run j _ _)]
      exact Act.bind_of (locked_run (k := s.k.upd j Proc.onKill) e1) _
    · have hf : (j :: js).find? (fun j => (s.k.proc j).pid = pid)
          = js.find? fun j => (s.k.proc j).pid = pid := by simp [hj]
      rw [hf, ← ih]
      have hif : ¬((s.lock (.proc j)).k.proc j).pid = pid := hj
      rw [if_neg hif]
      exact Act.bind_of (locked_run (k := s.k) e1) _

/-- **One call of `kill`** returns, and keeps the law exactly when it meets the condition. -/
theorem kill_run (s : KState N) (hs : ∀ j, .proc j ∉ s.held) (pid : CInt) :
    ∃ r k', kill pid s = some (r, s.withK k') ∧ (s.k.KillLaw pid r k' ↔ s.k.KillMeets pid) := by
  unfold kill
  rw [killScan_run pid s hs]
  have hfind : ∀ j, s.k.findPid pid = some j → (s.k.proc j).pid = pid := fun j h => by
    simpa using List.find?_some h
  cases h : s.k.findPid pid with
  | none =>
    refine ⟨-1, s.k, ?_, iff_of_true (.inr ⟨rfl, fun j hj => ?_, rfl⟩) ?_⟩
    · rw [show (slots N).find? _ = none from h]
      rfl
    · have := List.find?_eq_none.mp h j (List.mem_finRange j)
      exact absurd hj (by simpa using this)
    · intro j hj
      rw [h] at hj
      cases hj
  | some j =>
    refine ⟨0, s.k.upd j Proc.onKill, ?_, ?_, ?_⟩
    · rw [show (slots N).find? _ = some j from h]
    · rintro (⟨-, p, hp, hpid, he⟩ | ⟨h0, -⟩)
      · intro j' hj'
        obtain rfl := Option.some.inj (h.symm.trans hj')
        by_cases hu : (s.k.proc j).state = .unused
        · have hne : p ≠ j := by
            rintro rfl
            exact hp hu
          have e1 : (s.k.proc j).onKill = s.k.proc j := by
            have := congrArg (fun k => k.proc j) he
            simpa [Kern.upd_ne _ _ hne.symm] using this
          have e2 : (s.k.proc p).onKill = s.k.proc p := by
            have := congrArg (fun k => k.proc p) he
            simpa [Kern.upd_ne _ _ hne] using this.symm
          obtain ⟨h1, h2⟩ := Proc.onKill_eq.mp e2
          exact .inr ⟨(Proc.onKill_eq.mp e1).1, p, hpid, hp, h1, h2⟩
        · exact .inl hu
      · cases h0
    · intro hm
      by_cases hu : (s.k.proc j).state = .unused
      · obtain ⟨hk, p, hpid, hp, hpk, hps⟩ := (hm j h).resolve_left fun hn => hn hu
        refine .inl ⟨rfl, p, hp, hpid, ?_⟩
        rw [s.k.upd_self (Proc.onKill_eq.mpr ⟨hk, by rw [hu]; nofun⟩),
          s.k.upd_self (Proc.onKill_eq.mpr ⟨hpk, hps⟩)]
      · exact .inl ⟨rfl, j, hu, hfind j h, rfl⟩

/-! ## runs -/

namespace Machine
variable {C : Type}

/-- the thread of `i` is in `kill(pid)`, which will hit slot `j` when it has its lock -/
def killTarget (m : Machine N C) (i : Slot N) : Option (CInt × Slot N) :=
  match (m.k.proc i).context with
  | [.kill pid (.acq (j :: _))] => if (m.k.proc j).pid = pid then some (pid, j) else none
  | _ => none

/-- the thread of `i` is in `kill`, which has hit slot `j` -/
def killDone (m : Machine N C) (i : Slot N) : Option (Slot N) :=
  match (m.k.proc i).context with
  | [.kill _ (.relFound j)] => some j
  | _ => none

/-- from `m` to `m'`, a `kill(pid)` of `i` hits slot `j` -/
def KillHits (m m' : Machine N C) (i : Slot N) (pid : CInt) (j : Slot N) : Prop :=
  m.killTarget i = some (pid, j) ∧ m'.killDone i = some j

instance (m m' : Machine N C) (i : Slot N) (pid : CInt) (j : Slot N) :
    Decidable (m.KillHits m' i pid j) := inferInstanceAs (Decidable (_ ∧ _))

end Machine

/-- a process that has not run yet -/
def Proc.Fresh (q : Proc N) : Prop := q.state ≠ .unused ∧ q.context = [.forkret]

instance (q : Proc N) : Decidable q.Fresh :=
  decidable_of_iff (q.state ≠ .unused ∧ (match q.context with
    | [.forkret] => true
    | _ => false) = true) (by
      unfold Proc.Fresh
      refine and_congr_right fun _ => ?_
      split
      · rename_i h
        exact iff_of_true rfl h
      · rename_i h
        exact iff_of_false nofun h)

section
variable [NeZero N] {i : Slot N} {k : Kern N} {x : Choice}

theorem instr_started {f : Frame N} {o : Out N (Frame N)} (e : instr i k x f = some o) :
    o.next ≠ .forkret := by
  have other : f.kind ≠ .trap → o.next ≠ .forkret := by
    intro hf h
    have hk := (instr_does e).kind
    rw [show mainOf (o.map fun f => [f]).next = .forkret from h] at hk
    exact hk.elim (fun hk => hf hk.symm) id
  have elim : ∀ {A B : Type} (F : A → Frame N) (G : B → Frame N) (y : A ⊕ B),
      (∀ a, F a ≠ .forkret) → (∀ b, G b ≠ .forkret) → Sum.elim F G y ≠ .forkret := by
    rintro A B F G (a | b) hF hG
    · exact hF a
    · exact hG b
  cases f with
  | user =>
    cases x with
    | store | syscall | fault | irq =>
      cases e
      nofun
    | _ => cases e
  | trapSyscall sc s =>
    cases e
    refine elim _ _ _ nofun fun b => ?_
    cases b
    · cases sc <;> nofun
    · nofun
  | trapFault s =>
    cases e
    exact elim _ _ _ nofun nofun
  | trapDev timer ks =>
    obtain ⟨o', -, rfl⟩ := Option.map_eq_some_iff.mp e
    exact elim _ _ _ nofun nofun
  | trapRet timer s =>
    cases e
    refine elim _ _ _ nofun fun b => ?_
    cases b <;> cases timer <;> nofun
  | trapYield s =>
    cases e
    exact elim _ _ _ nofun nofun
  | sysRet r =>
    cases e
    nofun
  | sysExit status msg =>
    dsimp only [instr, trapInstr] at e
    split at e <;> cases e
    nofun
  | kern sys ks =>
    obtain ⟨o', -, rfl⟩ := Option.map_eq_some_iff.mp e
    refine elim _ _ _ nofun fun r => ?_
    cases sys <;> nofun
  | forkret =>
    cases e
    nofun
  | _ => exact other nofun

end

namespace Machine
variable {C : Type} [DecidableEq C] [NeZero N] {m m' : Machine N C} {c : C} {i j : Slot N}

theorem Sane.started (h : m.Sane) {x : Choice} (e : m.step c x = some m') (hc : m.cur c = some i) :
    (m'.k.proc i).context ≠ [.forkret] := by
  cases step_acts e with
  | still hc' => cases hc.symm.trans hc'
  | stir hc' => cases hc.symm.trans hc'
  | @thread i' op k' st' hc' he hl hk =>
    obtain rfl := Option.some.inj (hc.symm.trans hc')
    rw [hk, Kern.setContext_self]
    rcases threadInstr_cases he with ⟨f, f', -, hf', hi⟩ | ⟨timer, f, -, -, ho⟩ |
      ⟨g, f, o', hf, -, ho⟩
    · rw [show st' = [f'] from hf']
      intro h'
      cases h'
      exact instr_started hi rfl
    · cases ho
      nofun
    · have hlow := h.low i
      rw [hf] at hlow
      cases ho
      show o'.next.toList ++ [f] ≠ _
      intro h'
      have hmain : f = .forkret := by
        cases hn : o'.next <;> rw [hn] at h' <;> cases h'
        rfl
      rw [hmain] at hlow
      cases hlow.2

/-- what a step of CPU `c` does to the pid and the `killed` of slot `j` -/
inductive Marks (m : Machine N C) (c : C) (m' : Machine N C) (j : Slot N) : Prop
  | same (hk : (m'.k.proc j).killed = (m.k.proc j).killed)
    (hp : (m'.k.proc j).pid = (m.k.proc j).pid)
    (hc : (m'.k.proc j).context = (m.k.proc j).context)
    (hs : (m'.k.proc j).state = .unused ↔ (m.k.proc j).state = .unused)
  | freed (hk : (m'.k.proc j).killed = false) (hs : (m'.k.proc j).state = .unused)
  | alloc (hk : (m'.k.proc j).killed = (m.k.proc j).killed) (hs : (m.k.proc j).state = .unused)
  | own (hc : m.cur c = some j)
  | hit {i pid} (hh : m.KillHits m' i pid j) (hp : (m'.k.proc j).pid = pid)
    (hs : (m'.k.proc j).state = .unused ↔ (m.k.proc j).state = .unused)

theorem Sane.marks (h : m.Sane) {x : Choice} (e : m.step c x = some m') (j : Slot N) :
    m.Marks c m' j := by
  cases step_acts e with
  | still _ _ hk => exact .same (by rw [hk]) (by rw [hk]) (by rw [hk]) (by rw [hk])
  | @stir y _ _ hy hk =>
    by_cases hjy : j = y
    · subst hjy
      cases hy with
      | run hs h' | wake hs h' =>
        exact .same (by rw [h']) (by rw [h']) (by rw [h'])
          (iff_of_false (by rw [h']; nofun) (by rw [hs]; nofun))
    · have hj := hk j hjy
      exact .same (by rw [hj]) (by rw [hj]) (by rw [hj]) (by rw [hj])
  | @thread i op k' st' hc he hl hk =>
    by_cases hji : j = i
    · exact .own (hji ▸ hc)
    · obtain ⟨⟨-, ⟨y, g, htouch, hch⟩, -, -⟩, -⟩ := h.does hc he
      have hj : m'.k.proc j = k'.proc j := by rw [hk, Kern.setContext_ne _ hji]
      by_cases hjy : j = y
      · subst hjy
        have hh := hch.here
        rw [← hj] at hh
        have same : (g (m.k.proc j)).killed = (m.k.proc j).killed →
            (g (m.k.proc j)).pid = (m.k.proc j).pid →
            (g (m.k.proc j)).context = (m.k.proc j).context →
            ((g (m.k.proc j)).state = .unused ↔ (m.k.proc j).state = .unused) → m.Marks c m' j :=
          fun h1 h2 h3 h4 => .same (hh.killed.trans h1) (hh.pid.trans h2) (hh.context.trans h3)
            (by rw [hh.state]; exact h4)
        have freed : g = Proc.freed → m.Marks c m' j := fun hg =>
          .freed (by rw [hh.killed, hg]; rfl) (by rw [hh.state, hg]; rfl)
        cases htouch with
        | keep | swtch | sleep | unsleep | yield | setkilled | exitMsg | zombie =>
          exact absurd rfl hji
        | reparent | link | fill => exact same rfl rfl rfl Iff.rfl
        | publish hm hm' hk1 hk1' =>
          have hu := h.used i j (by
            show j ∈ makingOf _
            rw [makingOf_hands hk1]
            exact List.mem_cons_self)
          exact same rfl rfl rfl (iff_of_false nofun (by rw [hu]; nofun))
        | wake ch =>
          rcases (m.k.proc j).woken_cases ch with hw | ⟨hs, -, hw⟩
          · rw [hw] at same
            exact same rfl rfl rfl Iff.rfl
          · rw [hw] at same
            exact same rfl rfl rfl (iff_of_false nofun (by rw [hs]; nofun))
        | allocFail | fillFail | clean | reap | free => exact freed rfl
        | alloc hu => exact .alloc hh.killed hu
        | @kill pid _ rem hf hp =>
          have hhit : m.KillHits m' i pid j := by
            unfold KillHits killTarget killDone
            rw [hf, hk, Kern.setContext_self]
            exact ⟨if_pos hp, rfl⟩
          refine .hit hhit (hh.pid.trans hp) ?_
          rw [hh.state]
          unfold Proc.onKill
          dsimp only
          split
          · rename_i hs
            exact iff_of_false nofun (by rw [hs]; nofun)
          · rfl
      · rw [hch.other j hji hjy] at hj
        exact .same (by rw [hj]) (by rw [hj]) (by rw [hj]) (by rw [hj])

end Machine

section
variable {C : Type} [DecidableEq C] [NeZero N] {σ : ℕ → Machine N C}

/-- in a run whose `kill`s hit no free slot, free slots are not killed, and a process that is killed
before it has run has been hit by a `kill` with its pid -/
theorem fresh_of_run (h : Machine.Run σ)
    (hs : ∀ t i pid j, (σ t).KillHits (σ (t + 1)) i pid j → ((σ t).k.proc j).state ≠ .unused)
    (t : ℕ) (j : Slot N) :
    (((σ t).k.proc j).state = .unused → ((σ t).k.proc j).killed = false) ∧
    (((σ t).k.proc j).Fresh → ((σ t).k.proc j).killed = true →
      ∃ t' i, t' < t ∧ (σ t').KillHits (σ (t' + 1)) i ((σ t).k.proc j).pid j) := by
  induction t with
  | zero =>
    obtain ⟨hk, -⟩ := h.init.booted
    have h0 : ((σ 0).k.proc j).killed = false := by
      by_cases hj : j = initproc
      · rw [hj]
        exact hk.init.killed
      · rw [hk.other j hj]
        rfl
    exact ⟨fun _ => h0, fun _ hk => by rw [h0] at hk; cases hk⟩
  | succ t ih =>
    rcases h.next t with e | ⟨c, x, e⟩
    · rw [e]
      exact ⟨ih.1, fun hf hk => (ih.2 hf hk).imp fun t' => Exists.imp fun i hi => ⟨by omega, hi.2⟩⟩
    · have hsane := Machine.Sane.of_run h t
      cases hsane.marks e j with
      | same h1 h2 h3 h4 =>
        rw [h1, h2, h4]
        refine ⟨ih.1, fun hf hk => ?_⟩
        obtain ⟨t', i, ht, hi⟩ := ih.2 ⟨fun hu => hf.1 (h4.mpr hu), h3 ▸ hf.2⟩ hk
        exact ⟨t', i, by omega, hi⟩
      | freed h1 h2 => exact ⟨fun _ => h1, fun hf => absurd h2 hf.1⟩
      | alloc h1 h2 =>
        rw [h1, ih.1 h2]
        exact ⟨fun _ => rfl, nofun⟩
      | own h1 =>
        refine ⟨fun hu => ?_, fun hf => absurd hf.2 (hsane.started e h1)⟩
        have hcpu := hsane.cpu c j h1
        exact absurd hcpu.cproc (hsane.unused_free e hcpu.state.1 hu c)
      | @hit i pid hhit hpid h4 =>
        have hu := hs t i pid j hhit
        refine ⟨fun hu' => absurd (h4.mp hu') hu, fun _ _ => ⟨t, i, by omega, ?_⟩⟩
        rw [hpid]
        exact hhit

end

/-- **The law of `kill`.**  A call by a CPU that holds no `p->lock` returns, and it keeps the law exactly
when the first slot with that pid is a process (or the call changes nothing that it should not).  In
every run whose `kill`s hit no free slot, a process that has not run yet is killed only if a `kill`
with its own pid hit it. -/
theorem kill_law (N : ℕ) [NeZero N] :
    (∀ (s : KState N) (pid : CInt), (∀ j, .proc j ∉ s.held) →
      ∃ r k', kill pid s = some (r, s.withK k') ∧ (s.k.KillLaw pid r k' ↔ s.k.KillMeets pid)) ∧
    (∀ (C : Type) [DecidableEq C] (σ : ℕ → Machine N C), Machine.Run σ →
      (∀ t i pid j, (σ t).KillHits (σ (t + 1)) i pid j → ((σ t).k.proc j).state ≠ .unused) →
      ∀ t j, ((σ t).k.proc j).Fresh → ((σ t).k.proc j).killed = true →
        ∃ t' i, t' < t ∧ (σ t').KillHits (σ (t' + 1)) i ((σ t).k.proc j).pid j) := by
  refine ⟨fun s pid hs => kill_run s hs pid, fun C _ σ h hs t j => ?_⟩
  exact (fresh_of_run h hs t j).2

/-- the first process calls `fork` and `kill(2)`, which hits its child -/
def killRun : List (Fin 2 × Choice) :=
  let go (n : Nat) : List (Fin 2 × Choice) := List.replicate n (1, .go)
  go 4 ++ [(1, .leave 0), (1, .syscall .fork)] ++ go 14 ++ [(1, .syscall (.kill 2))] ++ go 6

/-- the first process calls `kill(0)` and `fork` -/
def killZeroRun : List (Fin 2 × Choice) :=
  let go (n : Nat) : List (Fin 2 × Choice) := List.replicate n (1, .go)
  go 4 ++ [(1, .leave 0), (1, .syscall (.kill 0))] ++ go 9 ++ [(1, .syscall .fork)] ++ go 12

theorem Machine.schedule_rest {C : Type} [DecidableEq C] [NeZero N] (m : Machine N C)
    {acts : List (C × Choice)} {t : ℕ} (h : acts.length ≤ t) :
    m.schedule acts (t + 1) = m.schedule acts t := by
  show (acts[t]?.bind _).getD _ = _
  rw [List.getElem?_eq_none h]
  rfl

theorem Machine.not_killHits_self {C : Type} {m : Machine N C} {i j : Slot N} {pid : CInt} :
    ¬m.KillHits m i pid j := by
  rintro ⟨h1, h2⟩
  unfold Machine.killTarget at h1
  unfold Machine.killDone at h2
  split at h1
  · rename_i h
    rw [h] at h2
    cases h2
  · cases h1

/-- the child is killed before it has run, by a `kill` with its pid -/
theorem kill_law_sample : ∃ m, sampleBoot = some m ∧
    let σ := m.schedule killRun
    ((σ 26).k.proc 1).Fresh ∧ ((σ 26).k.proc 1).killed = true ∧
    ∃ t' i, t' < 26 ∧ (σ t').KillHits (σ (t' + 1)) i ((σ 26).k.proc 1).pid 1 := by
  have hrun : ∃ m, sampleBoot = some m ∧
      let σ := m.schedule killRun
      ((σ 26).k.proc 1).Fresh ∧ ((σ 26).k.proc 1).killed = true ∧
      ∀ t < 27, ∀ i, ((σ t).killTarget i).all
        (fun p => decide (((σ t).k.proc p.2).state ≠ .unused)) = true :=
    sample_any _ (by decide +kernel)
  obtain ⟨m, hm, h1, h2, h3⟩ := hrun
  refine ⟨m, hm, h1, h2, (kill_law 3).2 _ _ (Machine.schedule_run ⟨_, hm⟩ _) (fun t i pid j hh => ?_)
    26 1 h1 h2⟩
  by_cases ht : t < 27
  · have := h3 t ht i
    rw [hh.1] at this
    simpa using this
  · rw [Machine.schedule_rest m (show killRun.length ≤ t by simpa [killRun] using ht)] at hh
    exact absurd hh Machine.not_killHits_self

/-- after boot `kill(0)` returns 0 and marks a free slot; if the first process calls it and then
`fork`, its child starts killed, though no `kill` had its pid -/
theorem kill_zero_marks_free_slot : ∃ m, sampleBoot = some m ∧
    (∃ k', kill 0 ⟨m.k, ∅, 0, []⟩ = some (0, ⟨k', ∅, 0, []⟩) ∧ ¬m.k.KillLaw 0 0 k') ∧
    let σ := m.schedule killZeroRun
    ((σ 26).k.proc 1).Fresh ∧ ((σ 26).k.proc 1).killed = true ∧ ((σ 26).k.proc 1).pid = 2 ∧
    ∀ t < 26, ∀ i j, (σ t).killTarget i ≠ some (2, j) := by
  have hrun : ∃ m, sampleBoot = some m ∧ m.k.findPid 0 = some 1 ∧
      (m.k.proc 1).state = .unused ∧ (m.k.proc 1).killed = false ∧
      let σ := m.schedule killZeroRun
      ((σ 26).k.proc 1).Fresh ∧ ((σ 26).k.proc 1).killed = true ∧ ((σ 26).k.proc 1).pid = 2 ∧
      ∀ t < 26, ∀ i j, (σ t).killTarget i ≠ some (2, j) := sample_any _ (by decide +kernel)
  obtain ⟨m, hm, h1, h2, h3, h4⟩ := hrun
  refine ⟨m, hm, ?_, h4⟩
  obtain ⟨r, k', hk, hlaw⟩ := kill_run ⟨m.k, ∅, 0, []⟩ (fun _ => Finset.notMem_empty _) 0
  have hr : r = 0 := by
    unfold kill at hk
    rw [killScan_run 0 _ fun _ => Finset.notMem_empty _, show (slots 3).find? _ = some 1 from h1] at hk
    cases hk
    rfl
  subst hr
  refine ⟨k', hk, fun hl => ?_⟩
  rcases hlaw.mp hl 1 h1 with hu | hu
  · exact hu h2
  · have := hu.1
    rw [h3] at this
    cases this

end Xv6
