import Xv6.Machine.Wait

/-!
# Status and message of `exit`, from the child to `wait` of its parent

The string goes through `copyinstr` into the buffer of `sys_exit`, through `safestrcpy` into the slot of
the child, and through `strlen` and `copyout` into the memory of the parent.

* `Sane.other_step`, `Sane.own_step`   what a step leaves alone;
* `ExitCall`   a process is about to enter `exit`, with a status and a message;
* `exited`   a process in `exit` came from such a call, and what its slot holds;
* `reaped`   `wait` is about to return a pid: which zombie it has reaped;
* `exit_message`   **the parent gets the status and the message of that call.**
-/

set_option linter.unusedSectionVars false

namespace Xv6
variable {N : ℕ}

/-! ## what a step leaves alone -/

/-- what the steps of other threads leave of a process -/
structure Proc.Apart (q q' : Proc N) : Prop where
  exitMsg : q'.exitMsg = q.exitMsg
  same : q.state ≠ .unused → q'.state ≠ .unused →
    q'.pid = q.pid ∧ q'.xstate = q.xstate ∧ q'.context = q.context
  new : q.state = .unused → q'.state ≠ .unused → q'.context = [.forkret]

theorem Proc.Apart.refl (q : Proc N) : q.Apart q :=
  ⟨rfl, fun _ _ => ⟨rfl, rfl, rfl⟩, fun h h' => absurd h h'⟩

theorem Proc.Apart.of_same {q r q' : Proc N} (h : r.Same q') (h1 : r.exitMsg = q.exitMsg)
    (h2 : r.pid = q.pid) (h3 : r.xstate = q.xstate) (h4 : r.context = q.context)
    (hu : r.state = .unused ∨ q.state ≠ .unused ∨ r.state = q.state) : q.Apart q' := by
  refine ⟨h.exitMsg.trans h1, fun _ _ => ⟨h.pid.trans h2, h.xstate.trans h3, h.context.trans h4⟩, ?_⟩
  intro hq hq'
  rw [h.state] at hq'
  rcases hu with hu | hu | hu
  · exact absurd hu hq'
  · exact absurd hq hu
  · exact absurd (hu.trans hq) hq'

section
variable {k k' : Kern N} {self : Option (Slot N)} {x : Choice}

theorem intrInstr_frame {g : Frame N} {o : Out N (Option (Frame N))}
    (e : intrInstr self k x g = some o) (hg : g.Handler) (y : Slot N) :
    (o.k.proc y).parent = (k.proc y).parent ∧ (o.k.proc y).pagetable = (k.proc y).pagetable := by
  cases g with
  | intr timer ks =>
    obtain ⟨o', e', rfl⟩ := Option.map_eq_some_iff.mp e
    change (o'.k.proc y).parent = _ ∧ _
    cases ks with
    | run held =>
      cases x with
      | lock a | unlock a | leave a =>
        dsimp only [kernInstr] at e'
        split at e' <;> cases e'
        exact ⟨rfl, rfl⟩
      | sleep a lk =>
        dsimp only [kernInstr] at e'
        split at e'
        · rename_i hb
          cases hb.1
        · cases e'
      | work w =>
        cases self <;> cases e'
      | wake a =>
        cases e'
        exact ⟨rfl, rfl⟩
      | _ => cases e'
    | sleep => exact hg.elim
    | wake a held w =>
      cases e'
      exact wakeInstr_frame rfl y
  | intrYield s =>
    cases self with
    | none => cases e
    | some i =>
      cases e
      cases s with
      | acq =>
        show ((k.upd i fun q => { q with state := .runnable }).proc y).parent = _ ∧
          ((k.upd i fun q => { q with state := .runnable }).proc y).pagetable = _
        rw [Kern.upd_proc]
        split
        · rename_i hy
          rw [hy]
          exact ⟨rfl, rfl⟩
        · exact ⟨rfl, rfl⟩
      | swtch | rel => exact ⟨rfl, rfl⟩
  | _ => cases e

end

namespace Machine
variable {C : Type} [DecidableEq C] [NeZero N] {m m' : Machine N C} {c : C} {y : Slot N}

theorem Sane.other_step (h : m.Sane) {x : Choice} (e : m.step c x = some m')
    (hy : m.cur c ≠ some y) : (m.k.proc y).Apart (m'.k.proc y) := by
  cases step_acts e with
  | still _ _ hk =>
    rw [hk]
    exact .refl _
  | @stir j _ _ hj hk =>
    by_cases hyj : y = j
    · subst hyj
      cases hj with
      | run hs h' | wake hs h' =>
        rw [h']
        refine .of_same (.refl _) rfl rfl rfl rfl (.inr (.inl ?_))
        rw [hs]
        nofun
    · rw [hk y hyj]
      exact .refl _
  | @thread i op k' st' hc he hl hk =>
    have hyi : y ≠ i := fun hyi => hy (hyi ▸ hc)
    obtain ⟨⟨-, ⟨j, g, ht, hch⟩, -, -⟩, -⟩ := h.does hc he
    rw [hk, Kern.setContext_ne _ hyi]
    by_cases hyj : y = j
    · subst hyj
      have hh := hch.here
      cases ht with
      | keep | swtch | sleep | unsleep | yield | setkilled | exitMsg | zombie =>
        exact absurd rfl hyi
      | reparent | link | fill => exact .of_same hh rfl rfl rfl rfl (.inr (.inr rfl))
      | publish _ _ hk1 hk1' =>
        refine .of_same hh rfl rfl rfl rfl (.inr (.inl ?_))
        rw [h.used i y (by
          show y ∈ makingOf _
          rw [makingOf_hands hk1]
          exact List.mem_cons_self)]
        nofun
      | wake ch =>
        rcases (m.k.proc y).woken_cases ch with hw | ⟨hs, -, hw⟩
        · rw [hw] at hh
          exact .of_same hh rfl rfl rfl rfl (.inr (.inr rfl))
        · rw [hw] at hh
          refine .of_same hh rfl rfl rfl rfl (.inr (.inl ?_))
          rw [hs]
          nofun
      | kill _ =>
        refine .of_same hh rfl rfl rfl rfl ?_
        by_cases hs : (m.k.proc y).state = .sleeping
        · exact .inr (.inl (by rw [hs]; nofun))
        · exact .inr (.inr (if_neg hs))
      | allocFail | fillFail | clean | reap | free =>
        exact ⟨hh.exitMsg, fun _ hu => absurd hh.state hu, fun _ hu => absurd hh.state hu⟩
      | alloc hu => exact ⟨hh.exitMsg, fun hn => absurd hu hn, fun _ _ => hh.context⟩
    · rw [hch.other y hyi hyj]
      exact .refl _

theorem Sane.other_mem (h : m.Sane) {x : Choice} (e : m.step c x = some m')
    (hy : m.cur c ≠ some y) (hl : (m.k.proc y).state.Live) :
    (m'.k.proc y).pagetable = (m.k.proc y).pagetable := by
  cases step_acts e with
  | still _ _ hk => rw [hk]
  | @stir j _ _ hj hk =>
    by_cases hyj : y = j
    · subst hyj
      cases hj with
      | run hs h' | wake hs h' => rw [h']
    · rw [hk y hyj]
  | @thread i op k' st' hc he _ hk =>
    have hyi : y ≠ i := fun hyi => hy (hyi ▸ hc)
    rw [hk, Kern.setContext_ne _ hyi]
    rcases (h.does hc he).1.mem y hyi with hm | hm | hm | hm | hm
    · exact hm
    · exact absurd hm hl.ne.1
    · exact absurd hm hl.ne.2.2
    · exact absurd (h.used i y hm) hl.ne.2.1
    · exact absurd (h.reapable i y hm).1 hl.ne.2.2

/-- a step of the thread of `y` is one of its lowest frame; or that frame, which has no lock, waits for
an interrupt handler, and nobody's parent or memory changes -/
theorem Sane.step_main (h : m.Sane) {x : Choice} (e : m.step c x = some m')
    (hy : m.cur c = some y) :
    (∃ f f' op k', (m.k.proc y).context = [f] ∧ (m'.k.proc y).context = [f'] ∧
      instr y m.k x f = some ⟨op, k', f'⟩ ∧ m.locks.apply c op = some m'.locks ∧
      m'.k = k'.setContext y [f']) ∨
    (mainOf (m'.k.proc y).context = mainOf (m.k.proc y).context ∧
      (mainOf (m.k.proc y).context).need y = [] ∧
      ∀ z, (m'.k.proc z).parent = (m.k.proc z).parent ∧
        (m'.k.proc z).pagetable = (m.k.proc z).pagetable) := by
  cases step_acts e with
  | still hc => cases hy.symm.trans hc
  | stir hc => cases hy.symm.trans hc
  | @thread i op k' st' hc he hl hk =>
    obtain rfl := Option.some.inj (hy.symm.trans hc)
    have hlow := h.low y
    have hlow' := (h.does hc he).2
    have frame : (∀ z, (k'.proc z).parent = (m.k.proc z).parent ∧
        (k'.proc z).pagetable = (m.k.proc z).pagetable) →
        ∀ z, (m'.k.proc z).parent = (m.k.proc z).parent ∧
          (m'.k.proc z).pagetable = (m.k.proc z).pagetable := by
      intro hz z
      rw [hk, k'.setContext_proj Proc.parent (fun _ _ => rfl),
        k'.setContext_proj Proc.pagetable (fun _ _ => rfl)]
      exact hz z
    rw [show (m'.k.proc y).context = st' by rw [hk, Kern.setContext_self]]
    rcases threadInstr_cases he with ⟨f, f', hf, hf', hi⟩ | ⟨timer, f, hf, -, ho⟩ |
      ⟨g, f, o', hf, hi, ho⟩
    · cases hf'
      exact .inl ⟨f, f', op, k', hf, rfl, hi, hl, hk⟩
    · cases ho
      rw [hf]
      exact .inr ⟨rfl, hlow'.2, frame fun _ => ⟨rfl, rfl⟩⟩
    · rw [hf] at hlow ⊢
      cases ho
      have hmain : mainOf (o'.next.toList ++ [f]) = f := by cases o'.next <;> rfl
      exact .inr ⟨hmain, hlow.2, frame (intrInstr_frame hi hlow.1)⟩

/-- a step of the thread of `y`: `exit` copies the message and sets the status, every other step leaves
them and the pid -/
theorem Sane.own_step (h : m.Sane) {x : Choice} (e : m.step c x = some m')
    (hy : m.cur c = some y) : (m'.k.proc y).pid = (m.k.proc y).pid ∧
    ((m'.k.proc y).exitMsg = (m.k.proc y).exitMsg ∨ ∃ status msg,
      (m.k.proc y).context = [.exit status msg .acqW] ∧
      (m'.k.proc y).exitMsg = safestrcpy (m.k.proc y).exitMsg msg 32) ∧
    ((m'.k.proc y).xstate = (m.k.proc y).xstate ∨ ∃ status msg,
      (m.k.proc y).context = [.exit status msg .acqP]) := by
  cases step_acts e with
  | still hc => cases hy.symm.trans hc
  | stir hc => cases hy.symm.trans hc
  | @thread i op k' st' hc he _ hk =>
    obtain rfl := Option.some.inj (hy.symm.trans hc)
    obtain ⟨⟨-, ⟨j, g, ht, hch⟩, -, -⟩, -⟩ := h.does hc he
    have hcpu := h.cpu c y hc
    rw [hk, k'.setContext_proj Proc.pid (fun _ _ => rfl),
      k'.setContext_proj Proc.exitMsg (fun _ _ => rfl), k'.setContext_proj Proc.xstate (fun _ _ => rfl)]
    by_cases hyj : y = j
    · subst hyj
      have hh := hch.here
      have used : y ∈ makingOf (m.k.proc y).context → False := fun hm =>
        hcpu.state.2 (h.used y y hm)
      have zombie : modeOf y (m.k.proc y).context = .run → (m.k.proc y).state = .zombie → False :=
        fun hm hz => by
          have := hcpu.running hm
          rw [hz] at this
          cases this
      cases ht with
      | keep | swtch | sleep | unsleep | yield | setkilled | reparent | kill | link | fill
      | publish => exact ⟨hh.pid, .inl hh.exitMsg, .inl hh.xstate⟩
      | exitMsg hf => exact ⟨hh.pid, .inr ⟨_, _, hf, hh.exitMsg⟩, .inl hh.xstate⟩
      | zombie hf => exact ⟨hh.pid, .inl hh.exitMsg, .inr ⟨_, _, hf⟩⟩
      | wake _ hne => exact absurd rfl hne
      | allocFail hu | alloc hu => exact absurd hu hcpu.state.1
      | fillFail _ _ hk1 =>
        exact (used (by rw [makingOf_more hk1]; exact List.mem_append_right _ List.mem_cons_self)).elim
      | clean _ _ hk1 hk2 =>
        exact (used (by rw [makingOf_less hk1 hk2]; exact List.mem_cons_self)).elim
      | reap _ hz _ hm => exact (zombie hm hz).elim
      | free hr hm =>
        refine (zombie hm (h.reapable y y ?_).1).elim
        rw [hr]
        exact List.mem_cons_self
    · have hown := hch.own hyj
      exact ⟨hown.pid, .inl hown.exitMsg, .inl hown.xstate⟩

end Machine

/-! ## the call of `exit` -/

/-- the message `l` of a call of `exit` with the pointer `msg`: the string there if it is mapped and
has at most 31 bytes, else the empty string -/
def PageTable.MsgAt (pt : PageTable) (msg : Nat) (l : List Byte) : Prop :=
  (msg ≠ 0 ∧ pt.StrAt msg l ∧ l.length ≤ 31) ∨
  (l = [] ∧ (msg = 0 ∨ ¬∃ l', pt.StrAt msg l' ∧ l'.length ≤ 31))

theorem sysExitMsg_spec (b : Nat → Byte) (pt : PageTable) (msg : Nat) :
    ∃ l, pt.MsgAt msg l ∧ l.length ≤ 31 ∧ BufStr (sysExitMsg b pt msg) l := by
  unfold sysExitMsg
  by_cases h0 : msg = 0
  · rw [if_pos h0]
    exact ⟨[], .inr ⟨rfl, .inl h0⟩, Nat.zero_le _, .nil (Function.update_self _ _ _)⟩
  · rw [if_neg h0]
    obtain ⟨h1, h2⟩ := copyinstr_spec pt b msg 32
    by_cases hs : ∃ l, pt.StrAt msg l ∧ l.length < 32
    · obtain ⟨l, hl, hlen⟩ := hs
      obtain ⟨buf, hb, hbuf⟩ := h1 l hl hlen
      rw [hb]
      exact ⟨l, .inl ⟨h0, hl, by omega⟩, by omega, hbuf⟩
    · have hf : (copyinstr pt b msg 32).2 = false := by
        rw [← Bool.not_eq_true]
        exact fun h => hs (h2 h)
      generalize copyinstr pt b msg 32 = r at hf
      obtain ⟨buf, ok⟩ := r
      cases hf
      refine ⟨[], .inr ⟨rfl, .inr fun ⟨l, hl, hlen⟩ => hs ⟨l, hl, by omega⟩⟩, Nat.zero_le _, ?_⟩
      exact .nil (Function.update_self _ _ _)

/-- process `j` is about to enter `exit` with the status and the message: in `sys_exit`, or because
`usertrap` has found it killed -/
inductive ExitCall (k : Kern N) (j : Slot N) : CInt → List Byte → Prop
  | call {status msg pt l} (hf : (k.proc j).context = [.sysExit status msg])
    (hp : (k.proc j).pagetable = some pt) (hl : pt.MsgAt msg l) : ExitCall k j status l
  | killed (hf : (∃ sc, (k.proc j).context = [.trapSyscall sc (.rel true)]) ∨
      ∃ timer, (k.proc j).context = [.trapRet timer (.rel true)]) : ExitCall k j (-1) []

/-- the message has been copied into the slot -/
def ExitAt.copied : ExitAt N → Bool
  | .start => false
  | .close _ => false
  | .acqW => false
  | _ => true

section
variable [NeZero N] {i : Slot N} {k : Kern N} {x : Choice} {o : Out N (Frame N)} {status : CInt}
  {msg : Nat → Byte} {p : ExitAt N}

theorem exitInstr_stays (e : exitInstr i k x status msg p = some o) :
    ∃ p', o.next = .exit status msg p' ∧ (p ≠ .acqW → p'.copied = true → p.copied = true) := by
  cases p with
  | start =>
    dsimp only [exitInstr] at e
    split at e <;> cases e
    exact ⟨_, rfl, fun _ => id⟩
  | close ks =>
    dsimp only [exitInstr] at e
    split at e <;> cases e <;> exact ⟨_, rfl, fun _ => id⟩
  | acqW =>
    cases e
    exact ⟨_, rfl, fun h => absurd rfl h⟩
  | reparent rem =>
    cases rem with
    | nil =>
      cases e
      exact ⟨_, rfl, fun _ _ => rfl⟩
    | cons j rem =>
      dsimp only [exitInstr] at e
      split at e <;> cases e <;> exact ⟨_, rfl, fun _ _ => rfl⟩
  | wakeInit rem w =>
    cases e
    generalize wakeInstr (some i) (some (.proc initproc)) k w = o'
    obtain ⟨op, k', next⟩ := o'
    cases next <;> exact ⟨_, rfl, fun _ _ => rfl⟩
  | wakeParent pch w =>
    cases e
    generalize wakeInstr (some i) pch k w = o'
    obtain ⟨op, k', next⟩ := o'
    cases next <;> exact ⟨_, rfl, fun _ _ => rfl⟩
  | acqP | relW | swtch =>
    cases e
    exact ⟨_, rfl, fun _ _ => rfl⟩
  | dead => cases e

theorem instr_returns {f : Frame N} (e : instr i k x f = some o)
    (hf : f.kind = .fork ∨ f.kind = .forkn ∨ f.kind = .wait ∨ f.kind = .waitall ∨ f.kind = .kill) :
    o.next.kind = f.kind ∨ ∃ r, o.next = .sysRet r := by
  cases f with
  | fork p =>
    cases p with
    | alloc a =>
      obtain ⟨⟨op, k', a' | r⟩, -, rfl⟩ := Option.map_eq_some_iff.mp e
      · exact .inl rfl
      · cases r
        · exact .inr ⟨_, rfl⟩
        · exact .inl rfl
    | fill np =>
      dsimp only [instr, forkInstr] at e
      split at e <;> cases e <;> exact .inl rfl
    | relFail | relPub =>
      cases e
      exact .inr ⟨_, rfl⟩
    | rel | acqW | relW | acqPub =>
      cases e
      exact .inl rfl
  | forkn n pids p =>
    cases p with
    | check =>
      dsimp only [instr, forknInstr] at e
      split at e <;> cases e
      · exact .inr ⟨_, rfl⟩
      · exact .inl rfl
    | alloc a kids pl =>
      obtain ⟨⟨op, k', a' | r⟩, -, rfl⟩ := Option.map_eq_some_iff.mp e
      · exact .inl rfl
      · cases r <;> exact .inl rfl
    | fill np kids pl =>
      dsimp only [instr, forknInstr] at e
      split at e <;> cases e <;> exact .inl rfl
    | rel np kids pl =>
      dsimp only [instr, forknInstr] at e
      split at e <;> cases e <;> exact .inl rfl
    | clean rem =>
      cases rem with
      | nil =>
        cases e
        exact .inr ⟨_, rfl⟩
      | cons j rem =>
        obtain ⟨r, -, rfl⟩ := Option.map_eq_some_iff.mp e
        exact .inl rfl
    | link rem pl =>
      cases rem <;> cases e <;> exact .inl rfl
    | out pl =>
      dsimp only [instr, forknInstr] at e
      split at e
      · cases e
        exact .inr ⟨_, rfl⟩
      · obtain ⟨r, -, rfl⟩ := Option.map_eq_some_iff.mp e
        exact .inr ⟨_, rfl⟩
    | cleanRel | acqW | linkAcq | linkRel | relW =>
      cases e
      exact .inl rfl
  | wait addr msg p =>
    cases p with
    | scan rem havekids =>
      cases rem with
      | nil =>
        cases e
        exact .inl rfl
      | cons j rem =>
        dsimp only [instr, waitInstr] at e
        split at e
        · split at e
          · obtain ⟨r, -, rfl⟩ := Option.map_eq_some_iff.mp e
            exact .inl rfl
          · cases e
            exact .inl rfl
        · cases e
          exact .inl rfl
    | relW r =>
      cases e
      exact .inr ⟨_, rfl⟩
    | killed s =>
      cases e
      cases s <;> exact .inl rfl
    | sleeping s =>
      cases e
      cases s <;> exact .inl rfl
    | acqW | rel | relReap =>
      cases e
      exact .inl rfl
  | waitall nAddr statusesAddr p =>
    cases p with
    | scan rem l =>
      cases rem <;> cases e <;> exact .inl rfl
    | free rem l =>
      cases rem with
      | nil =>
        cases e
        exact .inl rfl
      | cons j rem =>
        obtain ⟨r, -, rfl⟩ := Option.map_eq_some_iff.mp e
        exact .inl rfl
    | outNone =>
      obtain ⟨r, -, rfl⟩ := Option.map_eq_some_iff.mp e
      exact .inr ⟨_, rfl⟩
    | outN | outS =>
      obtain ⟨r, -, rfl⟩ := Option.map_eq_some_iff.mp e
      exact .inl rfl
    | done | relWKilled =>
      cases e
      exact .inr ⟨_, rfl⟩
    | killed st s =>
      cases e
      cases s <;> exact .inl rfl
    | sleeping st s =>
      cases e
      cases s <;> exact .inl rfl
    | acqW | rel | relWNone | freeRel | relW =>
      cases e
      exact .inl rfl
  | kill pid p =>
    cases e
    rcases p with (_ | ⟨j, rem⟩) | _ | _
    · exact .inr ⟨_, rfl⟩
    · dsimp only [killInstr]
      split <;> exact .inl rfl
    · exact .inl rfl
    · exact .inr ⟨_, rfl⟩
  | _ =>
    rcases hf with hf | hf | hf | hf | hf <;> cases hf

theorem instr_calls_exit {f : Frame N} (e : instr i k x f = some o) (hf : f.kind ≠ .exit)
    (h : o.next = .exit status msg p) (hc : (k.proc i).context = [f]) :
    p = .start ∧ ∃ l, ExitCall k i status l ∧ l.length ≤ 31 ∧ BufStr msg l := by
  have hk : o.next.kind = .exit := by rw [h]; rfl
  have hp : p = .start := by
    rcases (instr_does e).kind with hd | hd
    · exact absurd (hd.symm.trans hk) hf
    · rwa [show mainOf (o.map fun f => [f]).next = .exit status msg p from h] at hd
  refine ⟨hp, ?_⟩
  have kern : ∀ {F : KernAt N → Frame N} {G : BitVec 64 → Frame N} {r : KernAt N ⊕ BitVec 64},
      Sum.elim F G r = .exit status msg p → (∀ a, F a ≠ .exit status msg p) →
      (∀ b, G b ≠ .exit status msg p) → False := by
    rintro F G (a | b) hr h1 h2
    · exact h1 a hr
    · exact h2 b hr
  cases f with
  | sysExit st a =>
    dsimp only [instr, trapInstr] at e
    split at e
    · rename_i b pt hpt
      cases e
      cases h
      obtain ⟨l, h1, h2, h3⟩ := sysExitMsg_spec b pt a
      exact ⟨l, .call hc hpt h1, h2, h3⟩
    · cases e
  | trapSyscall sc s =>
    cases e
    rcases s with _ | b
    · cases h
    · cases b
      · change sc.start = _ at h
        cases sc <;> cases h
      · cases h
        exact ⟨[], .killed (.inl ⟨sc, hc⟩), Nat.zero_le _, .nil rfl⟩
  | trapRet timer s =>
    cases e
    rcases s with _ | b
    · cases h
    · cases b
      · change (if timer then Frame.trapYield .acq else .user) = _ at h
        cases timer <;> cases h
      · cases h
        exact ⟨[], .killed (.inr ⟨timer, hc⟩), Nat.zero_le _, .nil rfl⟩
  | user =>
    cases x with
    | store | syscall | fault | irq =>
      cases e
      cases h
    | _ => cases e
  | trapFault s =>
    cases e
    cases s <;> cases h
  | trapDev timer ks =>
    obtain ⟨o', -, rfl⟩ := Option.map_eq_some_iff.mp e
    exact (kern h nofun nofun).elim
  | trapYield s =>
    cases e
    cases s <;> cases h
  | sysRet r =>
    cases e
    cases h
  | kern sys ks =>
    obtain ⟨o', -, rfl⟩ := Option.map_eq_some_iff.mp e
    refine (kern h nofun fun r => ?_).elim
    cases sys <;> nofun
  | forkret =>
    cases e
    cases h
  | exit => exact absurd rfl hf
  | fork | forkn | wait | waitall | kill =>
    rcases instr_returns e (by simp [Frame.kind]) with hd | ⟨r, hd⟩
    · cases hd.symm.trans hk
    · cases hd.symm.trans h
  | _ => cases e

end

/-! ## runs -/

section
variable {C : Type} [DecidableEq C] [NeZero N] {σ : ℕ → Machine N C}

/-- at time `t` process `j` is in `exit`, which it has entered by a call with that status and message -/
def ExitedBy (σ : ℕ → Machine N C) (t : ℕ) (j : Slot N) (status : CInt) (l : List Byte) : Prop :=
  ∃ t0 < t, ExitCall (σ t0).k j status l ∧ ((σ t0).k.proc j).pid = ((σ t).k.proc j).pid ∧
    ∀ t', t0 < t' → t' ≤ t → ∃ msg p, mainOf ((σ t').k.proc j).context = .exit status msg p

theorem ExitedBy.succ {t : ℕ} {j : Slot N} {status : CInt} {l : List Byte}
    {msg : Nat → Byte} {p : ExitAt N} (h : ExitedBy σ t j status l)
    (hp : ((σ (t + 1)).k.proc j).pid = ((σ t).k.proc j).pid)
    (hf : mainOf ((σ (t + 1)).k.proc j).context = .exit status msg p) :
    ExitedBy σ (t + 1) j status l := by
  obtain ⟨t0, ht, hc, hpid, hall⟩ := h
  refine ⟨t0, by omega, hc, hpid.trans hp.symm, fun t' h1 h2 => ?_⟩
  by_cases e : t' = t + 1
  · rw [e]
    exact ⟨msg, p, hf⟩
  · exact hall t' h1 (by omega)

theorem exited (h : Machine.Run σ) (t : ℕ) (j : Slot N) {status : CInt} {msg : Nat → Byte}
    {p : ExitAt N} (hu : ((σ t).k.proc j).state ≠ .unused)
    (hm : mainOf ((σ t).k.proc j).context = .exit status msg p) :
    ∃ l, ExitedBy σ t j status l ∧ l.length ≤ 31 ∧ BufStr msg l ∧
      (p.copied = true → BufStr ((σ t).k.proc j).exitMsg l) := by
  induction t generalizing p with
  | zero =>
    obtain ⟨hk, -⟩ := h.init.booted
    by_cases hj : j = initproc
    · rw [hj, hk.init.context] at hm
      cases hm
    · rw [hk.other j hj] at hu
      exact absurd rfl hu
  | succ t ih =>
    have hsane := Machine.Sane.of_run h t
    rcases h.next t with e | ⟨c, x, e⟩
    · rw [e] at hu hm
      obtain ⟨l, h1, h2, h3, h4⟩ := ih hu hm
      exact ⟨l, h1.succ (by rw [e]) (by rw [e]; exact hm), h2, h3, by rw [e]; exact h4⟩
    · by_cases hc : (σ t).cur c = some j
      · obtain ⟨hpid, hmsg, -⟩ := hsane.own_step e hc
        have hut := (hsane.cpu c j hc).state.1
        rcases hsane.step_main e hc with ⟨f, f', op, k', hf, hf', hi, -, hk⟩ | ⟨hmain, -⟩
        · rw [hf'] at hm
          cases hm
          by_cases hkind : f.kind = .exit
          · cases f with
            | exit status' msg' p' =>
              obtain ⟨p1, hnext, hcp⟩ := exitInstr_stays hi
              cases hnext
              obtain ⟨l, h1, h2, h3, h4⟩ := ih hut (by rw [hf]; rfl)
              refine ⟨l, h1.succ hpid (by rw [hf']; rfl), h2, h3, fun hp => ?_⟩
              by_cases hp' : p' = .acqW
              · subst hp'
                cases hi
                rw [hk, Kern.setContext_proj Proc.exitMsg (fun _ _ => rfl), Kern.upd_same]
                exact safestrcpy_str h3 _ (n := 32) (by omega)
              · rcases hmsg with hx | ⟨_, _, hx, -⟩
                · rw [hx]
                  exact h4 (hcp hp' hp)
                · rw [hf] at hx
                  cases hx
                  exact absurd rfl hp'
            | _ => cases hkind
          · obtain ⟨rfl, l, h1, h2, h3⟩ := instr_calls_exit hi hkind rfl hf
            refine ⟨l, ⟨t, by omega, h1, hpid.symm, fun t' _ _ => ?_⟩, h2, h3, nofun⟩
            obtain rfl : t' = t + 1 := by omega
            exact ⟨msg, .start, by rw [hf']; rfl⟩
        · rw [hmain] at hm
          obtain ⟨l, h1, h2, h3, h4⟩ := ih hut hm
          refine ⟨l, h1.succ hpid (by rw [hmain]; exact hm), h2, h3, fun hp => ?_⟩
          rcases hmsg with hx | ⟨_, _, hx, -⟩
          · rw [hx]
            exact h4 hp
          · rw [hx] at hm
            cases hm
            cases hp
      · have hap := hsane.other_step e hc
        by_cases hut : ((σ t).k.proc j).state = .unused
        · rw [hap.new hut hu] at hm
          cases hm
        · obtain ⟨hpid, -, hctx⟩ := hap.same hut hu
          rw [hctx] at hm
          obtain ⟨l, h1, h2, h3, h4⟩ := ih hut hm
          refine ⟨l, h1.succ hpid (by rw [hctx]; exact hm), h2, h3, ?_⟩
          rw [hap.exitMsg]
          exact h4

end

/-! ## `wait` -/

/-- a copy to the user unless the pointer is null -/
def PageTable.store (pt : PageTable) (va : Nat) (src : List Byte) : PageTable :=
  if va = 0 then pt else (copyout pt va src).1

/-- the memory of the caller of `wait` after it has reaped a child with the record `q` -/
def PageTable.reap (pt : PageTable) (addr msg : Nat) (q : Proc N) : PageTable :=
  (pt.store msg (bytes q.exitMsg (strlen q.exitMsg 32 + 1))).store addr (le32 q.xstate)

theorem tryCopyout_mem {p : Slot N} {va : Nat} {src : List Byte} {s s' : KState N}
    (e : tryCopyout p va src s = some ((), s')) :
    (s'.k.proc p).pagetable = (s.k.proc p).pagetable.map fun pt => pt.store va src := by
  unfold tryCopyout at e
  unfold PageTable.store
  by_cases hv : va = 0
  · rw [if_pos hv] at e
    cases e
    simp [hv]
  · rw [if_neg hv] at e
    obtain ⟨ok, s1, e1, e2⟩ := Act.bind_some.mp e
    cases e2
    obtain ⟨pt, hpt, -, rfl⟩ := copyoutTo_spec e1
    rw [KState.withK_k, Kern.upd_same, hpt]
    simp [hv]

theorem storeStatus_mem {p : Slot N} {addr : Nat} {x : CInt} {s s' : KState N} {ok : Bool}
    (e : storeStatus p addr x s = some (ok, s')) :
    (s'.k.proc p).pagetable = (s.k.proc p).pagetable.map fun pt => pt.store addr (le32 x) := by
  unfold storeStatus at e
  unfold PageTable.store
  by_cases hv : addr = 0
  · rw [if_pos hv] at e
    cases e
    simp [hv]
  · rw [if_neg hv] at e
    obtain ⟨pt, hpt, -, rfl⟩ := copyoutTo_spec e
    rw [KState.withK_k, Kern.upd_same, hpt]
    simp [hv]

theorem exec_waitReap_mem {p j : Slot N} {addr msg : Nat} {r : CInt} {k k' : Kern N}
    (e : exec (waitReap p j addr msg) k = some (some r, k')) (hj : p ≠ j) :
    r = (k.proc j).pid ∧
    (k'.proc p).pagetable = (k.proc p).pagetable.map fun pt => pt.reap addr msg (k.proc j) := by
  obtain ⟨s', e', rfl⟩ := exec_some e
  obtain ⟨_, _, e1, e'⟩ := Act.bind_some.mp e'
  cases e1
  obtain ⟨_, s1, e1, e'⟩ := Act.bind_some.mp e'
  obtain ⟨ok, s2, e2, e'⟩ := Act.bind_some.mp e'
  have h1 := tryCopyout_mem e1
  have h2 := storeStatus_mem e2
  cases ok with
  | false => cases e'
  | true =>
    obtain ⟨_, s3, e3, e'⟩ := Act.bind_some.mp e'
    cases e'
    refine ⟨rfl, ?_⟩
    rw [(freeproc_spec e3).proc_eq, Function.update_of_ne hj, h2, h1, Option.map_map]
    rfl

/-- two stores to mapped memory: the second one holds, and the first one if they are apart -/
theorem PageTable.store_store (pt : PageTable) (va1 va2 : Nat) (bs1 bs2 : List Byte) :
    (va2 ≠ 0 → pt.Mapped va2 bs2.length → (va1 ≠ 0 → pt.Mapped va1 bs1.length) →
      ((pt.store va1 bs1).store va2 bs2).Holds va2 bs2) ∧
    (va1 ≠ 0 → pt.Mapped va1 bs1.length → (va2 ≠ 0 → pt.Mapped va2 bs2.length ∧
        (va2 + bs2.length ≤ va1 ∨ va1 + bs1.length ≤ va2)) →
      ((pt.store va1 bs1).store va2 bs2).Holds va1 bs1) := by
  have h1 : ∀ hv : va1 ≠ 0, pt.Mapped va1 bs1.length → (pt.store va1 bs1).Holds va1 bs1 ∧
      ∀ a, (pt.load a).isSome → ((pt.store va1 bs1).load a).isSome := by
    intro hv hmap
    obtain ⟨pt1, e1, hh1, hm1, -⟩ := copyout_holds bs1 hmap
    unfold PageTable.store
    rw [if_neg hv, e1]
    exact ⟨hh1, hm1⟩
  refine ⟨fun hv2 hm2 hm1 => ?_, fun hv1 hm1 h2 => ?_⟩
  · have hm2' : (pt.store va1 bs1).Mapped va2 bs2.length := by
      by_cases hv1 : va1 = 0
      · unfold PageTable.store
        rwa [if_pos hv1]
      · exact hm2.of_load (h1 hv1 (hm1 hv1)).2
    obtain ⟨pt2, e2, hh2, -, -⟩ := copyout_holds bs2 hm2'
    show ((if va2 = 0 then _ else _ : PageTable)).Holds va2 _
    rw [if_neg hv2, e2]
    exact hh2
  · obtain ⟨hh1, hmap⟩ := h1 hv1 hm1
    show ((if va2 = 0 then _ else _ : PageTable)).Holds va1 _
    by_cases hv2 : va2 = 0
    · rw [if_pos hv2]
      exact hh1
    · rw [if_neg hv2]
      obtain ⟨hm2, hdis⟩ := h2 hv2
      obtain ⟨pt2, e2, -, -, ho2⟩ := copyout_holds bs2 (hm2.of_load hmap)
      rw [e2]
      refine hh1.of_eq fun i hi => ho2 _ ?_
      omega

theorem PageTable.reap_spec (pt : PageTable) {addr msg : Nat} {q : Proc N} {l : List Byte}
    (hl : l.length ≤ 31) (hq : BufStr q.exitMsg l) :
    (addr ≠ 0 → pt.Mapped addr 4 → (msg ≠ 0 → pt.Mapped msg (l.length + 1)) →
      (pt.reap addr msg q).load32 addr = some q.xstate) ∧
    (msg ≠ 0 → pt.Mapped msg (l.length + 1) → (addr ≠ 0 → pt.Mapped addr 4 ∧
        (addr + 4 ≤ msg ∨ msg + (l.length + 1) ≤ addr)) →
      (pt.reap addr msg q).Holds msg (l ++ [0])) := by
  have hb : bytes q.exitMsg (strlen q.exitMsg 32 + 1) = l ++ [0] := by
    rw [strlen_str hq (by omega)]
    exact hq.1
  have hlen : (l ++ [(0 : Byte)]).length = l.length + 1 := by simp
  obtain ⟨h1, h2⟩ := pt.store_store msg addr (l ++ [0]) (le32 q.xstate)
  unfold PageTable.reap
  rw [hb]
  rw [hlen] at h1 h2
  exact ⟨fun ha hma hmm => (h1 ha hma hmm).load32, h2⟩

/-- the result that `wait` is about to return, after a child has been reaped -/
def WaitAt.result : WaitAt N → Option CInt
  | .relReap _ r => r
  | .relW r => r
  | _ => none

/-- from `m` to `m'`, `wait(addr, msg)` of `i` reaps its zombie `j`, whose pid is `r` -/
structure Machine.Reaps {C : Type} (m m' : Machine N C) (i j : Slot N) (addr msg : Nat) (r : CInt) :
    Prop where
  scan : ∃ rem havekids, (m.k.proc i).context = [.wait addr msg (.scan (j :: rem) havekids)]
  parent : (m.k.proc j).parent = some i
  zombie : (m.k.proc j).state = .zombie
  pid : (m.k.proc j).pid = r
  freed : (m'.k.proc j).state = .unused
  mem : (m'.k.proc i).pagetable = (m.k.proc i).pagetable.map fun pt => pt.reap addr msg (m.k.proc j)

section
variable {C : Type} [DecidableEq C] [NeZero N] {σ : ℕ → Machine N C}

theorem waitInstr_result {m m' : Machine N C} {i : Slot N} {op : Op (Lock N)} {k' : Kern N}
    {addr msg addr' msg' : Nat} {p p' : WaitAt N} {r : CInt}
    (hf : (m.k.proc i).context = [.wait addr' msg' p])
    (e : waitInstr i m.k addr' msg' p = some ⟨op, k', .wait addr msg p'⟩) (hr : p'.result = some r)
    (hk : m'.k = k'.setContext i [.wait addr msg p']) (hi : (m.k.proc i).state ≠ .zombie) :
    (∃ j, m.Reaps m' i j addr msg r) ∨
    (addr' = addr ∧ msg' = msg ∧ p.result = some r ∧ k' = m.k) := by
  cases p with
  | scan rem havekids =>
    cases rem with
    | nil =>
      cases e
      cases havekids <;> cases hr
    | cons j rem =>
      dsimp only [waitInstr] at e
      split at e
      · rename_i hp
        split at e
        · rename_i hz
          obtain ⟨⟨r', k1⟩, he, e⟩ := Option.map_eq_some_iff.mp e
          cases e
          cases hr
          have hij : i ≠ j := by
            rintro rfl
            exact hi hz
          obtain ⟨h1, h2⟩ := exec_waitReap_mem he hij
          obtain ⟨pt, ⟨hnone, -⟩ | ⟨-, hproc⟩⟩ := exec_waitReap he
          · cases hnone
          · refine .inl ⟨j, ⟨rem, havekids, hf⟩, hp, hz, h1.symm, ?_, ?_⟩
            · rw [hk, Kern.setContext_state]
              show (k1.proc j).state = _
              rw [hproc, Function.update_self]
              rfl
            · rw [hk, Kern.setContext_proj Proc.pagetable (fun _ _ => rfl)]
              exact h2
        · cases e
          cases hr
      · cases e
        cases hr
  | relReap j r' =>
    cases e
    exact .inr ⟨rfl, rfl, hr, rfl⟩
  | killed s =>
    cases s with
    | acq =>
      cases e
      cases hr
    | rel b =>
      cases b <;> cases e <;> cases hr
  | sleeping s => cases s <;> cases e <;> cases hr
  | acqW | rel =>
    cases e
    cases hr
  | relW r' => cases e

/-- a process that holds a lock in its lowest frame is not interrupted -/
theorem Machine.Sane.alone {m : Machine N C} (h : m.Sane) {i : Slot N} {f : Frame N}
    (hm : mainOf (m.k.proc i).context = f) (hn : f.need i ≠ []) :
    (m.k.proc i).context = [f] := by
  have hlow := h.low i
  match hst : (m.k.proc i).context with
  | [] =>
    rw [hst] at hm
    rw [← hm] at hn
    exact absurd rfl hn
  | [g] =>
    rw [hst] at hm
    rw [show g = f from hm]
  | [g, g'] =>
    rw [hst] at hm hlow
    rw [show g' = f from hm] at hlow
    exact absurd hlow.2 hn
  | _ :: _ :: _ :: _ =>
    rw [hst] at hlow
    exact hlow.elim

/-- with `wait_lock`, a process that is about to return from `wait` runs without interrupts -/
theorem Machine.Sane.wait_result {m : Machine N C} (h : m.Sane) {i : Slot N} {addr msg : Nat}
    {p : WaitAt N} {r : CInt} (hm : mainOf (m.k.proc i).context = .wait addr msg p)
    (hr : p.result = some r) :
    (Frame.wait addr msg p).need i ≠ [] ∧ (m.k.proc i).context = [.wait addr msg p] ∧
    (m.k.proc i).state = .running := by
  have hn : .wait ∈ (Frame.wait addr msg p).need i ∧ (Frame.wait addr msg p).mode i = .run := by
    cases p with
    | relReap => exact ⟨List.mem_cons_of_mem _ List.mem_cons_self, rfl⟩
    | relW => exact ⟨List.mem_cons_self, rfl⟩
    | acqW | scan | rel | killed | sleeping => cases hr
  obtain ⟨d, hd, -⟩ := h.holds (l := .wait) (by rw [hm]; exact hn.1) nofun
  have hctx := h.alone hm (List.ne_nil_of_mem hn.1)
  refine ⟨List.ne_nil_of_mem hn.1, hctx, (h.cpu d i hd).running ?_⟩
  rw [hctx]
  exact hn.2

theorem reaped (h : Machine.Run σ) (t : ℕ) (i : Slot N) {addr msg : Nat} {p : WaitAt N} {r : CInt}
    (hm : mainOf ((σ t).k.proc i).context = .wait addr msg p) (hr : p.result = some r) :
    ∃ t' < t, ∃ j, (σ t').Reaps (σ (t' + 1)) i j addr msg r ∧
      ((σ t).k.proc i).pagetable = ((σ (t' + 1)).k.proc i).pagetable := by
  induction t generalizing p with
  | zero =>
    obtain ⟨hk, -⟩ := h.init.booted
    by_cases hi : i = initproc
    · rw [hi, hk.init.context] at hm
      cases hm
    · rw [hk.other i hi] at hm
      cases hm
  | succ t ih =>
    have hsane := Machine.Sane.of_run h t
    have back : ∀ {p' : WaitAt N}, mainOf ((σ t).k.proc i).context = .wait addr msg p' →
        p'.result = some r →
        ((σ (t + 1)).k.proc i).pagetable = ((σ t).k.proc i).pagetable →
        ∃ t' < t + 1, ∃ j, (σ t').Reaps (σ (t' + 1)) i j addr msg r ∧
          ((σ (t + 1)).k.proc i).pagetable = ((σ (t' + 1)).k.proc i).pagetable := by
      intro p' h1 h2 h3
      obtain ⟨t', ht, j, hj, hpt⟩ := ih h1 h2
      exact ⟨t', by omega, j, hj, h3.trans hpt⟩
    rcases h.next t with e | ⟨c, x, e⟩
    · rw [e] at hm
      exact back hm hr (by rw [e])
    · by_cases hc : (σ t).cur c = some i
      · rcases hsane.step_main e hc with ⟨f, f', op, k', hf, hf', hi, -, hk⟩ | ⟨hmain, hfree, -⟩
        · rw [hf'] at hm
          cases hm
          by_cases hkind : f.kind = .wait
          · obtain ⟨addr', msg', p0, rfl⟩ := Frame.of_kind_wait hkind
            have hz : ((σ t).k.proc i).state ≠ .zombie :=
              (hsane.cpu c i hc).not_zombie hf nofun
            rcases waitInstr_result hf hi hr hk hz with ⟨j, hj⟩ | ⟨rfl, rfl, hp0, hk0⟩
            · exact ⟨t, by omega, j, hj, rfl⟩
            · refine back (by rw [hf]; rfl) hp0 ?_
              rw [hk, Kern.setContext_proj Proc.pagetable (fun _ _ => rfl), hk0]
          · exfalso
            rcases (instr_does hi).kind with hd | hd
            · exact hkind hd.symm
            · have hp : p = .acqW := hd
              rw [hp] at hr
              cases hr
        · rw [hmain] at hm
          rw [hm] at hfree
          exact absurd hfree (hsane.wait_result hm hr).1
      · have hap := hsane.other_step e hc
        have hrun := ((Machine.Sane.of_run h (t + 1)).wait_result hm hr).2.2
        by_cases hut : ((σ t).k.proc i).state = .unused
        · rw [hap.new hut (by rw [hrun]; nofun)] at hm
          cases hm
        · obtain ⟨-, -, hctx⟩ := hap.same hut (by rw [hrun]; nofun)
          rw [hctx] at hm
          have hlive := (hsane.wait_result hm hr).2.2
          exact back hm hr (hsane.other_mem e hc (.inr (.inr hlive)))

theorem Machine.Sane.zombie_frame {m : Machine N C} (h : m.Sane) {j : Slot N}
    (hz : (m.k.proc j).state = .zombie) :
    ∃ msg p, mainOf (m.k.proc j).context = .exit (m.k.proc j).xstate msg p ∧ p.copied = true := by
  by_cases hcur : ∃ d, m.cur d = some j
  · obtain ⟨d, hd⟩ := hcur
    have hmode := (h.cpu d j hd).mode
    cases hM : modeOf j (m.k.proc j).context with
    | run | ready =>
      rw [hM] at hmode
      cases hz.symm.trans hmode
    | asleep ch =>
      rw [hM] at hmode
      cases hz.symm.trans hmode.1
    | dead status =>
      rw [hM] at hmode
      rw [hmode.2]
      match hst : (m.k.proc j).context with
      | [] =>
        rw [hst] at hM
        cases hM
      | [f] =>
        rw [hst] at hM
        have hf : f.mode j = .dead status := hM
        cases f with
        | exit st msg p =>
          cases p with
          | relW | swtch =>
            cases hf
            exact ⟨msg, _, rfl, rfl⟩
          | close ks =>
            exfalso
            cases Frame.mode_dead (i := j) (f := .kern true ks) hf
          | _ => cases hf
        | _ => cases Frame.mode_dead hf
      | g :: f :: rest =>
        have hlow := h.low j
        rw [hst] at hM hlow
        match rest with
        | [] =>
          have hg : g.mode j = .dead status := hM
          rcases (hlow.1.facts j).1 with h1 | h1 <;> cases h1.symm.trans hg
        | _ :: _ => exact hlow.elim
  · have hpark := h.parked j fun d hd => hcur ⟨d, hd⟩
    unfold Parked at hpark
    rw [hz] at hpark
    obtain ⟨msg, hctx⟩ := hpark
    rw [hctx]
    exact ⟨msg, .dead, rfl, rfl⟩

/-- `wait(addr, msg)` of `i` returns `r` in the step from `m` to `m'` -/
def Machine.waitReturns (m m' : Machine N C) (i : Slot N) : Option (Nat × Nat × CInt) :=
  match (m.k.proc i).context, (m'.k.proc i).context with
  | [.wait addr msg (.relW (some r))], [.sysRet _] => some (addr, msg, r)
  | _, _ => none

/-- **The round trip of status and message.**  In every run, when `wait(addr, msg)` of `i` returns `r`,
it has reaped a child `j` with that pid, which had entered `exit` by a call with a status and a message
(that of the user's pointer, or -1 and the empty one if it had been killed); if the buffers are mapped
and apart, `*addr` is that status and the bytes at `msg` are that message and a NUL. -/
theorem exit_message (h : Machine.Run σ) (t : ℕ) (i : Slot N) {addr msg : Nat} {r : CInt}
    (hr : (σ t).waitReturns (σ (t + 1)) i = some (addr, msg, r)) :
    ∃ t' < t, ∃ j status l, ((σ t').k.proc j).parent = some i ∧ ((σ t').k.proc j).pid = r ∧
      ((σ (t' + 1)).k.proc j).state = .unused ∧ ExitedBy σ t' j status l ∧
      ∀ pt, ((σ t').k.proc i).pagetable = some pt →
        ∃ pt', ((σ (t + 1)).k.proc i).pagetable = some pt' ∧
        (addr ≠ 0 → pt.Mapped addr 4 → (msg ≠ 0 → pt.Mapped msg (l.length + 1)) →
          pt'.load32 addr = some status) ∧
        (msg ≠ 0 → pt.Mapped msg (l.length + 1) → (addr ≠ 0 → pt.Mapped addr 4 ∧
          (addr + 4 ≤ msg ∨ msg + (l.length + 1) ≤ addr)) → pt'.Holds msg (l ++ [0])) := by
  have hsane := Machine.Sane.of_run h t
  -- the frames before and after the return
  obtain ⟨hf, v, hf'⟩ : ((σ t).k.proc i).context = [.wait addr msg (.relW (some r))] ∧
      ∃ v, ((σ (t + 1)).k.proc i).context = [.sysRet v] := by
    unfold Machine.waitReturns at hr
    split at hr
    · rename_i h1 h2
      cases hr
      exact ⟨h1, _, h2⟩
    · cases hr
  have hm : mainOf ((σ t).k.proc i).context = .wait addr msg (.relW (some r)) := by rw [hf]; rfl
  obtain ⟨t', ht, j, hj, hpt⟩ := reaped h t i hm rfl
  have hstay : ((σ (t + 1)).k.proc i).pagetable = ((σ t).k.proc i).pagetable := by
    rcases h.next t with e | ⟨c, x, e⟩
    · rw [e]
    · by_cases hc : (σ t).cur c = some i
      · obtain ⟨op, k', f', hi, -, hk⟩ := hsane.frame_step e hc hf (List.cons_ne_nil _ _)
        cases hi
        rw [hk, Kern.setContext_proj Proc.pagetable (fun _ _ => rfl)]
      · exact hsane.other_mem e hc (.inr (.inr (hsane.wait_result hm rfl).2.2))
  obtain ⟨msg', p, hmain, hcp⟩ := (Machine.Sane.of_run h t').zombie_frame hj.zombie
  obtain ⟨l, hex, hlen, -, hbuf⟩ := exited h t' j (by rw [hj.zombie]; nofun) hmain
  refine ⟨t', ht, j, _, l, hj.parent, hj.pid, hj.freed, hex, fun pt hpt0 => ?_⟩
  refine ⟨pt.reap addr msg ((σ t').k.proc j), ?_, pt.reap_spec hlen (hbuf hcp)⟩
  rw [hstay, hpt, hj.mem, hpt0]
  rfl

end

theorem exit_message_sample : ∃ m, sampleBoot = some m ∧
    let σ := m.schedule sampleRun
    (∃ t' < 74, ∃ j status l, ((σ t').k.proc j).parent = some 0 ∧ ((σ t').k.proc j).pid = 2 ∧
      ExitedBy σ t' j status l) ∧
    ((σ (74 + 1)).k.proc 0).pagetable.bind (PageTable.load32 · 64) = some 7 ∧
    ((σ (74 + 1)).k.proc 0).pagetable.map (fun pt => [128, 129, 130].map pt.load)
      = some [some 104, some 105, some 0] := by
  have hrun : ∃ m, sampleBoot = some m ∧
      let σ := m.schedule sampleRun
      (σ 74).waitReturns (σ (74 + 1)) 0 = some (64, 128, 2) ∧
      ((σ (74 + 1)).k.proc 0).pagetable.bind (PageTable.load32 · 64) = some 7 ∧
      ((σ (74 + 1)).k.proc 0).pagetable.map (fun pt => [128, 129, 130].map pt.load)
        = some [some 104, some 105, some 0] := sample_any _ (by decide +kernel)
  obtain ⟨m, hm, hr, h4⟩ := hrun
  obtain ⟨t', ht, j, status, l, h1, h2, -, h3, -⟩ :=
    exit_message (Machine.schedule_run ⟨_, hm⟩ _) 74 0 hr
  exact ⟨m, hm, ⟨t', ht, j, status, l, h1, h2, h3⟩, h4⟩

end Xv6
