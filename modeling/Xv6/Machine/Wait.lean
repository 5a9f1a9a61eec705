import Xv6.Machine.Sleep
import Xv6.Machine.Tree

/-!
# `exit` against `wait` and `waitall`

`wait_lock` guards the parent pointers and who is a zombie.  A process that is bound to sleep in `wait`
or `waitall` has looked at its children under that lock; a child that becomes a zombie, or an `exit`
that gives zombies to init, has under the same lock woken the process.

* `Frame.Watch`   what `wait` and `waitall` know about the children of their process;
* `Frame.Calls`   whom `exit` has woken;
* `Watched.step`   every step keeps both;
* `no_exit_missed`   **a process that sleeps in `wait` or `waitall` has something to wait for.**
-/

set_option linter.unusedSectionVars false

namespace Xv6
variable {N : ℕ}

/-! ## what is known at a place -/

/-- `q` has a child -/
def Kern.HasChild (k : Kern N) (q : Slot N) : Prop := ∃ x, (k.proc x).parent = some q

/-- `q` has a child that is no zombie -/
def Kern.HasLive (k : Kern N) (q : Slot N) : Prop :=
  ∃ x, (k.proc x).parent = some q ∧ (k.proc x).state ≠ .zombie

/-- the zombies among the children of `q` are in `S` -/
def Kern.DeadIn (k : Kern N) (q : Slot N) (S : Slot N → Prop) : Prop :=
  ∀ x, (k.proc x).parent = some q → (k.proc x).state = .zombie → S x

/-- the children of `q` and the zombies among them stay -/
structure Kern.Calm (k k' : Kern N) (q : Slot N) : Prop where
  child : ∀ x, (k'.proc x).parent = some q ↔ (k.proc x).parent = some q
  dead : ∀ x, (k.proc x).parent = some q →
    ((k'.proc x).state = .zombie ↔ (k.proc x).state = .zombie)

section
variable {k k' : Kern N} {q : Slot N}

theorem Kern.Calm.hasChild (h : k.Calm k' q) (hc : k.HasChild q) : k'.HasChild q :=
  hc.imp fun x hx => (h.child x).mpr hx

theorem Kern.Calm.hasLive (h : k.Calm k' q) (hc : k.HasLive q) : k'.HasLive q := by
  obtain ⟨x, hx, hz⟩ := hc
  exact ⟨x, (h.child x).mpr hx, fun hz' => hz ((h.dead x hx).mp hz')⟩

theorem Kern.Calm.deadIn {S : Slot N → Prop} (h : k.Calm k' q) (hc : k.DeadIn q S) :
    k'.DeadIn q S := by
  intro x hx hz
  have hx' := (h.child x).mp hx
  exact hc x hx' ((h.dead x hx').mp hz)

theorem Kern.Calm.upd {i : Slot N} {f : Proc N → Proc N}
    (hp : (f (k.proc i)).parent = (k.proc i).parent)
    (hz : (f (k.proc i)).state = .zombie ↔ (k.proc i).state = .zombie) (q : Slot N) :
    k.Calm (k.upd i f) q := by
  refine ⟨fun y => ?_, fun y _ => ?_⟩ <;> rw [Kern.upd_proc] <;> split
  · rename_i hy
    rw [hp, hy]
  · rfl
  · rename_i hy
    rw [hz, hy]
  · rfl

/-- what `wait` and `waitall` of `q` know; `late` allows zombies that init has yet to be woken for -/
def Frame.Watch (k : Kern N) (q : Slot N) (late : Prop) : Frame N → Prop
  | .wait _ _ (.scan rem havekids) => k.DeadIn q (· ∈ rem) ∧ (havekids = true → k.HasChild q)
  | .wait _ _ (.rel _ rem) => k.DeadIn q (· ∈ rem) ∧ k.HasChild q
  | .wait _ _ (.killed _) => k.DeadIn q (fun _ => False) ∧ k.HasChild q
  | .wait _ _ (.sleeping s) =>
    s.Bound (k.proc q).state → k.DeadIn q (fun _ => late) ∧ k.HasChild q
  | .waitall _ _ (.scan _ l) => l.allDone = false → k.HasLive q
  | .waitall _ _ (.rel _ _ l) => l.allDone = false → k.HasLive q
  | .waitall _ _ (.killed _ _) => k.HasLive q
  | .waitall _ _ (.sleeping _ s) => s.Bound (k.proc q).state → k.HasLive q
  | _ => True

/-- `q` is bound to sleep in `wait` or `waitall` -/
abbrev Kern.Waits (k : Kern N) (q : Slot N) : Prop := k.Bound q (.proc q) .wait

variable [NeZero N]

/-- whom `exit` of `x` has woken -/
def Frame.Calls (k : Kern N) (x : Slot N) : Frame N → Prop
  | .exit _ _ (.wakeInit _ w) => initproc ∉ w.rem → ¬k.Waits initproc
  | .exit _ _ (.wakeParent pch w) => pch = (k.proc x).parent.map .proc ∧
      ∀ q, (k.proc x).parent = some q → q ∉ w.rem → ¬k.Waits q
  | .exit _ _ .acqP => ∀ q, (k.proc x).parent = some q → ¬k.Waits q
  | _ => True

/-- an `exit` has given children to init and has yet to wake it -/
def Kern.Late (k : Kern N) (q : Slot N) : Prop :=
  q = initproc ∧ ∃ y status msg rem w,
    (k.proc y).context = [.exit status msg (.wakeInit rem w)] ∧ initproc ∈ w.rem

structure Kern.Watched (k : Kern N) : Prop where
  watch : ∀ q, (mainOf (k.proc q).context).Watch k q (k.Late q)
  calls : ∀ x, (mainOf (k.proc x).context).Calls k x

theorem Frame.watch_of_kind {late : Prop} {f : Frame N} (h : f.kind ≠ .wait) (h' : f.kind ≠ .waitall) :
    f.Watch k q late := by
  cases f with
  | wait => exact absurd rfl h
  | waitall => exact absurd rfl h'
  | _ => trivial

theorem Frame.of_kind_wait {f : Frame N} (h : f.kind = .wait) :
    ∃ addr msg place, f = .wait addr msg place := by
  cases f <;> first | exact ⟨_, _, _, rfl⟩ | cases h

theorem Frame.Entry.watch {late : Prop} {f : Frame N} (h : f.Entry) : f.Watch k q late := by
  cases f with
  | wait _ _ p =>
    cases (show p = .acqW from h)
    trivial
  | waitall _ _ p =>
    cases (show p = .acqW from h)
    trivial
  | _ => trivial

theorem Frame.calls_of_kind {f : Frame N} (h : f.kind ≠ .exit) : f.Calls k q := by
  cases f with
  | exit => exact absurd rfl h
  | _ => trivial

theorem Frame.Entry.calls {f : Frame N} (h : f.Entry) : f.Calls k q := by
  cases f with
  | exit _ _ p =>
    cases (show p = .start from h)
    trivial
  | _ => trivial

end

/-! ## what `wait_lock` guards -/

namespace Machine
variable {C : Type} [DecidableEq C] [NeZero N] {m m' : Machine N C} {c d : C} {q : Slot N}

/-- while another CPU has `wait_lock`, parents and zombies stay -/
theorem Sane.guarded (h : m.Sane) (ht : m.k.Tree) {x : Choice} (e : m.step c x = some m')
    (ho : m.locks.owner .wait = some d) (hd : d ≠ c) (y : Slot N) :
    (m'.k.proc y).parent = (m.k.proc y).parent ∧
    ((m'.k.proc y).state = .zombie ↔ (m.k.proc y).state = .zombie) := by
  cases step_acts e with
  | still _ _ hk => exact ⟨by rw [hk], by rw [hk]⟩
  | @stir j _ _ hj hk =>
    by_cases hyj : y = j
    · subst hyj
      cases hj with
      | run hs h' | wake hs h' =>
        rw [h', hs]
        exact ⟨rfl, ⟨nofun, nofun⟩⟩
    · rw [hk y hyj]
      exact ⟨rfl, Iff.rfl⟩
  | @thread i op k' st' hc he hl hk =>
    obtain ⟨⟨-, ⟨j, g, htouch, hch⟩, -, -⟩, -⟩ := h.does hc he
    have hr := h.reshape hc htouch hch
    have hno : ∀ {P : Prop}, .wait ∈ needs i (m.k.proc i).context → P := by
      intro P hn
      have := (h.cpu c i hc).owns _ hn
      rw [ho] at this
      exact absurd (Option.some.inj this) hd
    rw [hk, Kern.setContext_state, k'.setContext_proj Proc.parent (fun _ _ => rfl)]
    cases hr with
    | quiet hp hs =>
      refine ⟨hp y, ?_⟩
      rcases hs y with e | e
      · rw [e]
      · exact ⟨fun h => absurd h e.2.ne.2.2, fun h => absurd h e.1.ne.2.2⟩
    | alloc j hp hs hj hj' =>
      refine ⟨hp y, ?_⟩
      by_cases hyj : y = j
      · rw [hyj, hj, hj']
        exact ⟨nofun, nofun⟩
      · rw [hs y hyj]
    | free j hp hs hp' hj hj' hk hm hfree =>
      by_cases hyj : y = j
      · rw [hyj, hp', hj']
        rcases hfree with hu | hu | hu
        · rw [ht.unused j hu, hu]
          exact ⟨rfl, Iff.rfl⟩
        · rw [ht.loose i j hu, h.used i j (List.mem_append_right _ hu)]
          exact ⟨rfl, ⟨nofun, nofun⟩⟩
        · exact hno hu.2
      · rw [hp y hyj, hs y hyj]
        exact ⟨rfl, Iff.rfl⟩
    | link j hp hs hp' hk hk' hi hj hw =>
      rcases hw with hw | hw
      · have hw' : op = .acq .wait := hw
        rw [hw'] at hl
        have := (Spin.apply_acq hl).1
        rw [ho] at this
        cases this
      · exact hno hw
    | adopt j hp hs hj hp' hk hw => exact hno hw
    | publish j hp hs hj' hk hk' =>
      refine ⟨hp y, ?_⟩
      by_cases hyj : y = j
      · have hu := h.used i j (by
          show j ∈ makingOf _
          rw [makingOf_hands hk]
          exact List.mem_cons_self)
        rw [hyj, hj', hu]
        exact ⟨nofun, nofun⟩
      · rw [hs y hyj]
    | dies status msg hst => exact hno (by rw [hst]; exact List.mem_cons_self)

theorem Sane.stays (h : m.Sane) {x : Choice} (e : m.step c x = some m') (hq : m.cur d = some q)
    (hd : d ≠ c) : (m.k.proc q).Keeps (m'.k.proc q) := by
  have hcp := (h.cpu d q hq).cproc
  obtain ⟨h1, h2, h3⟩ := h.of_cproc hcp
  cases step_acts e with
  | still _ _ hk =>
    rw [hk]
    exact ⟨rfl, rfl, rfl, rfl⟩
  | @stir j _ hl hj hk =>
    have hqj : q ≠ j := by
      rintro rfl
      have hf := (Spin.apply_acq hl).1
      rcases h1 with h1 | h1
      · cases hj with
        | run hs | wake hs =>
          rw [h1] at hs
          cases hs
      · rw [hf] at h1
        cases h1
    rw [hk q hqj]
    exact ⟨rfl, rfl, rfl, rfl⟩
  | @thread i op k' st' hc he hl hk =>
    have hqi : q ≠ i := by
      rintro rfl
      exact hd (h.uniq d c q hcp (h.cpu c q hc).cproc)
    rw [hk]
    refine (h.shift_all hc he hl hqi).keeps (h1.imp id fun ho hf => ?_) h2 h3
    rw [hf] at ho
    cases ho

theorem Sane.calm (h : m.Sane) (ht : m.k.Tree) {x : Choice} (e : m.step c x = some m')
    (ho : m.locks.owner .wait = some d) (hd : d ≠ c) (q : Slot N) : m.k.Calm m'.k q :=
  ⟨fun y => by rw [(h.guarded ht e ho hd y).1], fun y _ => (h.guarded ht e ho hd y).2⟩

/-- `wakeup` of `i` on CPU `c`, which has `lk`, sees a process: it does not sleep on -/
theorem Sane.visit_unbound (h : m.Sane) {x : Choice} (e : m.step c x = some m') {i : Slot N}
    (hc : m.cur c = some i) (hq : q ≠ i) {ch : Chan N} {lk : Lock N}
    (hlk : m.locks.owner lk = some c) (hf : m.locks.owner (.proc q) = none)
    (hst : (m'.k.proc q).state = ((m.k.proc q).woken (some ch)).state) :
    ¬m'.k.Bound q ch lk := by
  intro hb
  have hoff : m.cur c ≠ some q := fun hc' => hq (Option.some.inj (hc'.symm.trans hc))
  obtain ⟨s, hs, hbs⟩ := (h.bound_back e hb).resolve_right fun hn => hoff hn.1
  rcases h.visit hs hbs hf with rfl | ⟨rfl, h1, h2⟩
  · obtain ⟨d, hd, ho⟩ := h.sleep_holds hs nofun nofun
    have hdc := ho lk List.mem_cons_self
    rw [hlk] at hdc
    exact hoff (Option.some.inj hdc ▸ hd)
  · rcases h.sleep_step e hs with ⟨hs', -⟩ | ⟨_, _, _, hcur, -⟩
    · obtain ⟨s', hs1, hb'⟩ := hb
      cases hs1.symm.trans hs'
      have hw : (m'.k.proc q).state = .runnable := by
        rw [hst]
        unfold Proc.woken
        rw [if_pos ⟨h1, h2⟩]
      cases hw.symm.trans hb'
    · exact hoff hcur

end Machine

/-! ## the routines themselves -/

section
variable {op : Op (Lock N)} {k' : Kern N} {self : Option (Slot N)} {w : WakeAt N}

theorem wakeInstr_ends {k : Kern N} {ch : Option (Chan N)} {u : Unit}
    (e : wakeInstr self ch k w = ⟨op, k', .inr u⟩) : w = .acq [] := by
  rcases w with (_ | ⟨j, rem⟩) | ⟨j, rem⟩
  · rfl
  · dsimp only [wakeInstr] at e
    split at e <;> cases e
  · cases e

theorem wakeInstr_frame {k : Kern N} {ch : Option (Chan N)} {next : WakeAt N ⊕ Unit}
    (e : wakeInstr self ch k w = ⟨op, k', next⟩) (y : Slot N) :
    (k'.proc y).parent = (k.proc y).parent ∧ (k'.proc y).pagetable = (k.proc y).pagetable := by
  rcases w with (_ | ⟨j, rem⟩) | ⟨j, rem⟩
  · cases e
    exact ⟨rfl, rfl⟩
  · dsimp only [wakeInstr] at e
    split at e <;> cases e
    · exact ⟨rfl, rfl⟩
    · rw [Kern.upd_proc]
      split
      · rename_i hy
        rw [hy]
        rcases (k.proc j).woken_cases ch with hw | ⟨-, -, hw⟩ <;> rw [hw] <;> exact ⟨rfl, rfl⟩
      · exact ⟨rfl, rfl⟩
  · cases e
    exact ⟨rfl, rfl⟩

end

section
variable [NeZero N] {k : Kern N} {i : Slot N} {x : Choice} {o : Out N (Frame N)} {late : Prop}

theorem sleepInstr_calm (ch : Chan N) (lk : Lock N) (s : SleepAt)
    (hz : (k.proc i).state ≠ .zombie) (q : Slot N) : k.Calm (sleepInstr i ch lk k s).k q := by
  cases s with
  | set =>
    show k.Calm (k.upd i fun q => { q with chan := some ch, state := .sleeping }) q
    exact .upd rfl ⟨ProcState.noConfusion, fun h => absurd h hz⟩ q
  | relP =>
    show k.Calm (k.upd i fun q => { q with chan := none }) q
    exact .upd rfl Iff.rfl q
  | acq | relLk | swtch | reacq => exact ⟨fun _ => Iff.rfl, fun _ _ => Iff.rfl⟩

theorem waitInstr_watch {addr msg : Nat} {p : WaitAt N} (e : waitInstr i k addr msg p = some o)
    (hz : (k.proc i).state ≠ .zombie) (h : (Frame.wait addr msg p).Watch k i late) :
    o.next.Watch o.k i late := by
  cases p with
  | acqW =>
    cases e
    exact ⟨fun y _ _ => List.mem_finRange y, by simp⟩
  | scan rem havekids =>
    cases rem with
    | nil =>
      cases e
      cases havekids
      · trivial
      · exact ⟨fun y hy hd => List.not_mem_nil (h.1 y hy hd), h.2 rfl⟩
    | cons j rem =>
      dsimp only [waitInstr] at e
      split at e
      · rename_i hj
        split at e
        · obtain ⟨r, -, rfl⟩ := Option.map_eq_some_iff.mp e
          trivial
        · rename_i hjz
          cases e
          refine ⟨fun y hy hd => (List.mem_cons.mp (h.1 y hy hd)).resolve_left ?_, j, hj⟩
          rintro rfl
          exact hjz hd
      · rename_i hj
        cases e
        refine ⟨fun y hy hd => (List.mem_cons.mp (h.1 y hy hd)).resolve_left ?_, h.2⟩
        rintro rfl
        exact hj hy
  | rel j rem =>
    cases e
    exact ⟨h.1, fun _ => h.2⟩
  | relReap | relW =>
    cases e
    trivial
  | killed s =>
    cases e
    rcases s with _ | b
    · exact h
    · cases b
      · exact fun _ => ⟨fun y hy hd => (h.1 y hy hd).elim, h.2⟩
      · trivial
  | sleeping s =>
    cases e
    have hcalm := sleepInstr_calm (.proc i) .wait s hz i
    cases s with
    | acq | relLk | set | swtch =>
      intro _
      have h' := h trivial
      exact ⟨hcalm.deadIn h'.1, hcalm.hasChild h'.2⟩
    | relP =>
      intro hf
      cases hf
    | reacq => exact ⟨fun y _ _ => List.mem_finRange y, by simp⟩

theorem waitallInstr_watch {nAddr statusesAddr : Nat} {p : WaitallAt N}
    (e : waitallInstr i k nAddr statusesAddr p = some o) (hz : (k.proc i).state ≠ .zombie)
    (h : (Frame.waitall nAddr statusesAddr p).Watch k i late) : o.next.Watch o.k i late := by
  cases p with
  | acqW =>
    cases e
    exact nofun
  | scan rem l =>
    cases rem with
    | nil =>
      cases e
      show (Frame.waitall nAddr statusesAddr (if !l.foundChild then .relWNone
        else if l.allDone then .free l.toFree l else .killed l.statuses .acq)).Watch k i late
      split
      · trivial
      · split
        · trivial
        · rename_i ha
          exact h (Bool.eq_false_iff.mpr ha)
    | cons j rem =>
      cases e
      show (l.visit i j (k.proc j)).allDone = false → k.HasLive i
      intro hv
      by_cases hj : (k.proc j).parent = some i ∧ (k.proc j).state ≠ .zombie
      · exact ⟨j, hj⟩
      · refine h ?_
        unfold Pass.visit at hv
        split at hv
        · rename_i hp
          split at hv
          · rename_i hne
            exact absurd ⟨hp, hne⟩ hj
          · exact hv
        · exact hv
  | rel j rem l =>
    cases e
    exact h
  | free rem l =>
    cases rem with
    | nil =>
      cases e
      trivial
    | cons j rem =>
      obtain ⟨r, -, rfl⟩ := Option.map_eq_some_iff.mp e
      trivial
  | outNone | outN | outS =>
    obtain ⟨r, -, rfl⟩ := Option.map_eq_some_iff.mp e
    trivial
  | relWNone | freeRel | relW | done | relWKilled =>
    cases e
    trivial
  | killed st s =>
    cases e
    rcases s with _ | b
    · exact h
    · cases b
      · exact fun _ => h
      · trivial
  | sleeping st s =>
    cases e
    have hcalm := sleepInstr_calm (.proc i) .wait s hz i
    cases s with
    | acq | relLk | set | swtch => exact fun _ => hcalm.hasLive (h trivial)
    | relP => exact nofun
    | reacq => exact nofun

theorem instr_watch {f : Frame N} (e : instr i k x f = some o)
    (hz : f.kind ≠ .exit → (k.proc i).state ≠ .zombie) (h : f.Watch k i late) :
    o.next.Watch o.k i late := by
  have other : f.kind ≠ .wait → f.kind ≠ .waitall → o.next.Watch o.k i late := by
    intro h1 h2
    rcases (instr_does e).kind with hk | hk
    · exact Frame.watch_of_kind (fun h => h1 (hk.symm.trans h)) fun h => h2 (hk.symm.trans h)
    · exact hk.watch
  cases f with
  | wait addr msg p => exact waitInstr_watch e (hz nofun) h
  | waitall nAddr statusesAddr p => exact waitallInstr_watch e (hz nofun) h
  | _ => exact other nofun nofun

/-- places that hold `wait_lock`, those in `sleep`, and the others -/
theorem Frame.watch_cases (q : Slot N) (f : Frame N) :
    .wait ∈ f.need q ∨ (∃ s, f.sleeping q = some (.proc q, .wait, s)) ∨
    ∀ (k : Kern N) late, f.Watch k q late := by
  cases f with
  | wait addr msg p =>
    cases p with
    | acqW | relW => exact .inr (.inr fun _ _ => trivial)
    | scan | rel | relReap => exact .inl (by simp [Frame.need, waitNeed])
    | killed s => exact .inl (List.mem_append_right _ List.mem_cons_self)
    | sleeping s => exact .inr (.inl ⟨s, rfl⟩)
  | waitall nAddr statusesAddr p =>
    cases p with
    | scan | rel => exact .inl (by simp [Frame.need, waitallNeed])
    | killed _ s => exact .inl (List.mem_append_right _ List.mem_cons_self)
    | sleeping _ s => exact .inr (.inl ⟨s, rfl⟩)
    | _ =>
      exact .inr (.inr fun _ _ => trivial)
  | _ => exact .inr (.inr fun _ _ => trivial)

theorem Frame.Watch.mono {k' : Kern N} {q : Slot N} {late' : Prop} {f : Frame N}
    (h : f.Watch k q late) (hc : k.Calm k' q)
    (hs : (k'.proc q).state = .sleeping → (k.proc q).state = .sleeping) (hl : late → late') :
    f.Watch k' q late' := by
  have hb : ∀ s : SleepAt, s.Bound (k'.proc q).state → s.Bound (k.proc q).state := by
    intro s
    cases s with
    | relP => exact hs
    | acq | relLk | set | swtch | reacq => exact id
  cases f with
  | wait addr msg p =>
    cases p with
    | acqW | relReap | relW => trivial
    | scan rem havekids => exact ⟨hc.deadIn h.1, fun e => hc.hasChild (h.2 e)⟩
    | rel j rem => exact ⟨hc.deadIn h.1, hc.hasChild h.2⟩
    | killed s => exact ⟨hc.deadIn h.1, hc.hasChild h.2⟩
    | sleeping s =>
      intro hbs
      obtain ⟨h1, h2⟩ := h (hb s hbs)
      exact ⟨hc.deadIn fun x hx hz => hl (h1 x hx hz), hc.hasChild h2⟩
  | waitall nAddr statusesAddr p =>
    cases p with
    | scan | rel => exact fun e => hc.hasLive (h e)
    | killed => exact hc.hasLive h
    | sleeping st s => exact fun hbs => hc.hasLive (h (hb s hbs))
    | _ =>
      trivial
  | _ => trivial

theorem Frame.watch_of_need {q : Slot N} {f : Frame N} (h : f.need q = []) :
    f.Watch k q late := by
  cases f with
  | wait addr msg p =>
    cases p with
    | sleeping s =>
      cases s with
      | acq | relLk | set | swtch | relP => cases h
      | reacq => exact fun hb => hb.elim
    | scan | rel | relReap | relW => cases h
    | killed s => cases s <;> cases h
    | acqW => trivial
  | waitall nAddr statusesAddr p =>
    cases p with
    | sleeping st s =>
      cases s with
      | acq | relLk | set | swtch | relP => cases h
      | reacq => exact fun hb => hb.elim
    | scan | rel => cases h
    | killed st s => cases s <;> cases h
    | _ =>
      trivial
  | _ => trivial

theorem Frame.mode_dead {f : Frame N} {status : CInt} (h : f.mode i = .dead status) :
    f.kind = .exit := by
  have hs : ∀ (ch : Chan N) s, sleepMode ch s ≠ .dead status := by
    rintro ch (_ | _ | _ | _ | _ | _) <;> nofun
  have hk : ∀ ks : KernAt N, kernMode ks ≠ .dead status := by
    rintro (_ | ⟨a, lk, s⟩ | _)
    · nofun
    · exact hs _ s
    · nofun
  cases f with
  | exit => rfl
  | trapDev _ ks | kern _ ks | intr _ ks => exact absurd h (hk ks)
  | trapYield s | intrYield s => cases s <;> cases h
  | wait _ _ p =>
    cases p with
    | sleeping s => exact absurd h (hs _ s)
    | _ => cases h
  | waitall _ _ p =>
    cases p with
    | sleeping _ s => exact absurd h (hs _ s)
    | _ => cases h
  | _ => cases h

/-- where `exit` has something to remember it holds `wait_lock` -/
theorem Frame.calls_cases (x : Slot N) (f : Frame N) :
    .wait ∈ f.need x ∨ ∀ k : Kern N, f.Calls k x := by
  cases f with
  | exit status msg p =>
    cases p with
    | wakeInit | wakeParent => exact .inl (List.mem_append_right _ List.mem_cons_self)
    | acqP => exact .inl List.mem_cons_self
    | _ => exact .inr fun _ => trivial
  | _ => exact .inr fun _ => trivial

theorem Frame.Calls.mono {k' : Kern N} {y : Slot N} {f : Frame N} (h : f.Calls k y)
    (hp : (k'.proc y).parent = (k.proc y).parent) (hw : ∀ q, k'.Waits q → k.Waits q) :
    f.Calls k' y := by
  cases f with
  | exit status msg p =>
    cases p with
    | wakeInit rem w => exact fun hn hb => h hn (hw _ hb)
    | wakeParent pch w =>
      refine ⟨h.1.trans (by rw [hp]), fun q hq hn hb => ?_⟩
      rw [hp] at hq
      exact h.2 q hq hn (hw q hb)
    | acqP =>
      intro q hq hb
      rw [hp] at hq
      exact h q hq (hw q hb)
    | _ => trivial
  | _ => trivial

end

/-! ## the machine -/

namespace Machine
variable {C : Type} [DecidableEq C] [NeZero N] {m m' : Machine N C} {c d : C} {q : Slot N}

/-- a place that needs a lock other than its own is on a CPU that has it -/
theorem Sane.holds (h : m.Sane) {l : Lock N} (hn : l ∈ (mainOf (m.k.proc q).context).need q)
    (hlk : l ≠ .proc q) : ∃ d, m.cur d = some q ∧ m.locks.owner l = some d := by
  have hm : ∀ {st : List (Frame N)}, Low q st → l ∈ (mainOf st).need q → l ∈ needs q st := by
    intro st hl hn
    match st with
    | [] => cases hn
    | [f] => exact hn
    | [g, f] => exact List.mem_append_right _ hn
    | _ :: _ :: _ :: _ => exact hl.elim
  have hneeds := hm (h.low q) hn
  by_cases hcur : ∃ d, m.cur d = some q
  · obtain ⟨d, hd⟩ := hcur
    exact ⟨d, hd, (h.cpu d q hd).owns _ hneeds⟩
  · have off : ∀ {P}, pointOf q (m.k.proc q).context = some P → False := by
      intro P hP
      have := (pointOf_facts (h.low q) hP).1 hneeds
      exact hlk (List.mem_singleton.mp this)
    have hpark := h.parked q (fun d hd => hcur ⟨d, hd⟩)
    unfold Parked at hpark
    split at hpark
    · rcases hpark with e | e | ⟨_, _, e⟩
      · rw [e] at hneeds
        cases hneeds
      · exact (off (P := .start) (by rw [e]; rfl)).elim
      · exact (off (P := .dead _) (by rw [e]; rfl)).elim
    · exact (off (P := .start) (by rw [hpark]; rfl)).elim
    · obtain ⟨ch, e, -⟩ := hpark
      exact (off e).elim
    · obtain ⟨P, e, -⟩ := hpark
      exact (off e).elim
    · obtain ⟨P, e, -⟩ := hpark
      exact (off e).elim
    · obtain ⟨msg, e⟩ := hpark
      exact (off (P := .dead _) (by rw [e]; rfl)).elim

theorem Sane.late_holds (h : m.Sane) (hl : m.k.Late q) : q = initproc ∧ ∃ d y status msg rem w,
    (m.k.proc y).context = [.exit status msg (.wakeInit rem w)] ∧ initproc ∈ w.rem ∧
    m.cur d = some y ∧ m.locks.owner .wait = some d := by
  obtain ⟨hq, y, status, msg, rem, w, hy, hw⟩ := hl
  obtain ⟨d, hd, ho⟩ := h.holds (q := y) (l := .wait)
    (by rw [hy]; exact List.mem_append_right _ List.mem_cons_self) nofun
  exact ⟨hq, d, y, status, msg, rem, w, hy, hw, hd, ho⟩

theorem Sane.frame_step (h : m.Sane) {x : Choice} (e : m.step c x = some m') {y : Slot N}
    {f : Frame N} (hc : m.cur c = some y) (hf : (m.k.proc y).context = [f]) (hn : f.need y ≠ []) :
    ∃ op k' f', instr y m.k x f = some ⟨op, k', f'⟩ ∧ m.locks.apply c op = some m'.locks ∧
      m'.k = k'.setContext y [f'] := by
  cases step_acts e with
  | still hc' => cases hc.symm.trans hc'
  | stir hc' => cases hc.symm.trans hc'
  | @thread i op k' st' hc' he hl hk =>
    obtain rfl := Option.some.inj (hc.symm.trans hc')
    rw [hf] at he
    rcases threadInstr_cases he with ⟨f1, f', hst, hst', h1⟩ | ⟨_, f1, hst, hd, -⟩ |
      ⟨_, _, _, hst, -⟩
    · cases hst
      cases hst'
      exact ⟨op, k', f', h1, hl, hk⟩
    · cases hst
      have ho := (h.cpu c y hc).owns
      rw [hf] at ho
      exact absurd (h.counted.none hd ho) hn
    · cases hst

section
variable {op : Op (Lock N)} {k' : Kern N} {self : Option (Slot N)} {w w' : WakeAt N}

/-- `wakeup` of `y`, which has `lk`: whom it has passed does not sleep -/
theorem Sane.wake_unbound (h : m.Sane) {x : Choice} (e : m.step c x = some m') {y : Slot N}
    (hc : m.cur c = some y) {ch : Chan N} {lk : Lock N} (hlk : m.locks.owner lk = some c)
    (hw : wakeInstr (some y) (some ch) m.k w = ⟨op, k', .inl w'⟩)
    (hl : m.locks.apply c op = some m'.locks)
    (hst : (m'.k.proc q).state = (k'.proc q).state) (hq : q ≠ y) (hn : q ∉ w'.rem)
    (hpast : q ∉ w.rem → ¬m.k.Bound q ch lk) : ¬m'.k.Bound q ch lk := by
  rcases wakeInstr_visits hw hn with h1 | h1 | ⟨rfl, rfl⟩
  · intro hb
    rcases h.bound_back e hb with hb | ⟨hc', -⟩
    · exact hpast h1 hb
    · exact hq (Option.some.inj (hc'.symm.trans hc))
  · exact absurd (Option.some.inj h1).symm hq
  · refine h.visit_unbound e hc hq hlk (Spin.apply_acq hl).1 ?_
    rw [hst, Kern.upd_same]

end

/-- an `exit` that has yet to wake init still has to, or has done so -/
theorem Sane.late_step (h : m.Sane) (ht : m.k.Tree) {x : Choice} (e : m.step c x = some m')
    (hl : m.k.Late q) : m'.k.Late q ∨ ¬m'.k.Waits q := by
  obtain ⟨rfl, d, y, status, msg, rem, w, hy, hw, hd, ho⟩ := h.late_holds hl
  by_cases hdc : d = c
  · subst hdc
    obtain ⟨op, k', f', hi, hlk, hk⟩ := h.frame_step e hd hy (by simp [Frame.need, exitNeed])
    have hy0 : y ≠ initproc := by
      have := ht.leaving y
      rw [hy] at this
      exact this.1
    have hst : (m'.k.proc initproc).state = (k'.proc initproc).state := by
      rw [hk, Kern.setContext_state]
    have hctx : (m'.k.proc y).context = [f'] := by
      rw [hk, Kern.setContext_self]
    change some ((wakeInstr (some y) (some (.proc initproc)) m.k w).map _) = _ at hi
    generalize hwk : wakeInstr (some y) (some (.proc initproc)) m.k w = o at hi
    obtain ⟨op1, k1, next⟩ := o
    cases next with
    | inl w' =>
      cases hi
      by_cases hin : initproc ∈ w'.rem
      · exact .inl ⟨rfl, y, status, msg, rem, w', hctx, hin⟩
      · exact .inr (h.wake_unbound e hd ho hwk hlk hst hy0.symm hin fun hn => absurd hw hn)
    | inr u =>
      rw [wakeInstr_ends hwk] at hw
      cases hw
  · exact .inl ⟨rfl, y, status, msg, rem, w, (h.stays e hd hdc).context.trans hy, hw⟩

theorem Sane.calls_own (h : m.Sane) (ht : m.k.Tree) {x : Choice} (e : m.step c x = some m')
    {i : Slot N} {f f' : Frame N} {op : Op (Lock N)} {k' : Kern N} (hc : m.cur c = some i)
    (hf : (m.k.proc i).context = [f]) (hi : instr i m.k x f = some ⟨op, k', f'⟩)
    (hl : m.locks.apply c op = some m'.locks) (hk : m'.k = k'.setContext i [f'])
    (hcalls : f.Calls m.k i) : f'.Calls m'.k i := by
  have hleave := ht.leaving i
  rw [hf] at hleave
  have hst : ∀ y, (m'.k.proc y).state = (k'.proc y).state := by
    intro y
    rw [hk, Kern.setContext_state]
  have hpar : (m'.k.proc i).parent = (k'.proc i).parent := by
    rw [hk]
    exact k'.setContext_proj Proc.parent (fun _ _ => rfl) i i [f']
  have howns := (h.cpu c i hc).owns
  rw [hf] at howns
  by_cases hkind : f.kind = .exit
  · cases f with
    | exit status msg p =>
      cases p with
      | start =>
        change (if i = initproc then none else _) = _ at hi
        split at hi <;> cases hi
        trivial
      | close ks =>
        dsimp only [instr, exitInstr] at hi
        split at hi <;> cases hi <;> trivial
      | acqW =>
        cases hi
        trivial
      | reparent rem =>
        cases rem with
        | nil =>
          cases hi
          exact ⟨by rw [hpar], fun q _ hn => absurd (List.mem_finRange q) hn⟩
        | cons j rem =>
          dsimp only [instr, exitInstr] at hi
          split at hi <;> cases hi
          · exact fun hn => absurd (List.mem_finRange _) hn
          · trivial
      | wakeInit rem w =>
        have ho := howns .wait (List.mem_append_right _ List.mem_cons_self)
        change some ((wakeInstr (some i) (some (.proc initproc)) m.k w).map _) = _ at hi
        generalize hwk : wakeInstr (some i) (some (.proc initproc)) m.k w = o at hi
        obtain ⟨op1, k1, next⟩ := o
        cases next with
        | inl w' =>
          cases hi
          exact fun hn => h.wake_unbound e hc ho hwk hl (hst _) hleave.1.symm hn hcalls
        | inr u =>
          cases hi
          trivial
      | wakeParent pch w =>
        have ho := howns .wait (List.mem_append_right _ List.mem_cons_self)
        change some ((wakeInstr (some i) pch m.k w).map _) = _ at hi
        generalize hwk : wakeInstr (some i) pch m.k w = o at hi
        obtain ⟨op1, k1, next⟩ := o
        obtain ⟨hch, hpast⟩ := hcalls
        have hp := (wakeInstr_frame hwk i).1
        cases next with
        | inl w' =>
          cases hi
          refine ⟨by rw [hpar, hp, hch], fun q hq hn => ?_⟩
          rw [hpar, hp] at hq
          have hqi : q ≠ i := by
            rintro rfl
            exact hleave.2 q hq
          rw [hch, hq] at hwk
          exact h.wake_unbound e hc ho hwk hl (hst q) hqi hn (hpast q hq)
        | inr u =>
          cases hi
          intro q hq hb
          rw [hpar, hp] at hq
          rcases h.bound_back e hb with hb | ⟨hc', -⟩
          · refine hpast q hq ?_ hb
            rw [wakeInstr_ends hwk]
            exact List.not_mem_nil
          · obtain rfl := Option.some.inj (hc'.symm.trans hc)
            exact hleave.2 _ hq
      | acqP | relW | swtch =>
        cases hi
        trivial
      | dead => cases hi
    | _ => cases hkind
  · rcases (instr_does hi).kind with hk' | hk'
    · exact Frame.calls_of_kind fun h => hkind (hk'.symm.trans h)
    · exact hk'.calls

/-- a step of another process, seen from one that is bound to sleep in `wait` or `waitall`: its
children stay, and a new zombie among them is one that init will be woken for -/
theorem Sane.waits_step (h : m.Sane) (ht : m.k.Tree) (hw : m.k.Watched) {x : Choice}
    (e : m.step c x = some m') {i : Slot N} (hc : m.cur c = some i) (hq : q ≠ i)
    (hb : m.k.Waits q) :
    (m.k.HasChild q → m'.k.HasChild q) ∧ (m.k.HasLive q → m'.k.HasLive q) ∧
    ((∀ y, (m.k.proc y).parent = some q → (m.k.proc y).state ≠ .zombie) →
      m'.k.DeadIn q fun _ => m'.k.Late q) := by
  have calm : m.k.Calm m'.k q → (m.k.HasChild q → m'.k.HasChild q) ∧
      (m.k.HasLive q → m'.k.HasLive q) ∧
      ((∀ y, (m.k.proc y).parent = some q → (m.k.proc y).state ≠ .zombie) →
        m'.k.DeadIn q fun _ => m'.k.Late q) :=
    fun hcalm => ⟨hcalm.hasChild, hcalm.hasLive,
      fun hd => hcalm.deadIn fun y hy hz => absurd hz (hd y hy)⟩
  cases step_acts e with
  | still hc' => cases hc.symm.trans hc'
  | stir hc' => cases hc.symm.trans hc'
  | @thread i' op k' st' hc' he hl hk =>
    obtain rfl := Option.some.inj (hc.symm.trans hc')
    obtain ⟨⟨-, ⟨j, g, htouch, hch⟩, -, -⟩, -⟩ := h.does hc he
    have hr := h.reshape hc htouch hch
    have hp : ∀ y, (m'.k.proc y).parent = (k'.proc y).parent := by
      intro y
      rw [hk]
      exact k'.setContext_proj Proc.parent (fun _ _ => rfl) i y st'
    have hs : ∀ y, (m'.k.proc y).state = (k'.proc y).state := by
      intro y
      rw [hk, Kern.setContext_state]
    -- a slot that is no child of `q` before or after the step does not count
    have but : ∀ j, (m.k.proc j).parent ≠ some q → (k'.proc j).parent ≠ some q →
        (∀ y, y ≠ j → (k'.proc y).parent = (m.k.proc y).parent ∧
          (k'.proc y).state = (m.k.proc y).state) → m.k.Calm m'.k q := by
      intro j h1 h2 h3
      have hne : ∀ y, (m.k.proc y).parent = some q → y ≠ j := fun y hy hyj => h1 (hyj ▸ hy)
      refine ⟨fun y => ?_, fun y hy => ?_⟩
      · by_cases hyj : y = j
        · rw [hp, hyj]
          exact ⟨fun h => absurd h h2, fun h => absurd h h1⟩
        · rw [hp, (h3 y hyj).1]
      · rw [hs, (h3 y (hne y hy)).2]
    cases hr with
    | quiet hp' hs' =>
      refine calm ⟨fun y => by rw [hp, hp'], fun y _ => ?_⟩
      rw [hs]
      rcases hs' y with e | e
      · rw [e]
      · exact ⟨fun h => absurd h e.2.ne.2.2, fun h => absurd h e.1.ne.2.2⟩
    | alloc j hp' hs' hj hj' =>
      have hnone := ht.unused j hj
      refine calm (but j (by rw [hnone]; nofun) (by rw [hp' j, hnone]; nofun) fun y hy => ?_)
      exact ⟨hp' y, hs' y hy⟩
    | free j hp' hs' hj0 hj hj' _ _ hfree =>
      have hj1 : (m.k.proc j).parent ≠ some q := by
        rcases hfree with hu | hu | hu
        · rw [ht.unused j hu]
          nofun
        · rw [ht.loose i j hu]
          nofun
        · rw [hu.1.2]
          exact fun h => hq (Option.some.inj h).symm
      exact calm (but j hj1 (by rw [hj0]; nofun) fun y hy => ⟨hp' y hy, hs' y hy⟩)
    | link j hp' hs' hj hk1 hk2 _ _ _ =>
      have hnone := ht.loose i j (by
        show j ∈ (handsOf _).2
        rw [hk1]
        exact List.mem_cons_self)
      refine calm (but j (by rw [hnone]; nofun) ?_ fun y hy => ⟨hp' y hy, hs' y⟩)
      rw [hj]
      exact fun h => hq (Option.some.inj h).symm
    | adopt j hp' hs' hj hj' _ _ hf =>
      have hj1 : (m.k.proc j).parent ≠ some q := by
        rw [hj]
        exact fun h => hq (Option.some.inj h).symm
      have hne : ∀ y, (m.k.proc y).parent = some q → y ≠ j := fun y hy hyj => hj1 (hyj ▸ hy)
      refine ⟨fun hch => ?_, fun hlv => ?_, fun hd y hy hz => ?_⟩
      · obtain ⟨y, hy⟩ := hch
        exact ⟨y, by rw [hp, hp' y (hne y hy), hy]⟩
      · obtain ⟨y, hy, hz⟩ := hlv
        exact ⟨y, by rw [hp, hp' y (hne y hy), hy], by rw [hs, hs' y]; exact hz⟩
      · rw [hs, hs'] at hz
        rw [hp] at hy
        by_cases hyj : y = j
        · rw [hyj, hj'] at hy
          obtain ⟨status, msg, rem, rfl⟩ := hf
          refine ⟨(Option.some.inj hy).symm, i, status, msg, rem, .acq (slots N), ?_, ?_⟩
          · rw [hk, Kern.setContext_self]
          · exact List.mem_finRange initproc
        · rw [hp' y hyj] at hy
          exact absurd hz (hd y hy)
    | publish j hp' hs' hj' hk1 _ =>
      have hu := h.used i j (by
        show j ∈ makingOf _
        rw [makingOf_hands hk1]
        exact List.mem_cons_self)
      refine calm ⟨fun y => by rw [hp, hp'], fun y _ => ?_⟩
      rw [hs]
      by_cases hyj : y = j
      · rw [hyj, hj', hu]
        exact ⟨nofun, nofun⟩
      · rw [hs' y hyj]
    | dies status msg hst hp' hs' =>
      have hcall := hw.calls i
      rw [hst] at hcall
      have hi : (m.k.proc i).parent ≠ some q := fun h => hcall q h hb
      exact calm (but i hi (by rw [hp']; exact hi) fun y hy => ⟨hp' y, hs' y hy⟩)

theorem OnCpu.not_zombie {i : Slot N} {f : Frame N} (h : m.OnCpu c i)
    (hf : (m.k.proc i).context = [f]) (hk : f.kind ≠ .exit) : (m.k.proc i).state ≠ .zombie := by
  have hm := h.mode
  rw [hf] at hm
  change (f.mode i).Of _ at hm
  cases hmode : f.mode i with
  | run | ready =>
    rw [hmode] at hm
    rw [show (m.k.proc i).state = _ from hm]
    nofun
  | asleep ch =>
    rw [hmode] at hm
    rw [hm.1]
    nofun
  | dead status => exact absurd (Frame.mode_dead hmode) hk

theorem Sane.watch_own (h : m.Sane) (ht : m.k.Tree) (hw : m.k.Watched) {x : Choice}
    (e : m.step c x = some m') (hc : m.cur c = some q) :
    (mainOf (m'.k.proc q).context).Watch m'.k q (m'.k.Late q) ∧
    (mainOf (m'.k.proc q).context).Calls m'.k q := by
  cases step_acts e with
  | still hc' => cases hc.symm.trans hc'
  | stir hc' => cases hc.symm.trans hc'
  | @thread i op k' st' hc' he hl hk =>
    obtain rfl := Option.some.inj (hc.symm.trans hc')
    have hlow := h.low q
    have hlow' := (h.does hc he).2
    have free : ∀ f : Frame N, f.need q = [] → f.Watch m'.k q (m'.k.Late q) ∧ f.Calls m'.k q := by
      intro f hf
      refine ⟨Frame.watch_of_need hf, (f.calls_cases q).elim (fun hn => ?_) fun h => h _⟩
      rw [hf] at hn
      cases hn
    have hctx : (m'.k.proc q).context = st' := by rw [hk, Kern.setContext_self]
    rw [hctx]
    rcases threadInstr_cases he with ⟨f, f', hf, hf', hi⟩ | ⟨timer, f, -, -, ho⟩ | ⟨g, f, o', hf, -, ho⟩
    · cases hf'
      have hwatch := hw.watch q
      have hcalls := hw.calls q
      rw [hf] at hwatch hcalls
      refine ⟨?_, h.calls_own ht e hc hf hi hl hk hcalls⟩
      refine (instr_watch hi (fun hk => (h.cpu c q hc).not_zombie hf hk) hwatch).mono ?_ ?_ ?_
      · refine ⟨fun y => ?_, fun y _ => ?_⟩
        · rw [hk, k'.setContext_proj Proc.parent (fun _ _ => rfl)]
        · rw [hk, Kern.setContext_state]
      · rw [hk, Kern.setContext_state]
        exact id
      · intro hlate
        obtain ⟨hq, d, y, status, msg, rem, w, hy, hwr, hd, -⟩ := h.late_holds hlate
        have hdc : d ≠ c := by
          rintro rfl
          obtain rfl := Option.some.inj (hd.symm.trans hc)
          have hleave := ht.leaving y
          rw [hy] at hleave
          exact hleave.1 hq
        exact ⟨hq, y, status, msg, rem, w, (h.stays e hd hdc).context.trans hy, hwr⟩
    · cases ho
      exact free f hlow'.2
    · rw [hf] at hlow
      cases ho
      have hmain : mainOf (o'.next.toList ++ [f]) = f := by cases o'.next <;> rfl
      show (mainOf (o'.next.toList ++ [f])).Watch _ _ _ ∧ (mainOf (o'.next.toList ++ [f])).Calls _ _
      rw [hmain]
      exact free f hlow.2

theorem Sane.watch_other (h : m.Sane) (ht : m.k.Tree) (hw : m.k.Watched) {x : Choice}
    (e : m.step c x = some m') {i : Slot N} (hc : m.cur c = some i) (hq : q ≠ i)
    (hctx : (m'.k.proc q).context = (m.k.proc q).context) :
    (mainOf (m'.k.proc q).context).Watch m'.k q (m'.k.Late q) ∧
    (mainOf (m'.k.proc q).context).Calls m'.k q := by
  have hne : ∀ {d}, m.cur d = some q → d ≠ c := by
    rintro d hd rfl
    exact hq (Option.some.inj (hd.symm.trans hc))
  have hback : m'.k.Waits q → m.k.Waits q := fun hb =>
    (h.bound_back e hb).resolve_right fun hn => hne hn.1 rfl
  have hwatch := hw.watch q
  have hcalls := hw.calls q
  rw [hctx]
  generalize hf : mainOf (m.k.proc q).context = f at hwatch hcalls ⊢
  refine ⟨?_, ?_⟩
  · rcases f.watch_cases q with hn | ⟨s, hs⟩ | htriv
    · obtain ⟨d, hd, ho⟩ := h.holds (l := .wait) (by rw [hf]; exact hn) nofun
      refine hwatch.mono (h.calm ht e ho (hne hd) q) ?_ fun hlate => ?_
      · rw [(h.stays e hd (hne hd)).state]
        exact id
      · obtain ⟨hq', d', y, status, msg, rem, w, hy, hwr, hd', ho'⟩ := h.late_holds hlate
        obtain rfl := Option.some.inj (ho.symm.trans ho')
        exact ⟨hq', y, status, msg, rem, w, (h.stays e hd' (hne hd)).context.trans hy, hwr⟩
    · have hins : m.k.InSleep q (.proc q) .wait s := by
        unfold Kern.InSleep
        rw [hf]
        exact hs
      have hins' : m'.k.InSleep q (.proc q) .wait s := by
        unfold Kern.InSleep
        rw [hctx, hf]
        exact hs
      -- bound to sleep before and after the step
      have hbound : s.Bound (m'.k.proc q).state → s.Bound (m.k.proc q).state ∧
          (m.k.HasChild q → m'.k.HasChild q) ∧ (m.k.HasLive q → m'.k.HasLive q) ∧
          (m.k.DeadIn q (fun _ => m.k.Late q) → m'.k.DeadIn q fun _ => m'.k.Late q) := by
        intro hb'
        have hW : m.k.Waits q := hback ⟨s, hins', hb'⟩
        obtain ⟨s1, hs1, hb1⟩ := id hW
        obtain ⟨h1, h2, h3⟩ := h.waits_step ht hw e hc hq hW
        have hss : s1 = s := by
          have := (show (mainOf _).sleeping q = _ from hs1).symm.trans hins
          cases this
          rfl
        refine ⟨hss ▸ hb1, h1, h2, fun hd => ?_⟩
        by_cases hlate : m.k.Late q
        · rcases h.late_step ht e hlate with hl' | hl'
          · exact fun _ _ _ => hl'
          · exact absurd ⟨s, hins', hb'⟩ hl'
        · exact h3 fun y hy hz => hlate (hd y hy hz)
      cases f with
      | wait addr msg p =>
        cases p with
        | sleeping s1 =>
          cases hs
          intro hb'
          obtain ⟨hb, h1, -, h3⟩ := hbound hb'
          exact ⟨h3 (hwatch hb).1, h1 (hwatch hb).2⟩
        | _ => cases hs
      | waitall nAddr statusesAddr p =>
        cases p with
        | sleeping st s1 =>
          cases hs
          intro hb'
          obtain ⟨hb, -, h2, -⟩ := hbound hb'
          exact h2 (hwatch hb)
        | _ => cases hs
      | _ => trivial
    · exact htriv _ _
  · rcases f.calls_cases q with hn | htriv
    · obtain ⟨d, hd, ho⟩ := h.holds (l := .wait) (by rw [hf]; exact hn) nofun
      refine hcalls.mono (h.guarded ht e ho (hne hd) q).1 fun p hb => ?_
      refine (h.bound_back e hb).resolve_right fun hn => ?_
      exact hne hd (Option.some.inj (ho.symm.trans hn.2))
    · exact htriv _

end Machine

section
variable {C : Type} [DecidableEq C] [NeZero N] {m m' : Machine N C} {c : C}

/-- **Every step keeps what `wait` and `waitall` know.** -/
theorem Kern.Watched.step (hw : m.k.Watched) (h : m.Sane) (ht : m.k.Tree) {x : Choice}
    (e : m.step c x = some m') : m'.k.Watched := by
  cases Machine.step_acts e with
  | still _ _ hk => exact hk ▸ hw
  | @stir j hc _ hj hk =>
    have stays : ∀ {α : Type} (f : Proc N → α), (∀ q s, f { q with state := s } = f q) →
        ∀ x, f (m'.k.proc x) = f (m.k.proc x) := by
      intro α f hf x
      by_cases hxj : x = j
      · rw [hxj]
        cases hj with
        | run _ h' | wake _ h' => rw [h', hf]
      · rw [hk x hxj]
    have hpar := stays Proc.parent fun _ _ => rfl
    have hctx := stays Proc.context fun _ _ => rfl
    have hstate : ∀ y, ((m'.k.proc y).state = .zombie ↔ (m.k.proc y).state = .zombie) ∧
        ((m'.k.proc y).state = .sleeping → (m.k.proc y).state = .sleeping) := by
      intro y
      by_cases hyj : y = j
      · rw [hyj]
        cases hj with
        | run hs h' | wake hs h' =>
          rw [h', hs]
          exact ⟨⟨nofun, nofun⟩, nofun⟩
      · rw [hk y hyj]
        exact ⟨Iff.rfl, id⟩
    refine ⟨fun q => ?_, fun y => ?_⟩
    · rw [hctx]
      refine (hw.watch q).mono ⟨fun y => by rw [hpar], fun y _ => (hstate y).1⟩ (hstate q).2 ?_
      rintro ⟨hq, y, status, msg, rem, w, hy, hwr⟩
      exact ⟨hq, y, status, msg, rem, w, (hctx y).trans hy, hwr⟩
    · rw [hctx]
      refine (hw.calls y).mono (hpar y) fun q hb => ?_
      refine (h.bound_back e hb).resolve_right fun hn => ?_
      rw [hc] at hn
      cases hn.1
  | @thread i op k' st' hc he hl hk =>
    have hboth : ∀ q, (mainOf (m'.k.proc q).context).Watch m'.k q (m'.k.Late q) ∧
        (mainOf (m'.k.proc q).context).Calls m'.k q := by
      intro q
      by_cases hq : q = i
      · subst hq
        exact h.watch_own ht hw e hc
      · have hother := (h.shift_all hc he hl hq).context
        rw [← hk] at hother
        rcases hother with hcx | hcx
        · exact h.watch_other ht hw e hc hq hcx
        · rw [hcx]
          exact ⟨trivial, trivial⟩
    exact ⟨fun q => (hboth q).1, fun q => (hboth q).2⟩

theorem Kern.Watched.init (h : Machine.Init m) : m.k.Watched := by
  obtain ⟨hk, -⟩ := h.booted
  have hctx : ∀ x, (m.k.proc x).context = [] ∨ (m.k.proc x).context = [.forkret] := by
    intro x
    by_cases hx : x = initproc
    · rw [hx]
      exact .inr hk.init.context
    · rw [hk.other x hx]
      exact .inl rfl
  refine ⟨fun x => ?_, fun x => ?_⟩ <;> rcases hctx x with e | e <;> rw [e] <;> trivial

theorem Kern.Watched.of_run {σ : ℕ → Machine N C} (h : Machine.Run σ) (t : ℕ) :
    (σ t).k.Watched :=
  (h.invariant (P := fun m => (m.Sane ∧ m.k.Tree) ∧ m.k.Watched)
    (fun _ hi => ⟨⟨.init hi, .init hi⟩, .init hi⟩)
    (fun _ _ hs ⟨_, _, e⟩ => ⟨⟨hs.1.1.step e, hs.1.2.step hs.1.1 e⟩, hs.2.step hs.1.1 hs.1.2 e⟩)
    t).2

end

theorem Machine.Sane.asleep {C : Type} {m : Machine N C} (h : m.Sane) {p : Slot N}
    (hs : (m.k.proc p).state = .sleeping) :
    ∃ f ch, (m.k.proc p).context = [f] ∧ (f.mode p = .asleep ch ∨ f.point p = some (.sleep ch)) := by
  have hlow := h.low p
  by_cases hcur : ∃ d, m.cur d = some p
  · obtain ⟨d, hd⟩ := hcur
    have hm := (h.cpu d p hd).mode
    match hctx : (m.k.proc p).context with
    | [] =>
      rw [hctx] at hm
      cases hs.symm.trans hm
    | [f] =>
      rw [hctx] at hm
      change (f.mode p).Of _ at hm
      cases hmode : f.mode p with
      | asleep ch => exact ⟨f, ch, rfl, .inl hmode⟩
      | run | ready =>
        rw [hmode] at hm
        cases hs.symm.trans hm
      | dead status =>
        rw [hmode] at hm
        cases hs.symm.trans hm.1
    | [g, f] =>
      rw [hctx] at hm hlow
      change (g.mode p).Of _ at hm
      rcases (hlow.1.facts p).1 with hg | hg <;> rw [hg] at hm <;> cases hs.symm.trans hm
    | _ :: _ :: _ :: _ =>
      rw [hctx] at hlow
      exact hlow.elim
  · have hpark := h.parked p fun d hd => hcur ⟨d, hd⟩
    unfold Parked at hpark
    rw [hs] at hpark
    obtain ⟨ch, hp, -⟩ := hpark
    match hctx : (m.k.proc p).context with
    | [] =>
      rw [hctx] at hp
      cases hp
    | [f] =>
      rw [hctx] at hp
      exact ⟨f, ch, rfl, .inr hp⟩
    | [g, f] =>
      rw [hctx] at hp hlow
      exact absurd hp ((hlow.1.facts p).2 ch)
    | _ :: _ :: _ :: _ =>
      rw [hctx] at hlow
      exact hlow.elim

/-- **No exit is missed.**  In every state of every run in which `wait_lock` is free, a process that
is `SLEEPING` in `wait` has a child and no `ZOMBIE` child, and one that is `SLEEPING` in `waitall` has
a child that is no `ZOMBIE`. -/
theorem no_exit_missed {C : Type} [DecidableEq C] [NeZero N] {σ : ℕ → Machine N C}
    (h : Machine.Run σ) (t : ℕ) (hw : (σ t).locks.owner .wait = none) (p : Slot N)
    (hp : ((σ t).k.proc p).state = .sleeping) :
    (∀ addr msg place, mainOf ((σ t).k.proc p).context = .wait addr msg place →
      (∀ x, ((σ t).k.proc x).parent = some p → ((σ t).k.proc x).state ≠ .zombie) ∧
      ∃ x, ((σ t).k.proc x).parent = some p) ∧
    (∀ nAddr statusesAddr place,
      mainOf ((σ t).k.proc p).context = .waitall nAddr statusesAddr place →
      ∃ x, ((σ t).k.proc x).parent = some p ∧ ((σ t).k.proc x).state ≠ .zombie) := by
  have hsane := Machine.Sane.of_run h t
  have hwatch := (Kern.Watched.of_run h t).watch p
  have hlate : ¬(σ t).k.Late p := by
    intro hl
    obtain ⟨-, d, _, _, _, _, _, -, -, -, ho⟩ := hsane.late_holds hl
    rw [hw] at ho
    cases ho
  obtain ⟨f, ch, hf, hplace⟩ := hsane.asleep hp
  rw [hf] at hwatch ⊢
  have bound : ∀ {s : SleepAt}, sleepMode (.proc p) s = .asleep ch ∨
      sleepPoint (.proc p) s = some (.sleep ch) → s.Bound ((σ t).k.proc p).state := by
    rintro (_ | _ | _ | _ | _ | _) (h1 | h1) <;> cases h1
    · trivial
    · exact hp
  refine ⟨fun addr msg place hm => ?_, fun nAddr statusesAddr place hm => ?_⟩
  · cases hm
    cases place with
    | sleeping s =>
      obtain ⟨h1, h2⟩ := hwatch (bound hplace)
      exact ⟨fun x hx hz => hlate (h1 x hx hz), h2⟩
    | _ => rcases hplace with h1 | h1 <;> cases h1
  · cases hm
    cases place with
    | sleeping st s => exact hwatch (bound hplace)
    | _ => rcases hplace with h1 | h1 <;> cases h1

theorem no_exit_missed_sample : ∃ m, sampleBoot = some m ∧
    ((m.schedule sampleRun 36).k.proc 0).state = .sleeping ∧
    (m.schedule sampleRun 36).locks.owner .wait = none ∧
    (∃ addr msg place, mainOf ((m.schedule sampleRun 36).k.proc 0).context = .wait addr msg place) ∧
    ∃ x, ((m.schedule sampleRun 36).k.proc x).parent = some 0 := by
  obtain ⟨m, hm, h1, h2, h3⟩ := sample_any (fun m =>
    ((m.schedule sampleRun 36).k.proc 0).state = .sleeping ∧
    (m.schedule sampleRun 36).locks.owner .wait = none ∧
    (mainOf ((m.schedule sampleRun 36).k.proc 0).context).kind = .wait) (by decide +kernel)
  have hrun := Machine.schedule_run (m := m) ⟨_, hm⟩ sampleRun
  obtain ⟨addr, msg, place, hmain⟩ := Frame.of_kind_wait h3
  exact ⟨m, hm, h1, h2, ⟨addr, msg, place, hmain⟩,
    ((no_exit_missed hrun 36 h2 0 h1).1 addr msg place hmain).2⟩

end Xv6
