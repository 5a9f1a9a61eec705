import Xv6.Kernel.Defs

/-!
# The clock, and `sys_sleep`

A process in `sys_sleep` holds `tickslock` from each test of the loop to `sleep`, so a test with what
follows it is one step.

* `Sleeper`   the tick counter and the process, as `clockintr` and `sys_sleep` move them;
* `Timer`   what the call is for: the process returns in its first test after `n` interrupts;
* `Sleeper.run_ticks`   the counter over a whole run;
* `sleep_on_time_iff`   **when the call keeps to its timer**.
-/

namespace Xv6

/-- where a process in `sys_sleep` is: asleep on `&ticks`, woken, or back with a result -/
inductive SleepPc
  | asleep
  | woken
  | returned (r : ℤ)
deriving DecidableEq

/-- `clockintr`, a wakeup for another reason, `kill`, and the process running on a CPU -/
inductive TickEvent
  | clock
  | wake
  | kill
  | run
deriving DecidableEq

def SleepPc.wakeup : SleepPc → SleepPc
  | .asleep => .woken
  | pc => pc

/-- the counter, its value when the process called, and the process -/
structure Sleeper where
  ticks : BitVec 32
  ticks0 : BitVec 32
  killed : Bool
  pc : SleepPc

namespace Sleeper

/-- the loop from its condition on: `ticks - ticks0` is a `uint`, and so `n` is converted to one -/
def test (n : CInt) (s : Sleeper) : Sleeper :=
  if s.ticks - s.ticks0 < n then
    if s.killed then { s with pc := .returned (-1) } else { s with pc := .asleep }
  else { s with pc := .returned 0 }

/-- the call, when the counter is at `t` -/
def call (n : CInt) (t : BitVec 32) : Sleeper := test n ⟨t, t, false, .woken⟩

def step (n : CInt) (s : Sleeper) : TickEvent → Sleeper
  | .clock => { s with ticks := s.ticks + 1, pc := s.pc.wakeup }
  | .wake => { s with pc := s.pc.wakeup }
  | .kill => { s with killed := true, pc := s.pc.wakeup }
  | .run => if s.pc = .woken then s.test n else s

/-- the state after some events -/
def run (n : CInt) (t : BitVec 32) (es : List TickEvent) : Sleeper := es.foldl (step n) (call n t)

end Sleeper

/-- the interrupts since the call, and the process -/
structure Timer where
  count : ℕ
  pc : SleepPc

namespace Timer

/-- the process returns if there were `n` interrupts -/
def test (n : CInt) (s : Timer) : Timer :=
  if (s.count : ℤ) < n.toInt then { s with pc := .asleep } else { s with pc := .returned 0 }

def step (n : CInt) (s : Timer) : TickEvent → Timer
  | .clock => ⟨s.count + 1, s.pc.wakeup⟩
  | .wake => { s with pc := s.pc.wakeup }
  | .kill => s
  | .run => if s.pc = .woken then s.test n else s

def run (n : CInt) (es : List TickEvent) : Timer := es.foldl (step n) (test n ⟨0, .woken⟩)

end Timer

/-- the process does what its timer says, all the time -/
def OnTime (n : CInt) (t : BitVec 32) (es : List TickEvent) : Prop :=
  ∀ es', es' <+: es → (Sleeper.run n t es').pc = (Timer.run n es').pc

/-- no test comes so late that the counter has gone round and stands below `n` again -/
def NotLate (n : CInt) (es : List TickEvent) : Prop :=
  ∀ es', es' ++ [.run] <+: es → (Timer.run n es').pc = .woken →
    es'.count .clock < 2 ^ 32 ∨ n.toNat ≤ es'.count .clock % 2 ^ 32

section
variable {n : CInt} {t : BitVec 32}

theorem Sleeper.run_concat (es : List TickEvent) (e : TickEvent) :
    run n t (es ++ [e]) = (run n t es).step n e := by
  unfold run
  rw [List.foldl_append]
  rfl

theorem Timer.run_concat (es : List TickEvent) (e : TickEvent) :
    run n (es ++ [e]) = (run n es).step n e := by
  unfold run
  rw [List.foldl_append]
  rfl

theorem Sleeper.test_same (s : Sleeper) :
    (s.test n).ticks = s.ticks ∧ (s.test n).ticks0 = s.ticks0 ∧ (s.test n).killed = s.killed := by
  unfold test
  split
  · split <;> exact ⟨rfl, rfl, rfl⟩
  · exact ⟨rfl, rfl, rfl⟩

theorem Timer.test_count (s : Timer) : (s.test n).count = s.count := by
  unfold test
  split <;> rfl

theorem Sleeper.run_ticks {es : List TickEvent} (hk : .kill ∉ es) :
    (run n t es).ticks = t + BitVec.ofNat 32 (es.count .clock) ∧ (run n t es).ticks0 = t ∧
      (run n t es).killed = false := by
  induction es using List.reverseRecOn with
  | nil =>
    obtain ⟨h1, h2, h3⟩ := test_same (n := n) ⟨t, t, false, .woken⟩
    exact ⟨h1.trans (BitVec.add_zero t).symm, h2, h3⟩
  | append_singleton es e ih =>
    rw [List.mem_append, List.mem_singleton, not_or] at hk
    obtain ⟨h1, h2, h3⟩ := ih hk.1
    rw [run_concat, List.count_append]
    cases e with
    | clock =>
      refine ⟨?_, h2, h3⟩
      show (run n t es).ticks + 1 = _
      rw [h1, BitVec.add_assoc, ← BitVec.ofNat_add_ofNat]
      rfl
    | wake => exact ⟨h1, h2, h3⟩
    | kill => exact absurd rfl hk.2
    | run =>
      by_cases hw : (run n t es).pc = .woken
      · have hstep : (run n t es).step n .run = (run n t es).test n := if_pos hw
        rw [hstep]
        obtain ⟨e1, e2, e3⟩ := test_same (n := n) (run n t es)
        exact ⟨e1.trans h1, e2.trans h2, e3.trans h3⟩
      · have hstep : (run n t es).step n .run = run n t es := if_neg hw
        rw [hstep]
        exact ⟨h1, h2, h3⟩

theorem Timer.run_count (es : List TickEvent) : (run n es).count = es.count .clock := by
  induction es using List.reverseRecOn with
  | nil => exact test_count _
  | append_singleton es e ih =>
    rw [run_concat, List.count_append]
    cases e with
    | clock => exact congrArg (· + 1) ih
    | wake => exact ih
    | kill => exact ih
    | run =>
      show (if _ then _ else _ : Timer).count = _
      split
      · exact (test_count _).trans ih
      · exact ih

theorem Sleeper.test_pc {s : Sleeper} {c : ℕ} (h : s.ticks - s.ticks0 = BitVec.ofNat 32 c)
    (hk : s.killed = false) :
    (s.test n).pc = if c % 2 ^ 32 < n.toNat then .asleep else .returned 0 := by
  unfold test
  rw [h, hk]
  have hlt : BitVec.ofNat 32 c < n ↔ c % 2 ^ 32 < n.toNat := by
    rw [BitVec.lt_def, BitVec.toNat_ofNat]
  rw [if_congr hlt rfl rfl]
  split <;> rfl

theorem Timer.test_pc (s : Timer) :
    (s.test n).pc = if (s.count : ℤ) < n.toInt then .asleep else .returned 0 := by
  unfold test
  split <;> rfl

/-- the two tests agree if the call is for a number of ticks and not late -/
theorem sleep_test_iff (hn : 0 ≤ n.toInt) (c : ℕ) :
    (if c % 2 ^ 32 < n.toNat then SleepPc.asleep else .returned 0) =
        (if (c : ℤ) < n.toInt then SleepPc.asleep else .returned 0) ↔
      c < 2 ^ 32 ∨ n.toNat ≤ c % 2 ^ 32 := by
  have hcond : n.toInt = if 2 * n.toNat < 2 ^ 32 then (n.toNat : ℤ) else n.toNat - 2 ^ 32 :=
    BitVec.toInt_eq_toNat_cond n
  have hlt := n.isLt
  have hint : n.toInt = n.toNat := by
    split at hcond <;> omega
  rw [hint]
  by_cases h1 : c % 2 ^ 32 < n.toNat
  · rw [if_pos h1]
    by_cases h2 : (c : ℤ) < n.toNat
    · rw [if_pos h2]
      exact iff_of_true rfl (.inl (by omega))
    · rw [if_neg h2]
      refine iff_of_false nofun ?_
      rintro (h | h)
      · rw [Nat.mod_eq_of_lt h] at h1
        omega
      · omega
  · have h2 : ¬ (c : ℤ) < n.toNat := by omega
    rw [if_neg h1, if_neg h2]
    exact iff_of_true rfl (.inr (by omega))

theorem sleep_run_iff {es : List TickEvent} (hk : .kill ∉ es) (hn : 0 ≤ n.toInt)
    (hpc : (Sleeper.run n t es).pc = (Timer.run n es).pc) :
    (Sleeper.run n t (es ++ [.run])).pc = (Timer.run n (es ++ [.run])).pc ↔
      ((Timer.run n es).pc = .woken →
        es.count .clock < 2 ^ 32 ∨ n.toNat ≤ es.count .clock % 2 ^ 32) := by
  rw [Sleeper.run_concat, Timer.run_concat]
  unfold Sleeper.step Timer.step
  rw [hpc]
  by_cases hw : (Timer.run n es).pc = .woken
  · obtain ⟨h1, h2, h3⟩ := Sleeper.run_ticks (n := n) (t := t) hk
    have hdiff : (Sleeper.run n t es).ticks - (Sleeper.run n t es).ticks0 =
        BitVec.ofNat 32 (es.count .clock) := by
      rw [h1, h2, BitVec.add_comm]
      exact BitVec.add_sub_cancel ..
    rw [if_pos hw, if_pos hw, Sleeper.test_pc hdiff h3, Timer.test_pc, Timer.run_count,
      sleep_test_iff hn]
    exact ⟨fun h _ => h, fun h => h hw⟩
  · rw [if_neg hw, if_neg hw]
    exact iff_of_true hpc fun h => absurd h hw

theorem sleep_event_same {es : List TickEvent} {e : TickEvent} (he : e ≠ .run) (hk : e ≠ .kill)
    (hpc : (Sleeper.run n t es).pc = (Timer.run n es).pc) :
    (Sleeper.run n t (es ++ [e])).pc = (Timer.run n (es ++ [e])).pc := by
  rw [Sleeper.run_concat, Timer.run_concat]
  cases e with
  | clock => exact congrArg SleepPc.wakeup hpc
  | wake => exact congrArg SleepPc.wakeup hpc
  | kill => exact absurd rfl hk
  | run => exact absurd rfl he

theorem sleep_call_iff :
    (Sleeper.run n t []).pc = (Timer.run n []).pc ↔ 0 ≤ n.toInt := by
  have hdiff : (⟨t, t, false, .woken⟩ : Sleeper).ticks - t = BitVec.ofNat 32 0 := BitVec.sub_self t
  have hs : (Sleeper.run n t []).pc = if 0 % 2 ^ 32 < n.toNat then .asleep else .returned 0 :=
    Sleeper.test_pc hdiff rfl
  have ht : (Timer.run n []).pc = if ((0 : ℕ) : ℤ) < n.toInt then .asleep else .returned 0 :=
    Timer.test_pc _
  constructor
  · intro h
    by_contra hneg
    have hcond : n.toInt = if 2 * n.toNat < 2 ^ 32 then (n.toNat : ℤ) else n.toNat - 2 ^ 32 :=
      BitVec.toInt_eq_toNat_cond n
    rw [hs, ht, if_pos, if_neg] at h
    · cases h
    · omega
    · split at hcond <;> omega
  · intro hn
    rw [hs, ht]
    exact (sleep_test_iff hn 0).2 (.inl (by decide))

/-- **`sys_sleep` waits the requested number of ticks** exactly if that number is not negative and no test
comes more than 2^32 interrupts after the call, at a moment when the counter stands below `n` again -/
theorem sleep_on_time_iff (n : CInt) (t : BitVec 32) (es : List TickEvent) (hk : .kill ∉ es) :
    OnTime n t es ↔ 0 ≤ n.toInt ∧ NotLate n es := by
  constructor
  · intro h
    have hn : 0 ≤ n.toInt := sleep_call_iff.1 (h [] List.nil_prefix)
    refine ⟨hn, fun es' hp => ?_⟩
    have hsub : es' <+: es := (List.prefix_append es' [.run]).trans hp
    exact (sleep_run_iff (fun hm => hk (hsub.subset hm)) hn (h es' hsub)).1 (h _ hp)
  · rintro ⟨hn, hlate⟩ es'
    induction es' using List.reverseRecOn with
    | nil => exact fun _ => sleep_call_iff.2 hn
    | append_singleton es' e ih =>
      intro hp
      have hsub : es' <+: es := (List.prefix_append es' [e]).trans hp
      have hpc := ih hsub
      by_cases he : e = .run
      · subst he
        exact (sleep_run_iff (fun hm => hk (hsub.subset hm)) hn hpc).2 (hlate es' hp)
      · refine sleep_event_same he (fun hkill => hk ?_) hpc
        exact hp.subset (List.mem_append_right _ (hkill ▸ List.mem_cons_self))

end

theorem sleep_on_time_sample : OnTime 2 0xffffffff [.clock, .run, .clock, .run] ∧
    (Sleeper.run 2 0xffffffff [.clock, .run, .clock, .run]).pc = .returned 0 := by
  refine ⟨(sleep_on_time_iff 2 0xffffffff [.clock, .run, .clock, .run] (by decide)).2
    ⟨by decide, fun es' hp _ => .inl ?_⟩, by decide⟩
  have h1 := hp.length_le
  have h2 := List.count_le_length (a := TickEvent.clock) (l := es')
  rw [List.length_append, List.length_singleton] at h1
  show _ < 4294967296
  have h3 : es'.length + 1 ≤ 4 := h1
  omega

theorem sleep_negative_sleeps : (Sleeper.run (-1) 0 []).pc = .asleep ∧
    (Timer.run (-1) []).pc = .returned 0 := by decide

end Xv6
