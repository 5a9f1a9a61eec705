import Xv6.Io.Pipe

/-!
# Sleepers of a pipe, and bytes that a failing read takes

* `Pipes.Told`   who sleeps in `piperead` waits for a byte, who sleeps in `pipewrite` for room;
* `Pipes.Slips`   `pipewrite` returns from its `killed` test, and a reader that sleeps has not been
  told of the bytes in the pipe;
* `pipe_wakeups_iff`  **no wakeup is lost exactly when no `pipewrite` slips away like this**;
* `taken`, `failed`   the bytes that a read has taken from the pipe, and whether a `copyout` failed;
* `piperead_keeps_iff`   **a read takes the bytes it returns exactly when none of its `copyout`s
  fails**.
-/

set_option linter.unusedSectionVars false

namespace Xv6
open Function (update update_self)
section
variable {P : Type} [DecidableEq P]

namespace PipePc

/-- in `pipewrite` with the lock, on the way to a `wakeup` of the readers -/
def writes : PipePc → Bool
  | .wLoop .. | .wEnd .. => true
  | _ => false

/-- in `piperead` with the lock, on the way to a `wakeup` of the writers -/
def reads : PipePc → Bool
  | .rLoop .. | .rEnd .. => true
  | _ => false

theorem holds_of_writes {pc : PipePc} (h : pc.writes = true) : pc.holds = true := by
  cases pc <;> first | rfl | cases h

theorem not_asleep {pc : PipePc} (h : pc.holds = true) : pc.chan = none := by
  cases pc <;> first | rfl | cases h

theorem chan_rouse (pc : PipePc) : pc.rouse.chan = none := by
  cases pc <;> rfl

theorem wake_not_asleep (c : PipeChan) (pc : PipePc) : (pc.wake c).chan ≠ some c := by
  unfold wake
  split
  · rw [chan_rouse]
    simp
  · assumption

end PipePc

namespace Pipes
variable {s s' : Pipes P} {p q : P} {e : PipeEvent P}

/-- who sleeps has a reason to -/
structure Told (s : Pipes P) : Prop where
  reader : ∀ q, (s.pc q).chan = some .nread → s.pi.Empty ∧ s.pi.writeopen = true
  writer : ∀ q, (s.pc q).chan = some .nwrite → s.pi.Full ∧ s.pi.readopen = true

/-- a process returns from the loop of `pipewrite` while a reader sleeps and there are bytes -/
def Slips (s : Pipes P) (e : PipeEvent P) : Prop :=
  ∃ p src n i r, s.pc p = .wLoop src n i ∧ e = .writeReturns p n r ∧ ¬s.pi.Empty ∧
    ∃ q, (s.pc q).chan = some .nread

/-- who sleeps has a reason to, or the process with the lock is on its way to a `wakeup` -/
structure Waits (s : Pipes P) : Prop where
  holds : ∀ p, (s.pc p).holds = true ↔ s.lock = some p
  reader : ∀ q, (s.pc q).chan = some .nread →
    s.pi.writeopen = true ∧ (s.pi.Empty ∨ ∃ p, s.lock = some p ∧ (s.pc p).writes = true)
  writer : ∀ q, (s.pc q).chan = some .nwrite →
    s.pi.readopen = true ∧ (s.pi.Full ∨ ∃ p, s.lock = some p ∧ (s.pc p).reads = true)

theorem Waits.told (h : s.Waits) (hl : s.lock = none) : s.Told := by
  refine ⟨fun q hq => ?_, fun q hq => ?_⟩
  · obtain ⟨ho, he | ⟨p, hp, -⟩⟩ := h.reader q hq
    · exact ⟨he, ho⟩
    · rw [hl] at hp
      cases hp
  · obtain ⟨ho, he | ⟨p, hp, -⟩⟩ := h.writer q hq
    · exact ⟨he, ho⟩
    · rw [hl] at hp
      cases hp

theorem Init.waits (h : s.Init) : s.Waits := by
  refine ⟨fun p => ?_, fun q hq => ?_, fun q hq => ?_⟩
  · rw [h.idle p, h.lock]
    simp [PipePc.holds]
  · rw [h.idle q] at hq
    cases hq
  · rw [h.idle q] at hq
    cases hq

theorem Others.holds (ho : Others s s' p) (hq : q ≠ p) : (s'.pc q).holds = (s.pc q).holds := by
  rcases ho q hq with e | e <;> rw [e]
  exact PipePc.holds_rouse _

theorem Others.asleep (ho : Others s s' p) (hq : q ≠ p) {c : PipeChan}
    (h : (s'.pc q).chan = some c) : (s.pc q).chan = some c := by
  rcases ho q hq with e | e
  · rwa [e] at h
  · rw [e, PipePc.chan_rouse] at h
    cases h

theorem Waits.not_held (h : s.Waits) (hl : s.lock = some p) (hq : q ≠ p) :
    (s.pc q).holds = false := by
  rw [Bool.eq_false_iff]
  intro hh
  have := (h.holds q).1 hh
  rw [hl] at this
  exact hq (Option.some.inj this).symm

section
variable (h : s.Waits) (hl : s.lock = some p)
include h hl

theorem Waits.reader_mine (hq : (s.pc q).chan = some .nread) :
    s.pi.writeopen = true ∧ (s.pi.Empty ∨ (s.pc p).writes = true) := by
  obtain ⟨ho, he | ⟨r, hr, hw⟩⟩ := h.reader q hq
  · exact ⟨ho, .inl he⟩
  · rw [hl] at hr
    cases hr
    exact ⟨ho, .inr hw⟩

theorem Waits.writer_mine (hq : (s.pc q).chan = some .nwrite) :
    s.pi.readopen = true ∧ (s.pi.Full ∨ (s.pc p).reads = true) := by
  obtain ⟨ho, he | ⟨r, hr, hw⟩⟩ := h.writer q hq
  · exact ⟨ho, .inl he⟩
  · rw [hl] at hr
    cases hr
    exact ⟨ho, .inr hw⟩

/-- the process with the lock goes on: nobody else does anything -/
theorem Waits.stay (pi : Pipe) {b : PipePc} (hb : b.holds = true)
    (ho : pi.writeopen = s.pi.writeopen ∧ pi.readopen = s.pi.readopen)
    (hr : s.pi.Empty ∨ (s.pc p).writes = true → pi.Empty ∨ b.writes = true)
    (hw : s.pi.Full ∨ (s.pc p).reads = true → pi.Full ∨ b.reads = true) :
    (({ s with pi := pi } : Pipes P).goto p b).Waits := by
  have hpc : (({ s with pi := pi } : Pipes P).goto p b).pc p = b := goto_self ..
  have hne : ∀ q, q ≠ p → (({ s with pi := pi } : Pipes P).goto p b).pc q = s.pc q :=
    fun q hq => goto_ne _ b hq
  have hsleep : ∀ q c, ((({ s with pi := pi } : Pipes P).goto p b).pc q).chan = some c →
      (s.pc q).chan = some c := by
    intro q c hq
    by_cases hqp : q = p
    · rw [hqp, hpc, PipePc.not_asleep hb] at hq
      cases hq
    · rwa [hne q hqp] at hq
  refine ⟨fun q => ?_, fun q hq => ?_, fun q hq => ?_⟩
  · show _ ↔ s.lock = some q
    by_cases hqp : q = p
    · rw [hqp, hpc, hb, hl]
      simp
    · rw [hne q hqp]
      exact h.holds q
  · obtain ⟨h1, h2⟩ := h.reader_mine hl (hsleep q _ hq)
    refine ⟨ho.1.trans h1, (hr h2).imp_right fun hb => ⟨p, hl, ?_⟩⟩
    rw [hpc]
    exact hb
  · obtain ⟨h1, h2⟩ := h.writer_mine hl (hsleep q _ hq)
    refine ⟨ho.2.trans h1, (hw h2).imp_right fun hb => ⟨p, hl, ?_⟩⟩
    rw [hpc]
    exact hb

theorem Waits.leave (ho : Others s s' p) (hl' : s'.lock = none) (hb : (s'.pc p).holds = false)
    (ht : s'.Told) : s'.Waits := by
  refine ⟨fun q => ?_, fun q hq => ?_, fun q hq => ?_⟩
  · have hq : (s'.pc q).holds = false := by
      by_cases hqp : q = p
      · rw [hqp]
        exact hb
      · rw [ho.holds hqp]
        exact h.not_held hl hqp
    rw [hq, hl']
    simp
  · obtain ⟨he, hw⟩ := ht.reader q hq
    exact ⟨hw, .inl he⟩
  · obtain ⟨he, hw⟩ := ht.writer q hq
    exact ⟨hw, .inl he⟩

/-- without a `wakeup`: the sleepers, the process perhaps among them, must have their reasons -/
theorem Waits.leave_quiet {b : PipePc} (hb : b.holds = false)
    (hr : (b.chan = some .nread ∨ ∃ q, (s.pc q).chan = some .nread) →
      s.pi.Empty ∧ s.pi.writeopen = true)
    (hw : (b.chan = some .nwrite ∨ ∃ q, (s.pc q).chan = some .nwrite) →
      s.pi.Full ∧ s.pi.readopen = true) : (s.release.goto p b).Waits := by
  have hpc : (s.release.goto p b).pc p = b := goto_self ..
  refine h.leave hl (others_goto s.release p b) rfl (by rw [hpc]; exact hb) ⟨fun q hq => ?_, fun q hq => ?_⟩
  · refine hr ?_
    by_cases hqp : q = p
    · rw [hqp, hpc] at hq
      exact .inl hq
    · exact .inr ⟨q, (others_goto s.release p b).asleep hqp hq⟩
  · refine hw ?_
    by_cases hqp : q = p
    · rw [hqp, hpc] at hq
      exact .inl hq
    · exact .inr ⟨q, (others_goto s.release p b).asleep hqp hq⟩

/-- with a `wakeup` on `c`: only the other channel matters, and the process itself -/
theorem Waits.leave_waking (pi : Pipe) {b : PipePc} (c : PipeChan) (hb : b.holds = false)
    (hr : (b.chan = some .nread ∨ c ≠ .nread ∧ ∃ q, (s.pc q).chan = some .nread) →
      pi.Empty ∧ pi.writeopen = true)
    (hw : (b.chan = some .nwrite ∨ c ≠ .nwrite ∧ ∃ q, (s.pc q).chan = some .nwrite) →
      pi.Full ∧ pi.readopen = true) :
    (((({ s with pi := pi } : Pipes P).wakeup c).release).goto p b).Waits := by
  have hpc : (((({ s with pi := pi } : Pipes P).wakeup c).release).goto p b).pc p = b := goto_self ..
  have ho : Others s (((({ s with pi := pi } : Pipes P).wakeup c).release).goto p b) p :=
    others_wakeup { s with pi := pi } c p b
  have hasleep : ∀ q d, q ≠ p →
      ((((({ s with pi := pi } : Pipes P).wakeup c).release).goto p b).pc q).chan = some d →
      c ≠ d ∧ (s.pc q).chan = some d := by
    intro q d hqp hq
    refine ⟨?_, ho.asleep hqp hq⟩
    rintro rfl
    rw [goto_ne _ b hqp] at hq
    exact PipePc.wake_not_asleep c (s.pc q) hq
  refine h.leave hl ho rfl (by rw [hpc]; exact hb) ⟨fun q hq => ?_, fun q hq => ?_⟩
  · refine hr ?_
    by_cases hqp : q = p
    · rw [hqp, hpc] at hq
      exact .inl hq
    · exact .inr ⟨(hasleep q _ hqp hq).1, q, (hasleep q _ hqp hq).2⟩
  · refine hw ?_
    by_cases hqp : q = p
    · rw [hqp, hpc] at hq
      exact .inl hq
    · exact .inr ⟨(hasleep q _ hqp hq).1, q, (hasleep q _ hqp hq).2⟩

end

theorem Waits.writeTurn (h : s.Waits) {src : ℕ → Byte} {n : CInt} {i : ℕ} (copied : Bool)
    (hp : s.pc p = .wLoop src n i) (hs : ¬s.Slips (s.writeTurn p src n i copied).2) :
    (s.writeTurn p src n i copied).1.Waits := by
  have hl : s.lock = some p := (h.holds p).1 (by rw [hp]; rfl)
  -- the process does not read, so a writer that sleeps sees a full pipe
  have hfull : ∀ q, (s.pc q).chan = some .nwrite → s.pi.Full ∧ s.pi.readopen = true := by
    intro q hq
    obtain ⟨ho, hf | hr⟩ := h.writer_mine hl hq
    · exact ⟨hf, ho⟩
    · rw [hp] at hr
      cases hr
  unfold Pipes.writeTurn at hs ⊢
  by_cases hi : (i : ℤ) < n.toInt
  · rw [if_pos hi] at hs ⊢
    by_cases hx : s.pi.readopen = false ∨ s.killed p = true
    · rw [if_pos hx] at hs ⊢
      refine h.leave_quiet hl rfl ?_ ?_
      · rintro (hc | ⟨q, hq⟩)
        · cases hc
        · refine ⟨?_, (h.reader q hq).1⟩
          by_contra he
          exact hs ⟨p, src, n, i, -1, hp, rfl, he, q, hq⟩
      · rintro (hc | ⟨q, hq⟩)
        · cases hc
        · exact hfull q hq
    · rw [if_neg hx]
      simp only [not_or, Bool.not_eq_false] at hx
      by_cases hf : s.pi.Full
      · rw [if_pos hf]
        refine h.leave_waking hl _ .nread rfl ?_ ?_
        · rintro (hc | ⟨hc, -⟩)
          · cases hc
          · exact absurd rfl hc
        · exact fun _ => ⟨hf, hx.1⟩
      · rw [if_neg hf]
        cases copied with
        | true =>
          refine h.stay hl (s.pi.put (src i)) rfl ⟨rfl, rfl⟩ (fun _ => .inr rfl) ?_
          rw [hp]
          rintro (hf' | hc)
          · exact absurd hf' hf
          · cases hc
        | false =>
          refine h.stay hl s.pi rfl ⟨rfl, rfl⟩ (fun _ => .inr rfl) ?_
          rw [hp]
          exact fun hf => hf
  · rw [if_neg hi]
    refine h.stay hl s.pi rfl ⟨rfl, rfl⟩ (fun _ => .inr rfl) ?_
    rw [hp]
    exact fun hf => hf

theorem Waits.waitTurn (h : s.Waits) {n : CInt} (hp : s.pc p = .rWait n) :
    (s.waitTurn p n).1.Waits := by
  have hl : s.lock = some p := (h.holds p).1 (by rw [hp]; rfl)
  have hfull : ∀ q, (s.pc q).chan = some .nwrite → s.pi.Full ∧ s.pi.readopen = true := by
    intro q hq
    obtain ⟨ho, hf | hr⟩ := h.writer_mine hl hq
    · exact ⟨hf, ho⟩
    · rw [hp] at hr
      cases hr
  unfold Pipes.waitTurn
  by_cases he : s.pi.Empty ∧ s.pi.writeopen = true
  · rw [if_pos he]
    by_cases hk : s.killed p = true
    · rw [if_pos hk]
      refine h.leave_quiet hl rfl (fun _ => he) ?_
      rintro (hc | ⟨q, hq⟩)
      · cases hc
      · exact hfull q hq
    · rw [if_neg hk]
      refine h.leave_quiet hl rfl (fun _ => he) ?_
      rintro (hc | ⟨q, hq⟩)
      · cases hc
      · exact hfull q hq
  · rw [if_neg he]
    refine h.stay hl s.pi rfl ⟨rfl, rfl⟩ ?_ fun _ => .inr rfl
    rw [hp]
    exact fun he => he

theorem Waits.readTurn (h : s.Waits) {n : CInt} {i : ℕ} (copied : Bool)
    (hp : s.pc p = .rLoop n i) : (s.readTurn p n i copied).1.Waits := by
  have hl : s.lock = some p := (h.holds p).1 (by rw [hp]; rfl)
  unfold Pipes.readTurn
  have hdone : (s.goto p (.rEnd n i)).Waits := by
    refine h.stay hl s.pi rfl ⟨rfl, rfl⟩ ?_ fun _ => .inr rfl
    rw [hp]
    exact fun he => he
  by_cases hi : (i : ℤ) < n.toInt
  · rw [if_pos hi]
    by_cases he : s.pi.Empty
    · rw [if_pos he]
      exact hdone
    · rw [if_neg he]
      have hdrop : ∀ b : PipePc, b.holds = true → b.reads = true →
          (({ s with pi := s.pi.drop } : Pipes P).goto p b).Waits := by
        intro b hb hbr
        refine h.stay hl _ hb ⟨rfl, rfl⟩ ?_ fun _ => .inr hbr
        rw [hp]
        rintro (he' | hc)
        · exact absurd he' he
        · cases hc
      cases copied with
      | true => exact hdrop _ rfl rfl
      | false => exact hdrop _ rfl rfl
  · rw [if_neg hi]
    exact hdone

theorem Waits.acquire (h : s.Waits) {b : PipePc} (hb : b.holds = true) {r : Pipes P × PipeEvent P}
    (hr : s.acquire p b = some r) : r.1.Waits := by
  unfold Pipes.acquire at hr
  by_cases hl : s.lock = none
  · rw [if_pos hl] at hr
    cases hr
    have ht := h.told hl
    have hpc : (({ s with lock := some p } : Pipes P).goto p b).pc p = b := goto_self ..
    have hsleep : ∀ q c, ((({ s with lock := some p } : Pipes P).goto p b).pc q).chan = some c →
        (s.pc q).chan = some c := by
      intro q c hq
      by_cases hqp : q = p
      · rw [hqp, hpc, PipePc.not_asleep hb] at hq
        cases hq
      · rwa [goto_ne _ b hqp] at hq
    refine ⟨fun q => ?_, fun q hq => ?_, fun q hq => ?_⟩
    · show _ ↔ some p = some q
      by_cases hqp : q = p
      · rw [hqp, hpc, hb]
        simp
      · rw [goto_ne _ b hqp]
        show (s.pc q).holds = true ↔ _
        rw [h.holds q, hl]
        simp [Ne.symm hqp]
    · obtain ⟨he, hw⟩ := ht.reader q (hsleep q _ hq)
      exact ⟨hw, .inl he⟩
    · obtain ⟨he, hw⟩ := ht.writer q (hsleep q _ hq)
      exact ⟨hw, .inl he⟩
  · rw [if_neg hl] at hr
    cases hr

theorem Waits.close (h : s.Waits) {w : Bool} (hp : s.pc p = .cClose w) :
    (((({ s with pi := s.pi.close w } : Pipes P).wakeup (if w then .nread else .nwrite)).release).goto
      p .idle).Waits := by
  have hl : s.lock = some p := (h.holds p).1 (by rw [hp]; rfl)
  refine h.leave_waking hl _ _ rfl ?_ ?_
  · rintro (hc | ⟨hc, q, hq⟩)
    · cases hc
    · obtain ⟨ho, he | hr⟩ := h.reader_mine hl hq
      · cases w with
        | true => exact absurd rfl hc
        | false => exact ⟨he, ho⟩
      · rw [hp] at hr
        cases hr
  · rintro (hc | ⟨hc, q, hq⟩)
    · cases hc
    · obtain ⟨ho, he | hr⟩ := h.writer_mine hl hq
      · cases w with
        | true => exact ⟨he, ho⟩
        | false => exact absurd rfl hc
      · rw [hp] at hr
        cases hr

theorem Waits.aside (h : s.Waits) {b : PipePc} {killed : P → Bool} (hb : b.holds = false)
    (hc : b.chan = none) (hp : (s.pc p).holds = false) :
    ({ s with killed := killed, pc := update s.pc p b } : Pipes P).Waits := by
  have hne : ∀ q, q ≠ p → update s.pc p b q = s.pc q := fun q hq => Function.update_of_ne hq ..
  have hsleep : ∀ q c, (update s.pc p b q).chan = some c → (s.pc q).chan = some c := by
    intro q c hq
    by_cases hqp : q = p
    · rw [hqp, update_self, hc] at hq
      cases hq
    · rwa [hne q hqp] at hq
  -- the process with the lock is another one
  have hheld : ∀ r, s.lock = some r → update s.pc p b r = s.pc r := by
    intro r hr
    refine hne r ?_
    rintro rfl
    rw [(h.holds r).2 hr] at hp
    cases hp
  refine ⟨fun q => ?_, fun q hq => ?_, fun q hq => ?_⟩
  · show (update s.pc p b q).holds = true ↔ s.lock = some q
    by_cases hqp : q = p
    · rw [hqp, update_self, hb, ← h.holds p, hp]
    · rw [hne q hqp]
      exact h.holds q
  · obtain ⟨ho, he⟩ := h.reader q (hsleep q _ hq)
    refine ⟨ho, he.imp_right ?_⟩
    rintro ⟨r, hr, hw⟩
    exact ⟨r, hr, by show (update s.pc p b r).writes = true; rw [hheld r hr]; exact hw⟩
  · obtain ⟨ho, he⟩ := h.writer q (hsleep q _ hq)
    refine ⟨ho, he.imp_right ?_⟩
    rintro ⟨r, hr, hw⟩
    exact ⟨r, hr, by show (update s.pc p b r).reads = true; rw [hheld r hr]; exact hw⟩

theorem Waits.kill (h : s.Waits) (q : P) :
    ({ s with
      killed := update s.killed q true
      pc := update s.pc q (s.pc q).rouse } : Pipes P).Waits := by
  cases hq : (s.pc q).holds with
  | false => exact h.aside ((PipePc.holds_rouse _).trans hq) (PipePc.chan_rouse _) hq
  | true =>
    have he : (s.pc q).rouse = s.pc q := by
      cases hpc : s.pc q <;> first | rfl | (rw [hpc] at hq; cases hq)
    rw [he, Function.update_eq_self]
    exact ⟨h.holds, h.reader, h.writer⟩

theorem Waits.enter (h : s.Waits) {b : PipePc} (hb : b.holds = false) (hc : b.chan = none)
    {r : Pipes P × PipeEvent P}
    (hr : (if s.pc p matches .idle then some (s.goto p b, PipeEvent.tau) else none) = some r) :
    r.1.Waits := by
  split at hr
  · rename_i hi
    cases hr
    refine h.aside hb hc ?_
    revert hi
    cases s.pc p <;> simp [PipePc.holds]
  · cases hr

theorem Waits.go (h : s.Waits) {copied : Bool} {r : Pipes P × PipeEvent P}
    (hr : s.go p copied = some r) (hs : ¬s.Slips r.2) : r.1.Waits := by
  unfold Pipes.go at hr
  split at hr
  case h_1 | h_4 | h_9 => cases hr
  case h_2 | h_5 | h_7 | h_10 | h_13 => exact h.acquire rfl hr
  case h_3 src n i hp =>
    cases hr
    exact h.writeTurn copied hp hs
  case h_6 n i hp =>
    cases hr
    have hl : s.lock = some p := (h.holds p).1 (by rw [hp]; rfl)
    refine h.leave_waking hl s.pi .nread rfl ?_ ?_
    · rintro (hc | ⟨hc, -⟩)
      · cases hc
      · exact absurd rfl hc
    · rintro (hc | ⟨-, q, hq⟩)
      · cases hc
      · obtain ⟨ho, hf | hw⟩ := h.writer_mine hl hq
        · exact ⟨hf, ho⟩
        · rw [hp] at hw
          cases hw
  case h_8 n hp =>
    cases hr
    exact h.waitTurn hp
  case h_11 n i hp =>
    cases hr
    exact h.readTurn copied hp
  case h_12 n i hp =>
    cases hr
    have hl : s.lock = some p := (h.holds p).1 (by rw [hp]; rfl)
    refine h.leave_waking hl s.pi .nwrite rfl ?_ ?_
    · rintro (hc | ⟨-, q, hq⟩)
      · cases hc
      · obtain ⟨ho, hf | hw⟩ := h.reader_mine hl hq
        · exact ⟨hf, ho⟩
        · rw [hp] at hw
          cases hw
    · rintro (hc | ⟨hc, -⟩)
      · cases hc
      · exact absurd rfl hc
  case h_14 w hp =>
    cases hr
    exact h.close hp

theorem Waits.next (h : s.Waits) (hn : s.Next e s') (hs : ¬s.Slips e) : s'.Waits := by
  obtain ⟨p, c, hn⟩ := hn
  cases c with
  | go copied => exact h.go hn hs
  | write src n => exact h.enter rfl rfl hn
  | read n => exact h.enter rfl rfl hn
  | close w => exact h.enter rfl rfl hn
  | kill q =>
    cases hn
    exact h.kill q

theorem acquire_tau {b : PipePc} (h : s.acquire p b = some (s', e)) : e = .tau := by
  unfold Pipes.acquire at h
  split at h <;> cases h
  rfl

/-- the return of a process that is in the loop of `pipewrite` wakes nobody -/
theorem writeReturns_loop {n m : CInt} {r : CInt} {src : ℕ → Byte} {i : ℕ}
    (hn : s.Next (.writeReturns p n r) s') (hp : s.pc p = .wLoop src m i) :
    s' = s.release.goto p .idle := by
  obtain ⟨p', c, hn⟩ := hn
  cases c with
  | write | read | close =>
    simp only [Pipes.step] at hn
    split at hn <;> cases hn
  | kill q => cases hn
  | go copied =>
    simp only [Pipes.step, Pipes.go] at hn
    split at hn
    case h_1 | h_4 | h_9 => cases hn
    case h_2 | h_5 | h_7 | h_10 | h_13 => cases acquire_tau hn
    case h_6 hp' =>
      cases hn
      rw [hp] at hp'
      cases hp'
    case h_8 =>
      unfold Pipes.waitTurn at hn
      split at hn
      · split at hn <;> cases hn
      · cases hn
    case h_11 =>
      unfold Pipes.readTurn at hn
      split at hn
      · split at hn
        · cases hn
        · split at hn <;> cases hn
      · cases hn
    case h_12 | h_14 => cases hn
    case h_3 =>
      unfold Pipes.writeTurn at hn
      split at hn
      · split at hn
        · cases hn
          rfl
        · split at hn
          · cases hn
          · split at hn <;> cases hn
      · cases hn

/-- after a step that slips a reader sleeps for no reason, and the lock is free -/
theorem Slips.untold (hs : s.Slips e) (hn : s.Next e s') : s'.lock = none ∧ ¬s'.Told := by
  obtain ⟨p, src, n, i, r, hp, rfl, he, q, hq⟩ := hs
  obtain rfl := writeReturns_loop hn hp
  refine ⟨rfl, fun ht => he (ht.reader q ?_).1⟩
  have hqp : q ≠ p := by
    rintro rfl
    rw [hp] at hq
    cases hq
  rw [goto_ne _ _ hqp]
  exact hq

end Pipes

/-- **wakeups are lost only by a `pipewrite` that is killed between two bytes**: whenever the lock of
the pipe is free, who sleeps in `piperead` waits for a byte of an open end and who sleeps in `pipewrite`
for room, exactly if no `pipewrite` returns from its loop past a sleeping reader and bytes -/
theorem pipe_wakeups_iff {σ : ℕ → Pipes P} {ev : ℕ → Option (PipeEvent P)} (h : Pipes.Run σ ev) :
    (∀ t, (σ t).lock = none → (σ t).Told) ↔ ∀ t e, ev t = some e → ¬(σ t).Slips e := by
  constructor
  · intro ht t e he hs
    obtain ⟨hl, hn⟩ := hs.untold (h.step_of_label he)
    exact hn (ht _ hl)
  · intro hs t
    have hw : ∀ t, (σ t).Waits := by
      intro t
      induction t with
      | zero => exact h.init.waits
      | succ t ih =>
        rcases h.next t with ⟨e, -⟩ | ⟨e, he, hn⟩
        · rw [e]
          exact ih
        · exact ih.next hn (hs t e he)
    exact (hw t).told

/-- a call ends -/
def PipeEvent.returns : PipeEvent P → Bool
  | .writeReturns .. | .readReturns .. => true
  | _ => false

/-- in the loop of `pipewrite` -/
def PipePc.inLoop : PipePc → Bool
  | .wLoop .. => true
  | _ => false

/-- process 1 reads from the empty pipe and sleeps; process 0 writes a byte and wakes it -/
def wakePipeActs : List (Fin 2 × PipeChoice (Fin 2)) :=
  [(1, .read 1), (1, .go true), (1, .go true), (0, .write (fun _ => 7) 1)] ++
    List.replicate 6 (0, .go true) ++ List.replicate 6 (1, .go true)

def wakePipeStep (t : ℕ) (s : Pipes (Fin 2)) : Option (Pipes (Fin 2) × PipeEvent (Fin 2)) :=
  wakePipeActs[t]?.bind fun a => s.step a.1 a.2

theorem wakePipe_run :
    Pipes.Run (Traces.drive wakePipeStep samplePipe) (Traces.labels wakePipeStep samplePipe) := by
  refine Traces.of_drive ⟨rfl, rfl, rfl, rfl, rfl, fun _ => rfl⟩ fun t s s' e h => ?_
  obtain ⟨a, _, ha⟩ := Option.bind_eq_some_iff.1 h
  exact ⟨a.1, a.2, ha⟩

theorem wakePipe_slips (t : ℕ) (e : PipeEvent (Fin 2))
    (he : Traces.labels wakePipeStep samplePipe t = some e) :
    ¬(Traces.drive wakePipeStep samplePipe t).Slips e := by
  have key : ∀ u < 16, (Traces.labels wakePipeStep samplePipe u).any PipeEvent.returns = true →
      ∀ q, ((Traces.drive wakePipeStep samplePipe u).pc q).inLoop = false := by decide +kernel
  rintro ⟨p, src, n, i, r, hp, rfl, -⟩
  have ht : t < 16 := by
    by_contra ht
    have hnone : wakePipeActs[t]? = none :=
      List.getElem?_eq_none (by simpa [wakePipeActs] using ht)
    unfold Traces.labels wakePipeStep at he
    rw [hnone] at he
    cases he
  have hout := key t ht (by rw [he]; rfl) p
  rw [hp] at hout
  cases hout

/-- the reader sleeps, and has read the byte in the end -/
theorem pipe_wakeups_sample :
    ((Traces.drive wakePipeStep samplePipe 3).pc 1).chan = some .nread ∧
    (Traces.drive wakePipeStep samplePipe 3).Told ∧
    (Traces.drive wakePipeStep samplePipe 16).pi.nread = 1 ∧
    (Traces.drive wakePipeStep samplePipe 16).Told := by
  have h3 : (Traces.drive wakePipeStep samplePipe 3).lock = none := by decide +kernel
  have hl : (Traces.drive wakePipeStep samplePipe 16).lock = none := by decide +kernel
  exact ⟨by decide +kernel, (pipe_wakeups_iff wakePipe_run).2 wakePipe_slips 3 h3, by decide +kernel,
    (pipe_wakeups_iff wakePipe_run).2 wakePipe_slips 16 hl⟩

/-! ## Bytes taken by a read -/

/-- a value that is kept up to date in the second loop of `piperead` and kept after it -/
def PipePc.copying {α : Type} (pc : PipePc) (inLoop after before : α) : α :=
  match pc with
  | .rLoop .. => inLoop
  | .rEnd .. => after
  | _ => before

/-- the bytes that `p` has taken from the pipe in the `piperead` it is in or has just left -/
def taken (σ : ℕ → Pipes P) (p : P) : ℕ → ℕ
  | 0 => 0
  | t + 1 => ((σ t).pc p).copying
      (taken σ p t + (if (σ (t + 1)).pi.nread = (σ t).pi.nread then 0 else 1)) (taken σ p t) 0

/-- the event is a copy of `p` that failed -/
def PipeEvent.faultOf (p : P) : PipeEvent P → Bool
  | .fault q => q = p
  | _ => false

/-- a `copyout` of that `piperead` has failed -/
def failed (σ : ℕ → Pipes P) (ev : ℕ → Option (PipeEvent P)) (p : P) : ℕ → Bool
  | 0 => false
  | t + 1 => ((σ t).pc p).copying ((ev t).any (·.faultOf p)) (failed σ ev p t) false

/-- the step is a `copyout` that fails -/
def readFault (s : Pipes P) (e : PipeEvent P) : Bool :=
  match e with
  | .fault p =>
    match s.pc p with
    | .rLoop .. => true
    | _ => false
  | _ => false

namespace Pipes
variable {s s' : Pipes P} {p q : P} {e : PipeEvent P}

/-- what a step of `p` at `a` does, with all there is to know of a reader -/
inductive Reads (s : Pipes P) (p : P) (a : PipePc) :
    PipeEvent P → Pipe → Option P → PipePc → Prop where
  | outside {b : PipePc} (ha : a.holds = false) (hb : b.holds = false) :
      Reads s p a .tau s.pi s.lock b
  | stand (ha : a.holds = true) : Reads s p a .tau s.pi s.lock a
  | take {b : PipePc} (hl : s.lock = none) (ha : a.holds = false) (hb : b.holds = true)
      (hr : b.reads = false) : Reads s p a .tau s.pi (some p) b
  | tau {b : PipePc} (ha : a.writes = true) (hb : b.writes = true) : Reads s p a .tau s.pi s.lock b
  | put {b : PipePc} {ch : Byte} (ha : a.writes = true) (hb : b.writes = true) (hf : ¬s.pi.Full) :
      Reads s p a (.accept ch) (s.pi.put ch) s.lock b
  | writeFault {b : PipePc} (ha : a.writes = true) (hb : b.writes = true) :
      Reads s p a (.fault p) s.pi s.lock b
  | start {n : CInt} (ha : a = .rWait n) : Reads s p a .tau s.pi s.lock (.rLoop n 0)
  | drop {n : CInt} {i : ℕ} (ha : a = .rLoop n i) (hi : (i : ℤ) < n.toInt) (he : ¬s.pi.Empty) :
      Reads s p a (.deliver s.pi.next) s.pi.drop s.lock (.rLoop n (i + 1))
  | readFault {n : CInt} {i : ℕ} (ha : a = .rLoop n i) (hi : (i : ℤ) < n.toInt) (he : ¬s.pi.Empty) :
      Reads s p a (.fault p) s.pi.drop s.lock (.rEnd n i)
  | done {n : CInt} {i : ℕ} (ha : a = .rLoop n i) : Reads s p a .tau s.pi s.lock (.rEnd n i)
  | leave {pi : Pipe} {b : PipePc} (ha : a.holds = true) (hr : a.reads = false) (hb : b.holds = false)
      (hpi : pi.ring = s.pi.ring) : Reads s p a .tau pi none b
  | wrote {n r : CInt} (ha : a.writes = true) : Reads s p a (.writeReturns p n r) s.pi none .idle
  | gaveUp {n : CInt} (ha : a = .rWait n) : Reads s p a (.readReturns p n (-1)) s.pi none .idle
  | read {n : CInt} {i : ℕ} (ha : a = .rEnd n i) :
      Reads s p a (.readReturns p n (BitVec.ofNat 32 i)) s.pi none .idle

/-- a step with `Reads` for the process and `Others` -/
def Deeds (s : Pipes P) (p : P) (a : PipePc) (r : Pipes P × PipeEvent P) : Prop :=
  Reads s p a r.2 r.1.pi r.1.lock (r.1.pc p) ∧ Others s r.1 p

theorem deeds_acquire {a b : PipePc} {r : Pipes P × PipeEvent P} (h : s.acquire p b = some r)
    (ha : a.holds = false) (hb : b.holds = true) (hr : b.reads = false) : Deeds s p a r := by
  unfold Pipes.acquire at h
  split at h
  · rename_i hl
    cases h
    refine ⟨?_, others_goto _ p b⟩
    rw [goto_self]
    exact .take hl ha hb hr
  · cases h

theorem deeds_writeTurn (src : ℕ → Byte) (n : CInt) (i : ℕ) (copied : Bool) :
    Deeds s p (.wLoop src n i) (s.writeTurn p src n i copied) := by
  unfold Pipes.writeTurn
  split
  · split
    · refine ⟨?_, others_goto _ _ _⟩
      rw [goto_self]
      exact .wrote rfl
    · split
      · refine ⟨?_, others_wakeup _ _ _ _⟩
        rw [goto_self]
        exact .leave rfl rfl rfl rfl
      · rename_i hf
        split <;> refine ⟨?_, others_goto _ _ _⟩ <;> rw [goto_self]
        · exact .put rfl rfl hf
        · exact .writeFault rfl rfl
  · refine ⟨?_, others_goto _ _ _⟩
    rw [goto_self]
    exact .tau rfl rfl

theorem deeds_waitTurn (n : CInt) : Deeds s p (.rWait n) (s.waitTurn p n) := by
  unfold Pipes.waitTurn
  split
  · split <;> refine ⟨?_, others_goto _ _ _⟩ <;> rw [goto_self]
    · exact .gaveUp rfl
    · exact .leave rfl rfl rfl rfl
  · refine ⟨?_, others_goto _ _ _⟩
    rw [goto_self]
    exact .start rfl

theorem deeds_readTurn (n : CInt) (i : ℕ) (copied : Bool) :
    Deeds s p (.rLoop n i) (s.readTurn p n i copied) := by
  unfold Pipes.readTurn
  split
  · rename_i hi
    split
    · refine ⟨?_, others_goto _ _ _⟩
      rw [goto_self]
      exact .done rfl
    · rename_i he
      split <;> refine ⟨?_, others_goto _ _ _⟩ <;> rw [goto_self]
      · exact .drop rfl hi he
      · exact .readFault rfl hi he
  · refine ⟨?_, others_goto _ _ _⟩
    rw [goto_self]
    exact .done rfl

theorem deeds_go {copied : Bool} {r : Pipes P × PipeEvent P} (h : s.go p copied = some r) :
    Deeds s p (s.pc p) r := by
  unfold Pipes.go at h
  split at h
  case h_1 | h_4 | h_9 => cases h
  case h_2 hp | h_5 hp | h_7 hp | h_10 hp | h_13 hp =>
    exact deeds_acquire h (by rw [hp]; rfl) rfl rfl
  case h_3 src n i hp =>
    cases h
    rw [hp]
    exact deeds_writeTurn src n i copied
  case h_6 n i hp =>
    cases h
    refine ⟨?_, others_wakeup _ _ _ _⟩
    rw [goto_self, hp]
    exact .wrote rfl
  case h_8 n hp =>
    cases h
    rw [hp]
    exact deeds_waitTurn n
  case h_11 n i hp =>
    cases h
    rw [hp]
    exact deeds_readTurn n i copied
  case h_12 n i hp =>
    cases h
    refine ⟨?_, others_wakeup _ _ _ _⟩
    rw [goto_self, hp]
    exact .read rfl
  case h_14 w hp =>
    cases h
    refine ⟨?_, others_wakeup { s with pi := s.pi.close w } _ _ _⟩
    rw [goto_self, hp]
    exact .leave rfl rfl rfl (Pipe.ring_close s.pi w)

theorem deeds_enter {pc : PipePc} {r : Pipes P × PipeEvent P} (hpc : pc.holds = false)
    (h : (if s.pc p matches .idle then some (s.goto p pc, PipeEvent.tau) else none) = some r) :
    Deeds s p (s.pc p) r := by
  split at h
  · rename_i hi
    cases h
    refine ⟨?_, others_goto _ _ _⟩
    rw [goto_self]
    refine .outside ?_ hpc
    revert hi
    cases s.pc p <;> simp [PipePc.holds]
  · cases h

theorem deeds_of_next (h : s.Next e s') : ∃ p, Deeds s p (s.pc p) (s', e) := by
  obtain ⟨p, c, h⟩ := h
  cases c with
  | go copied => exact ⟨p, deeds_go h⟩
  | write src n => exact ⟨p, deeds_enter rfl h⟩
  | read n => exact ⟨p, deeds_enter rfl h⟩
  | close w => exact ⟨p, deeds_enter rfl h⟩
  | kill q =>
    cases h
    refine ⟨q, ?_, fun r hr => .inl (Function.update_of_ne hr ..)⟩
    show Reads s q _ _ _ _ (update s.pc q _ q)
    rw [update_self]
    cases hq : (s.pc q).holds with
    | false => exact .outside hq ((PipePc.holds_rouse _).trans hq)
    | true =>
      have he : (s.pc q).rouse = s.pc q := by
        cases hpc : s.pc q <;> first | rfl | (rw [hpc] at hq; cases hq)
      rw [he]
      exact .stand hq

/-- the lock is with the process that is where it is held -/
def Held (s : Pipes P) : Prop := ∀ p, (s.pc p).holds = true ↔ s.lock = some p

theorem Reads.holds {a b : PipePc} {pi : Pipe} {lk : Option P} (h : Reads s p a e pi lk b)
    (ha : a.holds = true ↔ s.lock = some p) :
    (b.holds = true ↔ lk = some p) ∧ ∀ q, q ≠ p → (lk = some q → s.lock = some q) := by
  cases h with
  | outside h1 h2 => exact ⟨by rw [h2, ← ha, h1], fun _ _ h => h⟩
  | stand h1 => exact ⟨ha, fun _ _ h => h⟩
  | take _ _ h2 => exact ⟨by simp [h2], fun q hq h => absurd (Option.some.inj h).symm hq⟩
  | tau h1 h2 | put h1 h2 | writeFault h1 h2 =>
    exact ⟨by rw [PipePc.holds_of_writes h2, ← ha, PipePc.holds_of_writes h1], fun _ _ h => h⟩
  | start h1 | drop h1 | readFault h1 | done h1 =>
    subst h1
    exact ⟨ha, fun _ _ h => h⟩
  | leave _ _ h2 => exact ⟨by simp [h2], fun _ _ h => by cases h⟩
  | wrote | gaveUp | read => exact ⟨by simp [PipePc.holds], fun _ _ h => by cases h⟩

/-- without the lock, while it is taken, a process does nothing to the pipe -/
theorem Reads.aside {a b : PipePc} {pi : Pipe} {lk : Option P} (h : Reads s p a e pi lk b)
    (ha : a.holds = false) (hl : s.lock ≠ none) : e = .tau ∧ pi = s.pi ∧ lk = s.lock := by
  cases h with
  | outside => exact ⟨rfl, rfl, rfl⟩
  | take hn => exact absurd hn hl
  | stand h1 | leave h1 => rw [h1] at ha; cases ha
  | tau h1 | put h1 | writeFault h1 | wrote h1 =>
    rw [PipePc.holds_of_writes h1] at ha
    cases ha
  | start h1 | drop h1 | readFault h1 | done h1 | gaveUp h1 | read h1 =>
    subst h1
    cases ha

theorem Held.not_held (hh : s.Held) (hq : (s.pc q).holds = true) (hqp : q ≠ p) :
    (s.pc p).holds = false := by
  rw [Bool.eq_false_iff]
  intro hp
  have := (hh p).1 hp
  rw [(hh q).1 hq] at this
  exact hqp (Option.some.inj this)

/-- another process that has the lock keeps it, and nothing happens to the pipe -/
theorem Held.other (hh : s.Held) (h : Deeds s p (s.pc p) (s', e)) (hq : (s.pc q).holds = true)
    (hqp : q ≠ p) : e = .tau ∧ s'.pi = s.pi ∧ s'.lock = s.lock ∧ s'.pc q = s.pc q := by
  have hl : s.lock ≠ none := by
    rw [(hh q).1 hq]
    simp
  obtain ⟨h1, h2, h3⟩ := h.1.aside (hh.not_held hq hqp) hl
  refine ⟨h1, h2, h3, ?_⟩
  rcases h.2 q hqp with e | e
  · exact e
  · rw [e]
    revert hq
    cases s.pc q <;> simp [PipePc.holds, PipePc.rouse]

theorem Held.next (hh : s.Held) (h : s.Next e s') : s'.Held := by
  obtain ⟨p, hd⟩ := deeds_of_next h
  intro q
  by_cases hqp : q = p
  · rw [hqp]
    exact (hd.1.holds (hh p)).1
  · constructor
    · intro hq
      have hq' : (s.pc q).holds = true := by rwa [hd.2.holds hqp] at hq
      rw [(hh.other hd hq' hqp).2.2.1]
      exact (hh q).1 hq'
    · intro hl
      rw [hd.2.holds hqp]
      exact (hh q).2 ((hd.1.holds (hh p)).2 q hqp hl)

theorem Run.held {σ : ℕ → Pipes P} {ev : ℕ → Option (PipeEvent P)} (h : Run σ ev) (t : ℕ) :
    (σ t).Held := by
  induction t with
  | zero => exact h.init.waits.holds
  | succ t ih =>
    rcases h.next t with ⟨e, -⟩ | ⟨e, -, hn⟩
    · rw [e]
      exact ih
    · exact ih.next hn

/-- what a read at a place has done, when it has taken `k` bytes -/
def Tally (pc : PipePc) (k : ℕ) (fault : Bool) : Prop :=
  match pc with
  | .rLoop n i => k = i ∧ fault = false ∧ (i : ℤ) ≤ max n.toInt 0
  | .rEnd n i => k = i + fault.toNat ∧ (i : ℤ) ≤ max n.toInt 0
  | .idle => True
  | _ => k = 0 ∧ fault = false

theorem tally_zero {pc : PipePc} (h : pc.reads = false) : Tally pc 0 false := by
  cases pc <;> first | exact ⟨rfl, rfl⟩ | trivial

theorem Tally.stand {pc : PipePc} {k : ℕ} {fault : Bool} (h : Tally pc k fault) :
    Tally pc (pc.copying k k 0) (pc.copying false fault false) := by
  cases pc with
  | rLoop n i => exact ⟨h.1, rfl, h.2.2⟩
  | rEnd n i => exact h
  | _ => exact tally_zero rfl

theorem nread_drop (pi : Pipe) : pi.drop.nread ≠ pi.nread := by
  show pi.nread + 1#32 ≠ pi.nread
  intro h
  simp at h

theorem reads_of_holds {pc : PipePc} (h : pc.holds = false) : pc.reads = false := by
  cases pc <;> first | rfl | cases h

theorem reads_of_writes {pc : PipePc} (h : pc.writes = true) : pc.reads = false := by
  cases pc <;> first | rfl | cases h

theorem copying_before {α : Type} {pc : PipePc} (h : pc.reads = false) (x y z : α) :
    pc.copying x y z = z := by
  cases pc <;> first | rfl | cases h

theorem Reads.tally {a b : PipePc} {pi : Pipe} {lk : Option P} (h : Reads s p a e pi lk b) {k : ℕ}
    {fault : Bool} (ha : Tally a k fault) :
    Tally b (a.copying (k + (if pi.nread = s.pi.nread then 0 else 1)) k 0)
      (a.copying (e.faultOf p) fault false) := by
  cases h with
  | outside h1 h2 =>
    rw [copying_before (reads_of_holds h1), copying_before (reads_of_holds h1)]
    exact tally_zero (reads_of_holds h2)
  | stand h1 =>
    rw [if_pos rfl]
    exact ha.stand
  | take _ h1 _ h2 =>
    rw [copying_before (reads_of_holds h1), copying_before (reads_of_holds h1)]
    exact tally_zero h2
  | tau h1 h2 | put h1 h2 | writeFault h1 h2 =>
    rw [copying_before (reads_of_writes h1), copying_before (reads_of_writes h1)]
    exact tally_zero (reads_of_writes h2)
  | start h1 =>
    subst h1
    exact ⟨rfl, rfl, le_max_right _ _⟩
  | drop h1 hi he =>
    subst h1
    obtain ⟨rfl, rfl, -⟩ := ha
    refine ⟨?_, rfl, by omega⟩
    show k + (if s.pi.drop.nread = s.pi.nread then 0 else 1) = k + 1
    rw [if_neg (nread_drop _)]
  | @readFault n i h1 hi he =>
    subst h1
    obtain ⟨rfl, rfl, hle⟩ := ha
    have hf : PipePc.copying (.rLoop n k) ((PipeEvent.fault p).faultOf p) false false = true :=
      decide_eq_true rfl
    rw [hf]
    refine ⟨?_, hle⟩
    show k + (if s.pi.drop.nread = s.pi.nread then 0 else 1) = k + 1
    rw [if_neg (nread_drop _)]
  | done h1 =>
    subst h1
    obtain ⟨rfl, rfl, hle⟩ := ha
    exact ⟨by simp [PipePc.copying, PipeEvent.faultOf], hle⟩
  | leave _ h1 h2 =>
    rw [copying_before h1, copying_before h1]
    exact tally_zero (reads_of_holds h2)
  | wrote | gaveUp | read => trivial

theorem Held.tally (hh : s.Held) (h : s.Next e s') {k : ℕ} {fault : Bool}
    (ha : Tally (s.pc q) k fault) :
    Tally (s'.pc q) ((s.pc q).copying (k + (if s'.pi.nread = s.pi.nread then 0 else 1)) k 0)
      ((s.pc q).copying (e.faultOf q) fault false) := by
  obtain ⟨p, hd⟩ := deeds_of_next h
  by_cases hqp : q = p
  · subst hqp
    exact hd.1.tally ha
  · cases hq : (s.pc q).holds with
    | true =>
      obtain ⟨rfl, hpi, -, hpc⟩ := hh.other hd hq hqp
      rw [hpi, hpc, if_pos rfl]
      exact ha.stand
    | false =>
      rw [copying_before (reads_of_holds hq), copying_before (reads_of_holds hq)]
      refine tally_zero (reads_of_holds ?_)
      rw [hd.2.holds hqp]
      exact hq

theorem Run.tally {σ : ℕ → Pipes P} {ev : ℕ → Option (PipeEvent P)} (h : Run σ ev) (p : P) (t : ℕ) :
    Tally ((σ t).pc p) (taken σ p t) (failed σ ev p t) := by
  induction t with
  | zero =>
    rw [h.init.idle p]
    trivial
  | succ t ih =>
    rw [taken, failed]
    rcases h.next t with ⟨e, he⟩ | ⟨e, he, hn⟩
    · rw [e, he, if_pos rfl]
      exact ih.stand
    · rw [he]
      exact (Run.held h t).tally hn ih

theorem Reads.returns {a b : PipePc} {pi : Pipe} {lk : Option P} {n r : CInt}
    (h : Reads s q a (.readReturns p n r) pi lk b) :
    q = p ∧ (a = .rWait n ∧ r = -1 ∨ ∃ i, a = .rEnd n i ∧ r = BitVec.ofNat 32 i) := by
  cases h with
  | gaveUp h1 => exact ⟨rfl, .inl ⟨h1, rfl⟩⟩
  | read h1 => exact ⟨rfl, .inr ⟨_, h1, rfl⟩⟩

theorem taken_iff {σ : ℕ → Pipes P} {ev : ℕ → Option (PipeEvent P)} (h : Run σ ev) {t : ℕ}
    {n r : CInt} (he : ev t = some (.readReturns p n r)) :
    (taken σ p t : ℤ) = max r.toInt 0 ↔ failed σ ev p t = false := by
  obtain ⟨q, hd⟩ := deeds_of_next (h.step_of_label he)
  obtain ⟨rfl, hr⟩ := hd.1.returns
  have ht := Run.tally h q t
  rcases hr with ⟨ha, rfl⟩ | ⟨i, ha, rfl⟩
  · rw [ha] at ht
    rw [ht.1, ht.2]
    decide
  · rw [ha] at ht
    obtain ⟨hk, hi⟩ := ht
    have hlt := n.toInt_lt
    have hr : (BitVec.ofNat 32 i).toInt = i := by
      have hn : (BitVec.ofNat 32 i).toNat = i := by
        rw [BitVec.toNat_ofNat]
        exact Nat.mod_eq_of_lt (by omega)
      rw [BitVec.toInt_eq_toNat_of_lt (by omega), hn]
    rw [hr, hk]
    cases failed σ ev q t with
    | false => simp
    | true => simp

end Pipes

/-- how many `copyout`s have failed before -/
def lost (σ : ℕ → Pipes P) (ev : ℕ → Option (PipeEvent P)) : ℕ → ℕ
  | 0 => 0
  | t + 1 => lost σ ev t + ((ev t).any (readFault (σ t))).toNat

theorem lost_eq_zero {σ : ℕ → Pipes P} {ev : ℕ → Option (PipeEvent P)} {t : ℕ} :
    lost σ ev t = 0 ↔ ∀ u < t, (ev u).any (readFault (σ u)) = false := by
  induction t with
  | zero => simp [lost]
  | succ t ih =>
    rw [lost, Nat.add_eq_zero_iff, ih]
    constructor
    · rintro ⟨h1, h2⟩ u hu
      rcases Nat.lt_succ_iff_lt_or_eq.1 hu with hu | rfl
      · exact h1 u hu
      · simpa using h2
    · intro h
      exact ⟨fun u hu => h u (by omega), by rw [h t (by omega)]; rfl⟩

namespace Pipes
variable {s s' : Pipes P} {p q : P} {e : PipeEvent P} {l : List (PipeEvent P)}

/-- the bytes accepted, when `k` have been lost: those delivered, those lost and those in the buffer -/
structure Kept (s : Pipes P) (l : List (PipeEvent P)) (k : ℕ) : Prop where
  count : s.pi.ring.count ≤ PIPESIZE
  length : (acceptedBytes l).length = (deliveredBytes l).length + k + s.pi.ring.count
  fifo : k = 0 → acceptedBytes l = deliveredBytes l ++ s.pi.contents

theorem Kept.same {k : ℕ} (h : s.Kept l k) (hr : s'.pi.ring = s.pi.ring)
    (ha : acceptedBytes [e] = []) (hd : deliveredBytes [e] = []) : s'.Kept (l ++ [e]) k := by
  have ha' : acceptedBytes (l ++ [e]) = acceptedBytes l := by
    rw [acceptedBytes, List.filterMap_append]
    exact (congrArg _ ha).trans (List.append_nil _)
  have hd' : deliveredBytes (l ++ [e]) = deliveredBytes l := by
    rw [deliveredBytes, List.filterMap_append]
    exact (congrArg _ hd).trans (List.append_nil _)
  refine ⟨?_, ?_, ?_⟩
  · rw [hr]
    exact h.count
  · rw [ha', hd', hr]
    exact h.length
  · intro hk
    rw [ha', hd', Pipe.contents, hr]
    exact h.fifo hk

theorem readFault_writes (h : (s.pc p).writes = true) : readFault s (.fault p) = false := by
  show (match s.pc p with
    | .rLoop .. => true
    | _ => false) = false
  revert h
  cases s.pc p <;> simp [PipePc.writes]

theorem Kept.next {k : ℕ} (h : s.Kept l k) (hn : s.Next e s') :
    s'.Kept (l ++ [e]) (k + (readFault s e).toNat) := by
  obtain ⟨p, hd, -⟩ := deeds_of_next hn
  dsimp only at hd
  generalize hpi : s'.pi = pi, s'.lock = lk, s'.pc p = b, ha : s.pc p = a at hd
  cases hd with
  | outside | stand | take | tau | start | done | wrote | gaveUp | read =>
    exact h.same (by rw [hpi]) rfl rfl
  | leave _ _ _ hr =>
    subst hpi
    exact h.same hr rfl rfl
  | writeFault h1 =>
    rw [readFault_writes (ha ▸ h1)]
    exact h.same (by rw [hpi]) rfl rfl
  | put _ _ hf =>
    have hlt := Pipe.count_lt h.count hf
    have hlen := h.length
    refine ⟨?_, ?_, ?_⟩
    · rw [hpi, Pipe.count_put _ hlt]
      omega
    · rw [hpi, Pipe.count_put _ hlt, acceptedBytes, deliveredBytes, List.filterMap_append,
        List.filterMap_append, List.length_append, List.length_append]
      show (acceptedBytes l).length + 1 = (deliveredBytes l).length + 0 + k + _
      omega
    · intro hk
      rw [hpi, Pipe.contents_put _ hlt, acceptedBytes, deliveredBytes, List.filterMap_append,
        List.filterMap_append]
      show acceptedBytes l ++ _ = deliveredBytes l ++ [] ++ _
      rw [h.fifo hk]
      simp
  | drop _ _ he =>
    have hlen := h.length
    have hcount : s.pi.ring.count = s.pi.drop.ring.count + 1 := RingBuf.count_pop s.pi.ring he
    have hc := h.count
    refine ⟨?_, ?_, ?_⟩
    · rw [hpi]
      omega
    · rw [hpi, acceptedBytes, deliveredBytes, List.filterMap_append, List.filterMap_append,
        List.length_append, List.length_append]
      show (acceptedBytes l).length + 0 = (deliveredBytes l).length + 1 + k + _
      omega
    · intro hk
      rw [hpi, acceptedBytes, deliveredBytes, List.filterMap_append, List.filterMap_append]
      show acceptedBytes l ++ [] = deliveredBytes l ++ [_] ++ _
      rw [h.fifo hk, Pipe.contents_drop he]
      simp
  | readFault h1 _ he =>
    have hlen := h.length
    have hcount : s.pi.ring.count = s.pi.drop.ring.count + 1 := RingBuf.count_pop s.pi.ring he
    have hc := h.count
    have hf : readFault s (.fault p) = true := by
      simp [readFault, ha, h1]
    rw [hf]
    refine ⟨?_, ?_, ?_⟩
    · rw [hpi]
      omega
    · rw [hpi, acceptedBytes, deliveredBytes, List.filterMap_append, List.filterMap_append,
        List.length_append, List.length_append]
      show (acceptedBytes l).length + 0 = (deliveredBytes l).length + 0 + (k + 1) + _
      omega
    · intro hk
      simp at hk

theorem Run.kept {σ : ℕ → Pipes P} {ev : ℕ → Option (PipeEvent P)} (h : Run σ ev) (t : ℕ) :
    (σ t).Kept (Traces.history ev t) (lost σ ev t) := by
  induction t with
  | zero =>
    have hi := h.init.inv
    refine ⟨hi.count, ?_, fun _ => hi.fifo⟩
    show 0 = 0 + 0 + (σ 0).pi.ring.count
    rw [(RingBuf.count_eq_zero _).2 (h.init.nread.trans h.init.nwrite.symm)]
  | succ t ih =>
    show (σ (t + 1)).Kept (_ ++ (ev t).toList) (lost σ ev t + _)
    rcases h.next t with ⟨e, he⟩ | ⟨e, he, hn⟩
    · rw [e, he, Option.toList_none, List.append_nil]
      exact ih
    · rw [he]
      exact ih.next hn

end Pipes

/-- **a read takes the bytes it returns, and no byte is lost, exactly when no `copyout` of a read
fails**: the byte of a `copyout` that fails has been taken from the pipe and is not counted -/
theorem piperead_keeps_iff {σ : ℕ → Pipes P} {ev : ℕ → Option (PipeEvent P)} (h : Pipes.Run σ ev)
    (t : ℕ) :
    (∀ p n r, ev t = some (.readReturns p n r) →
      ((taken σ p t : ℤ) = max r.toInt 0 ↔ failed σ ev p t = false)) ∧
    (acceptedBytes (Traces.history ev t) =
        deliveredBytes (Traces.history ev t) ++ (σ t).pi.contents ↔
      ∀ u < t, (ev u).any (readFault (σ u)) = false) := by
  refine ⟨fun p n r he => Pipes.taken_iff h he, ?_⟩
  have hk := Pipes.Run.kept h t
  rw [← lost_eq_zero]
  constructor
  · intro heq
    have hlen := hk.length
    rw [heq, List.length_append, Pipe.contents, RingBuf.length_contents] at hlen
    omega
  · exact hk.fifo

/-- the first read of the sample returns one byte, the one it has taken -/
theorem piperead_keeps_sample :
    Traces.labels samplePipeStep samplePipe 12 = some (.readReturns 1 1 1) ∧
    taken (Traces.drive samplePipeStep samplePipe) 1 12 = 1 ∧
    deliveredBytes (Traces.history (Traces.labels samplePipeStep samplePipe) 12) ++
      (Traces.drive samplePipeStep samplePipe 12).pi.contents = [7, 8] := by
  have h := piperead_keeps_iff samplePipe_run 12
  have hev : Traces.labels samplePipeStep samplePipe 12 = some (.readReturns 1 1 1) := by
    decide +kernel
  have ht := (h.1 1 1 1 hev).2 (by decide +kernel)
  rw [show max (BitVec.toInt (1 : CInt)) 0 = ((1 : ℕ) : ℤ) by decide] at ht
  refine ⟨hev, Int.ofNat_inj.1 ht, ?_⟩
  rw [← h.2.2 (by decide +kernel)]
  decide +kernel

/-- process 1 waits for a byte; process 0 writes one of two and is killed -/
def killedWriteActs : List (Fin 2 × PipeChoice (Fin 2)) :=
  [(1, .read 1), (1, .go true), (1, .go true),
   (0, .write (fun _ => 7) 2), (0, .go true), (0, .go true), (1, .kill 0), (0, .go true)]

def killedWriteStep (t : ℕ) (s : Pipes (Fin 2)) : Option (Pipes (Fin 2) × PipeEvent (Fin 2)) :=
  killedWriteActs[t]?.bind fun a => s.step a.1 a.2

theorem killedWrite_run :
    Pipes.Run (Traces.drive killedWriteStep samplePipe) (Traces.labels killedWriteStep samplePipe) := by
  refine Traces.of_drive ⟨rfl, rfl, rfl, rfl, rfl, fun _ => rfl⟩ fun t s s' e h => ?_
  obtain ⟨a, _, ha⟩ := Option.bind_eq_some_iff.1 h
  exact ⟨a.1, a.2, ha⟩

/-- the byte is in the pipe, the lock is free, and the reader sleeps on -/
theorem pipe_wakeup_lost : ∃ (σ : ℕ → Pipes (Fin 2)) (ev : ℕ → Option (PipeEvent (Fin 2))),
    Pipes.Run σ ev ∧ (σ 8).lock = none ∧ ((σ 8).pc 1).chan = some .nread ∧ ¬(σ 8).pi.Empty :=
  ⟨_, _, killedWrite_run, by decide +kernel, by decide +kernel, by decide +kernel⟩

/-- process 0 writes a byte; process 1 reads it to an address that is not mapped -/
def unmappedReadActs : List (Fin 2 × PipeChoice (Fin 2)) :=
  [(0, .write (fun _ => 7) 1), (0, .go true), (0, .go true), (0, .go true), (0, .go true),
   (1, .read 1), (1, .go true), (1, .go true), (1, .go false), (1, .go true)]

def unmappedReadStep (t : ℕ) (s : Pipes (Fin 2)) : Option (Pipes (Fin 2) × PipeEvent (Fin 2)) :=
  unmappedReadActs[t]?.bind fun a => s.step a.1 a.2

theorem unmappedRead_run : Pipes.Run (Traces.drive unmappedReadStep samplePipe)
    (Traces.labels unmappedReadStep samplePipe) := by
  refine Traces.of_drive ⟨rfl, rfl, rfl, rfl, rfl, fun _ => rfl⟩ fun t s s' e h => ?_
  obtain ⟨a, _, ha⟩ := Option.bind_eq_some_iff.1 h
  exact ⟨a.1, a.2, ha⟩

theorem piperead_loses : ∃ (σ : ℕ → Pipes (Fin 2)) (ev : ℕ → Option (PipeEvent (Fin 2))),
    Pipes.Run σ ev ∧ ev 9 = some (.readReturns 1 1 0) ∧
    taken σ 1 9 = 1 ∧ acceptedBytes (Traces.history ev 10) = [7] ∧
    deliveredBytes (Traces.history ev 10) = [] ∧ (σ 10).pi.contents = [] :=
  ⟨_, _, unmappedRead_run, by decide +kernel, by decide +kernel, by decide +kernel,
    by decide +kernel, by decide +kernel⟩

end
end Xv6
