import Xv6.Fs.Step

/-!
# Group commit: `begin_op`, `log_write`, `end_op`

* `FsPc.locks`, `FsPc.commits`   the places with `log.lock`, and those of the committing process;
* `LogMove`   what a step of a process can do to the log: every invariant is derived from it;
* `LogInv`   one process commits, and only when no operation is outstanding; the header lists each
  logged block once;
* `group_commit`   **a commit never splits an operation.**
-/

set_option linter.unusedSectionVars false

namespace Xv6
variable {P : Type} [DecidableEq P] {K : ℕ}

/-! ## places -/

/-- the process has `log.lock` -/
def FsPc.locks : FsPc K → Bool
  | .beginTest => true
  | .beginRel => true
  | .writeBody _ => true
  | .writeRel => true
  | .endBody => true
  | .endRel _ => true
  | .doneBody => true
  | .doneRel => true
  | _ => false

/-- the process commits: from the decision in `end_op` to the end of it -/
def FsPc.commits : FsPc K → Bool
  | .endRel doCommit => doCommit
  | .commitTest => true
  | .writeLog _ _ => true
  | .writeHead _ _ => true
  | .install _ _ => true
  | .clear => true
  | .doneAcq => true
  | .doneBody => true
  | _ => false

/-- the log has been cleared, or there was nothing to commit -/
def FsPc.cleared : FsPc K → Bool
  | .writeHead last _ => last
  | .doneAcq => true
  | .doneBody => true
  | _ => false

/-- whether the process is in an operation there -/
def FsPc.fits (op : Option (Finset Nat)) : FsPc K → Prop
  | .user => True
  | .beginRel => op ≠ none
  | .writeAcq _ => op ≠ none
  | .writeBody _ => op ≠ none
  | .writeRel => op ≠ none
  | .endAcq => op ≠ none
  | .endBody => op ≠ none
  | _ => op = none

/-! ## what a step does to the log -/

/-- the log and the place of process `p`, which has logged `op`, before and after a step of `p` -/
inductive LogMove (p : P) (l : Log P) (pc : FsPc K) (op : Option (Finset Nat)) :
    Log P → FsPc K → Option (Finset Nat) → Prop
  | quiet {pc' : FsPc K} (hl : pc'.locks = pc.locks) (hc : pc'.commits = pc.commits)
      (hf : pc.fits op → pc'.fits op) (hz : pc'.cleared = true → pc.cleared = true ∨ l.lh.n = 0) :
      LogMove p l pc op l pc' op
  | acq {pc' : FsPc K} (h : l.lock = none) (hl : pc.locks = false) (hl' : pc'.locks = true)
      (hc : pc'.commits = pc.commits) (hf : pc.fits op → pc'.fits op)
      (hz : pc'.cleared = true → pc.cleared = true) :
      LogMove p l pc op { l with lock := some p } pc' op
  | rel {pc' : FsPc K} (hl : pc.locks = true) (hl' : pc'.locks = false)
      (hc : pc'.commits = pc.commits) (hf : pc.fits op → pc'.fits op) (hz : pc'.cleared = false) :
      LogMove p l pc op { l with lock := none } pc' op
  /-- `begin_op` lets the operation begin -/
  | start (hpc : pc = .beginTest) (h : l.committing = false)
      (hr : (l.lh.n : Int) + (l.outstanding + 1) * MAXOPBLOCKS ≤ LOGSIZE) :
      LogMove p l pc op { l with outstanding := l.outstanding + 1 } .beginRel (some ∅)
  /-- `log_write` -/
  | write {i : Fin K} (b : Nat) (hpc : pc = .writeBody i) (h : 1 ≤ l.outstanding)
      (hn : l.lh.n < LOGSIZE) :
      LogMove p l pc op { l with lh := l.lh.add b } .writeRel (op.map (insert b))
  /-- the last operation ends -/
  | decide (hpc : pc = .endBody) (h : l.committing = false) (h1 : l.outstanding = 1) :
      LogMove p l pc op { l with outstanding := 0, committing := true } (.endRel true) none
  /-- another one -/
  | leave (hpc : pc = .endBody) (h : l.committing = false) (h1 : l.outstanding ≠ 1) :
      LogMove p l pc op { l with outstanding := l.outstanding - 1 } (.endRel false) none
  | clear (hpc : pc = .clear) :
      LogMove p l pc op { l with lh := l.lh.clear } (.writeHead true .get) op
  | done (hpc : pc = .doneBody) : LogMove p l pc op { l with committing := false } .doneRel op

/-- the step of `p` from `s` to `s'` is such a move -/
def Fs.Moves (p : P) (s s' : Fs P K) : Prop :=
  (∀ q, q ≠ p → s'.thread q = s.thread q) ∧
  LogMove p s.log (s.thread p).pc (s.thread p).op s'.log (s'.thread p).pc (s'.thread p).op

section
variable {p : P} {s s' : Fs P K} {ev : FsEvent} {sb : Superblock}

theorem Fs.Moves.quiet {th : Thread K} (ht : s'.thread = Function.update s.thread p th)
    (hlog : s'.log = s.log) (hop : th.op = (s.thread p).op) (hl : th.pc.locks = (s.thread p).pc.locks)
    (hc : th.pc.commits = (s.thread p).pc.commits)
    (hf : (s.thread p).pc.fits (s.thread p).op → th.pc.fits (s.thread p).op)
    (hz : th.pc.cleared = true → (s.thread p).pc.cleared = true ∨ s.log.lh.n = 0) :
    s.Moves p s' := by
  refine ⟨fun q hq => by rw [ht, Function.update_of_ne hq], ?_⟩
  rw [ht, Function.update_self, hlog, hop]
  exact .quiet hl hc hf hz

theorem callStep_moves (h : callStep p s = .next (s', ev)) : s.Moves p s' := by
  unfold callStep at h
  dsimp only at h
  split at h
  · cases h
  · split at h
    · cases h
      exact .quiet rfl rfl rfl rfl rfl id .inl
    · cases h
  · split at h
    · cases h
      exact .quiet rfl rfl rfl rfl rfl id .inl
    · cases h
  · cases h
    exact .quiet rfl rfl rfl rfl rfl id .inl
  · cases h
    exact .quiet rfl rfl rfl rfl rfl id .inl

theorem lockLog_moves {pc' : FsPc K} (h : lockLog p s pc' = .next (s', ev))
    (hl : (s.thread p).pc.locks = false) (hl' : pc'.locks = true)
    (hc : pc'.commits = (s.thread p).pc.commits)
    (hf : (s.thread p).pc.fits (s.thread p).op → pc'.fits (s.thread p).op)
    (hz : pc'.cleared = true → (s.thread p).pc.cleared = true) : s.Moves p s' := by
  unfold lockLog at h
  split at h
  · rename_i hlock
    cases h
    refine ⟨fun q hq => by simp [hq], ?_⟩
    simp only [Fs.setThread_self, Fs.setThread_log, Fs.withLog_log]
    exact .acq hlock hl hl' hc hf hz
  · cases h

theorem unlockLog_moves {pc' : FsPc K} (h : unlockLog p s pc' = .next (s', ev))
    (hl : (s.thread p).pc.locks = true) (hl' : pc'.locks = false)
    (hc : pc'.commits = (s.thread p).pc.commits)
    (hf : (s.thread p).pc.fits (s.thread p).op → pc'.fits (s.thread p).op)
    (hz : pc'.cleared = false) : s.Moves p s' := by
  cases h
  refine ⟨fun q hq => by simp [hq], ?_⟩
  simp only [Fs.setThread_self, Fs.setThread_log, Fs.withLog_log]
  exact .rel hl hl' hc hf hz

theorem goTo_moves {pc' : FsPc K} (h : goTo p s pc' = .next (s', ev))
    (hl : pc'.locks = (s.thread p).pc.locks) (hc : pc'.commits = (s.thread p).pc.commits)
    (hf : (s.thread p).pc.fits (s.thread p).op → pc'.fits (s.thread p).op)
    (hz : pc'.cleared = true → s.log.lh.n = 0) : s.Moves p s' := by
  cases h
  exact .quiet rfl rfl rfl hl hc hf fun h => .inr (hz h)

theorem userStep_moves {c : FsChoice K} (h : userStep sb p c s = .next (s', ev))
    (hpc : (s.thread p).pc = .user) : s.Moves p s' := by
  unfold userStep at h
  dsimp only at h
  split at h
  · cases h
  · split at h
    · rename_i hop
      cases h
      exact .quiet rfl rfl rfl (by rw [hpc]; rfl) (by rw [hpc]; rfl) (fun _ => hop) nofun
    · cases h
  · split at h
    · cases h
    · rename_i hop
      cases h
      exact .quiet rfl rfl rfl (by rw [hpc]; rfl) (by rw [hpc]; rfl) (fun _ => hop) nofun
  · split at h
    · cases h
      exact .quiet rfl rfl rfl rfl rfl id .inl
    · cases h
  · split at h
    · cases h
      exact .quiet rfl rfl rfl rfl rfl id .inl
    · cases h
  · split at h
    · cases h
      exact .quiet rfl rfl rfl rfl rfl id .inl
    · cases h
  · split at h
    · rename_i hi
      cases h
      exact .quiet rfl rfl rfl (by rw [hpc]; rfl) (by rw [hpc]; rfl) (fun _ => hi.2) nofun
    · cases h

theorem logWriteBody_moves {i : Fin K} (h : logWriteBody sb p i s = .next (s', ev))
    (hpc : (s.thread p).pc = .writeBody i) : s.Moves p s' := by
  unfold logWriteBody at h
  dsimp only at h
  split at h
  · cases h
  · rename_i hbig
    split at h
    · cases h
    · rename_i hout
      cases h
      refine ⟨fun q hq => by simp [hq], ?_⟩
      simp only [Fs.setThread_self, Fs.setThread_log, Fs.withLog_log]
      exact .write _ hpc (by omega) (by omega)

theorem logStep_moves (h : logStep sb p s = .next (s', ev)) : s.Moves p s' := by
  unfold logStep at h
  dsimp only at h
  -- a step within commit changes the place only
  have stay : ∀ {th : Thread K}, s'.thread = Function.update s.thread p th → s'.log = s.log →
      th.op = (s.thread p).op → th.pc.locks = false → th.pc.commits = true →
      (th.pc.fits (s.thread p).op ↔ (s.thread p).op = none) →
      (s.thread p).pc.locks = false → (s.thread p).pc.commits = true →
      ((s.thread p).pc.fits (s.thread p).op ↔ (s.thread p).op = none) →
      (th.pc.cleared = true → (s.thread p).pc.cleared = true) → s.Moves p s' :=
    fun ht hlog hop h1 h2 h3 h4 h5 h6 h7 =>
      .quiet ht hlog hop (h1.trans h4.symm) (h2.trans h5.symm) (h3.trans h6.symm).mpr
        fun h => .inl (h7 h)
  cases hpc : (s.thread p).pc with
  | user =>
    rw [hpc] at h
    cases h
  | beginAcq =>
    rw [hpc] at h
    exact lockLog_moves h (by rw [hpc]; rfl) rfl (by rw [hpc]; rfl) (by rw [hpc]; exact id) nofun
  | beginTest =>
    rw [hpc] at h
    dsimp only at h
    split at h
    · exact unlockLog_moves h (by rw [hpc]; rfl) rfl (by rw [hpc]; rfl) (by rw [hpc]; exact id) rfl
    · rename_i hc
      split at h
      · exact unlockLog_moves h (by rw [hpc]; rfl) rfl (by rw [hpc]; rfl) (by rw [hpc]; exact id) rfl
      · rename_i hr
        cases h
        refine ⟨fun q hq => by simp [hq], ?_⟩
        simp only [Fs.setThread_self, Fs.setThread_log, Fs.withLog_log]
        exact .start hpc (by simpa using hc) (by omega)
  | beginSleep =>
    rw [hpc] at h
    exact goTo_moves h (by rw [hpc]; rfl) (by rw [hpc]; rfl) (by rw [hpc]; exact id) nofun
  | beginRel =>
    rw [hpc] at h
    exact unlockLog_moves h (by rw [hpc]; rfl) rfl (by rw [hpc]; rfl) (fun _ => trivial) rfl
  | writeAcq i =>
    rw [hpc] at h
    exact lockLog_moves h (by rw [hpc]; rfl) rfl (by rw [hpc]; rfl) (by rw [hpc]; exact id) nofun
  | writeBody i =>
    rw [hpc] at h
    exact logWriteBody_moves h hpc
  | writeRel =>
    rw [hpc] at h
    exact unlockLog_moves h (by rw [hpc]; rfl) rfl (by rw [hpc]; rfl) (fun _ => trivial) rfl
  | endAcq =>
    rw [hpc] at h
    exact lockLog_moves h (by rw [hpc]; rfl) rfl (by rw [hpc]; rfl) (by rw [hpc]; exact id) nofun
  | endBody =>
    rw [hpc] at h
    dsimp only at h
    split at h
    · cases h
    · rename_i hc
      have hc' : s.log.committing = false := by simpa using hc
      split at h
      · rename_i h0
        cases h
        refine ⟨fun q hq => by simp [hq], ?_⟩
        simp only [Fs.setThread_self, Fs.setThread_log, Fs.withLog_log]
        rw [h0]
        exact .decide hpc hc' (by omega)
      · rename_i h0
        cases h
        refine ⟨fun q hq => by simp [hq], ?_⟩
        simp only [Fs.setThread_self, Fs.setThread_log, Fs.withLog_log]
        exact .leave hpc hc' (by omega)
  | endRel doCommit =>
    rw [hpc] at h
    cases doCommit with
    | false => exact unlockLog_moves h (by rw [hpc]; rfl) rfl (by rw [hpc]; rfl) (fun _ => trivial) rfl
    | true =>
      exact unlockLog_moves h (by rw [hpc]; rfl) rfl (by rw [hpc]; rfl) (by rw [hpc]; exact id) rfl
  | commitTest =>
    rw [hpc] at h
    dsimp only at h
    split at h
    · exact goTo_moves h (by rw [hpc]; rfl) (by rw [hpc]; rfl) (by rw [hpc]; exact id) nofun
    · rename_i hn
      exact goTo_moves h (by rw [hpc]; rfl) (by rw [hpc]; rfl) (by rw [hpc]; exact id)
        fun _ => by omega
  | writeLog tail r =>
    rw [hpc] at h stay
    dsimp only at h
    split at h
    · split at h <;> cases h <;> exact stay rfl rfl rfl rfl rfl .rfl rfl rfl .rfl id
    all_goals cases h
    all_goals exact stay rfl rfl rfl rfl rfl .rfl rfl rfl .rfl id
  | writeHead last r =>
    rw [hpc] at h stay
    dsimp only at h
    split at h
    all_goals cases h
    all_goals cases last <;> exact stay rfl rfl rfl rfl rfl .rfl rfl rfl .rfl id
  | install tail r =>
    rw [hpc] at h stay
    dsimp only at h
    split at h
    · split at h <;> cases h <;> exact stay rfl rfl rfl rfl rfl .rfl rfl rfl .rfl id
    all_goals cases h
    all_goals exact stay rfl rfl rfl rfl rfl .rfl rfl rfl .rfl id
  | clear =>
    rw [hpc] at h
    cases h
    refine ⟨fun q hq => by simp [hq], ?_⟩
    simp only [Fs.setThread_self, Fs.setThread_log, Fs.withLog_log]
    exact .clear hpc
  | doneAcq =>
    rw [hpc] at h
    exact lockLog_moves h (by rw [hpc]; rfl) rfl (by rw [hpc]; rfl) (by rw [hpc]; exact id)
      (by rw [hpc]; exact id)
  | doneBody =>
    rw [hpc] at h
    cases h
    refine ⟨fun q hq => by simp [hq], ?_⟩
    simp only [Fs.setThread_self, Fs.setThread_log, Fs.withLog_log]
    exact .done hpc
  | doneRel =>
    rw [hpc] at h
    exact unlockLog_moves h (by rw [hpc]; rfl) rfl (by rw [hpc]; rfl) (fun _ => trivial) rfl

/-- **What a step can do to the log.** -/
theorem fsStep_moves {c : FsChoice K} (h : s.step sb p c = .next (s', ev)) : s.Moves p s' := by
  unfold Fs.step at h
  split at h
  · rename_i hpc
    exact userStep_moves h hpc
  · exact logStep_moves h
  · exact callStep_moves h

end

/-! ## the header -/

namespace LogHeader

theorem find_mem {lh : LogHeader} {b : Nat} (h : b ∈ lh.blocks) : lh.find b < lh.n := by
  rw [← lh.blocks_length]
  exact List.idxOf_lt_length_of_mem h

theorem find_not_mem {lh : LogHeader} {b : Nat} (h : b ∉ lh.blocks) : lh.find b = lh.n := by
  rw [← lh.blocks_length]
  exact List.idxOf_of_notMem h

/-- `log_write` of a block that is listed already (log absorption) -/
theorem add_mem {lh : LogHeader} {b : Nat} (h : b ∈ lh.blocks) :
    (lh.add b).n = lh.n ∧ (lh.add b).blocks = lh.blocks := by
  have hi := find_mem h
  have hn : (lh.add b).n = lh.n := if_neg (by omega)
  have hb : lh.block (lh.find b) = b := by
    have hlen : lh.find b < lh.blocks.length := by rwa [lh.blocks_length]
    rw [LogHeader.block_eq hlen]
    exact List.getElem_idxOf hlen
  refine ⟨hn, ?_⟩
  unfold blocks
  rw [hn]
  refine List.map_congr_left fun j _ => ?_
  show Function.update lh.block (lh.find b) b j = lh.block j
  by_cases hj : j = lh.find b
  · rw [hj, Function.update_self, hb]
  · rw [Function.update_of_ne hj]

theorem add_not_mem {lh : LogHeader} {b : Nat} (h : b ∉ lh.blocks) :
    (lh.add b).n = lh.n + 1 ∧ (lh.add b).blocks = lh.blocks ++ [b] := by
  have hi := find_not_mem h
  have hn : (lh.add b).n = lh.n + 1 := if_pos hi
  refine ⟨hn, ?_⟩
  unfold blocks
  rw [hn, List.range_succ, List.map_append]
  show List.map (Function.update lh.block (lh.find b) b) _ ++ _ = _
  congr 1
  · refine List.map_congr_left fun j hj => ?_
    have := List.mem_range.mp hj
    rw [Function.update_of_ne (by omega)]
  · show [Function.update lh.block (lh.find b) b lh.n] = [b]
    rw [hi, Function.update_self]

theorem mem_add {lh : LogHeader} {b b' : Nat} :
    b' ∈ (lh.add b).blocks ↔ b' ∈ lh.blocks ∨ b' = b := by
  by_cases h : b ∈ lh.blocks
  · rw [(add_mem h).2]
    constructor
    · exact .inl
    · rintro (hb | rfl)
      · exact hb
      · exact h
  · rw [(add_not_mem h).2]
    simp

theorem nodup_add {lh : LogHeader} {b : Nat} (h : lh.blocks.Nodup) : (lh.add b).blocks.Nodup := by
  by_cases hb : b ∈ lh.blocks
  · rw [(add_mem hb).2]
    exact h
  · rw [(add_not_mem hb).2]
    exact List.nodup_append.mpr ⟨h, List.nodup_singleton b, by
      intro x hx y hy hxy
      rw [List.mem_singleton] at hy
      exact hb (hy ▸ hxy ▸ hx)⟩

end LogHeader

/-! ## events and panics -/

section
variable (sb : Superblock) (p : P) (s : Fs P K) (c : FsChoice K)

/-- nothing that a client sees, and no panic -/
def Outcome.Plain : Outcome (Fs P K × FsEvent) → Prop
  | .next (_, .tau) => True
  | .blocked => True
  | _ => False

theorem userStep_plain : (userStep sb p c s).Plain := by
  unfold userStep
  dsimp only
  split
  · trivial
  all_goals split <;> trivial

theorem lockLog_plain (pc : FsPc K) : (lockLog p s pc).Plain := by
  unfold lockLog
  split <;> trivial

theorem logStep_plain : (∃ i, (s.thread p).pc = .writeBody i) ∨
    ((s.thread p).pc = .endBody ∧ s.log.committing = true) ∨ (logStep sb p s).Plain := by
  cases hpc : (s.thread p).pc with
  | writeBody i => exact .inl ⟨i, rfl⟩
  | endBody =>
    by_cases hc : s.log.committing = true
    · exact .inr (.inl ⟨rfl, hc⟩)
    · refine .inr (.inr ?_)
      unfold logStep
      dsimp only
      rw [hpc]
      dsimp only
      rw [if_neg hc]
      split <;> trivial
  | writeLog tail r | writeHead last r | install tail r =>
    refine .inr (.inr ?_)
    unfold logStep
    dsimp only
    rw [hpc]
    dsimp only
    split
    all_goals first | trivial | (split <;> trivial)
  | beginAcq | writeAcq i | endAcq | doneAcq =>
    refine .inr (.inr ?_)
    unfold logStep
    dsimp only
    rw [hpc]
    exact lockLog_plain p s _
  | beginTest =>
    refine .inr (.inr ?_)
    unfold logStep
    dsimp only
    rw [hpc]
    dsimp only
    split
    · trivial
    · split <;> trivial
  | commitTest =>
    refine .inr (.inr ?_)
    unfold logStep
    dsimp only
    rw [hpc]
    dsimp only
    split <;> trivial
  | user | beginSleep | beginRel | writeRel | endRel _ | clear | doneBody | doneRel =>
    refine .inr (.inr ?_)
    unfold logStep
    dsimp only
    rw [hpc]
    trivial

theorem callStep_cases : (callStep p s).Plain ∨ (∃ s' b x, callStep p s = .next (s', .read b x)) ∨
    callStep p s = .panic "bget: no buffers" := by
  unfold callStep
  dsimp only
  split
  · exact .inl trivial
  · split
    · exact .inl trivial
    · exact .inr (.inr rfl)
  · rename_i i _
    split
    · rcases (s.thread p).pc.readEvent_cases (s.cache.buf i).blockno _ with he | ⟨-, he⟩ <;> rw [he]
      · exact .inl trivial
      · exact .inr (.inl ⟨_, _, _, rfl⟩)
    · exact .inl trivial
  · exact .inl trivial
  · exact .inl trivial

theorem logStep_write {sb : Superblock} {p : P} {s : Fs P K} {i : Fin K}
    (hpc : (s.thread p).pc = .writeBody i) : logStep sb p s = logWriteBody sb p i s := by
  unfold logStep
  dsimp only
  rw [hpc]

end

section
variable {sb : Superblock} {p : P} {s s' : Fs P K} {c : FsChoice K}

theorem fsStep_log {b : Nat} {x : Block} (h : s.step sb p c = .next (s', .log b x)) :
    s'.log.lh = s.log.lh.add b ∧
    ∃ i, (s.thread p).pc = .writeBody i ∧ (s.cache.buf i).blockno = b ∧ (s.cache.buf i).data = x := by
  unfold Fs.step at h
  split at h
  · have := userStep_plain sb p s c
    rw [h] at this
    exact this.elim
  · rcases logStep_plain sb p s with ⟨i, hpc⟩ | ⟨hpc, hc⟩ | hp
    · rw [logStep_write hpc] at h
      unfold logWriteBody at h
      dsimp only at h
      split at h
      · cases h
      · split at h
        · cases h
        · cases h
          exact ⟨rfl, i, hpc, rfl, rfl⟩
    · unfold logStep at h
      dsimp only at h
      rw [hpc] at h
      dsimp only at h
      rw [if_pos hc] at h
      cases h
    · rw [h] at hp
      exact hp.elim
  · rcases callStep_cases p s with hp | ⟨_, _, _, hr⟩ | hr
    · rw [h] at hp
      exact hp.elim
    · cases h.symm.trans hr
    · cases h.symm.trans hr

theorem fsStep_panic {msg : String} (h : s.step sb p c = .panic msg) :
    msg = "bget: no buffers" ∨
    msg = "too big a transaction" ∧ (∃ i, (s.thread p).pc = .writeBody i) ∧
      (LOGSIZE ≤ s.log.lh.n ∨ (sb.nlog : Int) - 1 ≤ s.log.lh.n) ∨
    msg = "log_write outside of trans" ∧ (∃ i, (s.thread p).pc = .writeBody i) ∧
      s.log.outstanding < 1 ∨
    msg = "log.committing" ∧ (s.thread p).pc = .endBody ∧ s.log.committing = true := by
  unfold Fs.step at h
  split at h
  · have := userStep_plain sb p s c
    rw [h] at this
    exact this.elim
  · rcases logStep_plain sb p s with ⟨i, hpc⟩ | ⟨hpc, hc⟩ | hp
    · rw [logStep_write hpc] at h
      unfold logWriteBody at h
      dsimp only at h
      split at h
      · rename_i hbig
        cases h
        exact .inr (.inl ⟨rfl, ⟨i, hpc⟩, hbig⟩)
      · split at h
        · rename_i hout
          cases h
          exact .inr (.inr (.inl ⟨rfl, ⟨i, hpc⟩, hout⟩))
        · cases h
    · unfold logStep at h
      dsimp only at h
      rw [hpc] at h
      dsimp only at h
      rw [if_pos hc] at h
      cases h
      exact .inr (.inr (.inr ⟨rfl, hpc, hc⟩))
    · rw [h] at hp
      exact hp.elim
  · rcases callStep_cases p s with hp | ⟨_, _, _, hr⟩ | hr
    · rw [h] at hp
      exact hp.elim
    · cases h.symm.trans hr
    · cases h.symm.trans hr
      exact .inl rfl

end

/-! ## the invariant -/

variable [Fintype P]

/-- the processes in an operation -/
def Fs.ops (s : Fs P K) : Finset P := Finset.univ.filter fun p => (s.thread p).op ≠ none

theorem Fs.mem_ops {s : Fs P K} {p : P} : p ∈ s.ops ↔ (s.thread p).op ≠ none := by
  simp [Fs.ops]

structure Fs.LogInv (s : Fs P K) : Prop where
  lock : ∀ p, s.log.lock = some p ↔ (s.thread p).pc.locks = true
  fits : ∀ p, (s.thread p).pc.fits (s.thread p).op
  count : s.log.outstanding = s.ops.card
  comm : s.log.committing = true ↔ ∃ p, (s.thread p).pc.commits = true
  only : ∀ p q, (s.thread p).pc.commits = true → (s.thread q).pc.commits = true → p = q
  quiet : s.log.committing = true → ∀ p, (s.thread p).op = none
  cleared : ∀ p, (s.thread p).pc.cleared = true → s.log.lh.n = 0
  nodup : s.log.lh.blocks.Nodup
  logged : ∀ p used, (s.thread p).op = some used → ∀ b ∈ used, b ∈ s.log.lh.blocks
  empty : s.log.committing = false → s.log.outstanding = 0 → s.log.lh.n = 0

section
variable {p : P} {s s' : Fs P K}

theorem Fs.ops_same (hne : ∀ q, q ≠ p → s'.thread q = s.thread q)
    (h : (s'.thread p).op = none ↔ (s.thread p).op = none) : s'.ops = s.ops := by
  ext q
  rw [Fs.mem_ops, Fs.mem_ops]
  by_cases hq : q = p
  · rw [hq]
    exact not_congr h
  · rw [hne q hq]

theorem Fs.ops_enter (hne : ∀ q, q ≠ p → s'.thread q = s.thread q) (h : (s.thread p).op = none)
    (h' : (s'.thread p).op ≠ none) : s'.ops.card = s.ops.card + 1 := by
  have hp : p ∉ s.ops := fun hp => Fs.mem_ops.mp hp h
  have : s'.ops = insert p s.ops := by
    ext q
    rw [Finset.mem_insert, Fs.mem_ops, Fs.mem_ops]
    by_cases hq : q = p
    · simp [hq, h']
    · simp [hq, hne q hq]
  rw [this, Finset.card_insert_of_notMem hp]

theorem Fs.ops_leave (hne : ∀ q, q ≠ p → s'.thread q = s.thread q) (h : (s.thread p).op ≠ none)
    (h' : (s'.thread p).op = none) : s'.ops.card + 1 = s.ops.card :=
  (Fs.ops_enter (fun q hq => (hne q hq).symm) h' h).symm

end

/-! ## one aspect of a move after the other -/

namespace LogMove
variable {p : P} {l l' : Log P} {pc pc' : FsPc K} {op op' : Option (Finset Nat)}

theorem lock (hm : LogMove p l pc op l' pc' op') (h : l.lock = some p ↔ pc.locks = true) :
    (l'.lock = some p ↔ pc'.locks = true) ∧ ∀ q, q ≠ p → (l'.lock = some q ↔ l.lock = some q) := by
  cases hm with
  | quiet hl => exact ⟨by rw [hl]; exact h, fun _ _ => .rfl⟩
  | acq h0 hl hl' =>
    refine ⟨iff_of_true rfl hl', fun q hq => iff_of_false ?_ (by rw [h0]; nofun)⟩
    intro e
    exact hq (Option.some.inj e).symm
  | rel hl hl' =>
    refine ⟨iff_of_false nofun (by rw [hl']; nofun), fun q hq => iff_of_false nofun ?_⟩
    rw [h.mpr hl]
    intro e
    exact hq (Option.some.inj e).symm
  | start hpc | write _ hpc | decide hpc | leave hpc | done hpc =>
    subst hpc
    exact ⟨h.trans ⟨fun _ => rfl, fun _ => rfl⟩, fun _ _ => .rfl⟩
  | clear hpc =>
    subst hpc
    exact ⟨h, fun _ _ => .rfl⟩

theorem fits (hm : LogMove p l pc op l' pc' op') (h : pc.fits op) : pc'.fits op' := by
  cases hm with
  | quiet _ _ hf _ | acq _ _ _ _ hf _ | rel _ _ _ hf _ => exact hf h
  | start => exact Option.some_ne_none ∅
  | write b hpc =>
    subst hpc
    cases op with
    | none => exact absurd rfl h
    | some used => exact Option.some_ne_none _
  | decide | leave => rfl
  | clear hpc | done hpc =>
    subst hpc
    exact h

theorem commits (hm : LogMove p l pc op l' pc' op') :
    l'.committing = l.committing ∧ pc'.commits = pc.commits ∨
    l.committing = false ∧ l'.committing = true ∧ pc'.commits = true ∧ l.outstanding = 1 ∧
      op' = none ∧ pc = .endBody ∨
    l'.committing = false ∧ pc.commits = true ∧ pc'.commits = false ∧ pc.cleared = true ∧
      l'.lh = l.lh := by
  cases hm with
  | quiet _ hc | acq _ _ _ hc | rel _ _ hc => exact .inl ⟨rfl, hc⟩
  | start hpc | write _ hpc | leave hpc | clear hpc =>
    subst hpc
    exact .inl ⟨rfl, rfl⟩
  | decide hpc hc h1 => exact .inr (.inl ⟨hc, rfl, rfl, h1, rfl, hpc⟩)
  | done hpc =>
    subst hpc
    exact .inr (.inr ⟨rfl, rfl, rfl, rfl, rfl⟩)

theorem ops (hm : LogMove p l pc op l' pc' op') (h : pc.fits op) :
    (op' = none ↔ op = none) ∧ l'.outstanding = l.outstanding ∨
    op = none ∧ op' = some ∅ ∧ l'.outstanding = l.outstanding + 1 ∧ l.committing = false ∨
    op ≠ none ∧ op' = none ∧ l'.outstanding = l.outstanding - 1 ∧
      (l'.outstanding = 0 → l'.committing = true) := by
  cases hm with
  | quiet | acq | rel | clear | done => exact .inl ⟨.rfl, rfl⟩
  | start hpc hc =>
    subst hpc
    exact .inr (.inl ⟨h, rfl, rfl, hc⟩)
  | write => exact .inl ⟨Option.map_eq_none_iff, rfl⟩
  | decide hpc _ h1 =>
    subst hpc
    exact .inr (.inr ⟨h, rfl, by show (0 : Int) = _; omega, fun _ => rfl⟩)
  | leave hpc _ h1 =>
    subst hpc
    exact .inr (.inr ⟨h, rfl, rfl, fun h0 => absurd h0 (by show l.outstanding - 1 ≠ 0; omega)⟩)

theorem header (hm : LogMove p l pc op l' pc' op') :
    l'.lh = l.lh ∧ (op' = op ∨ op' = none ∨ op' = some ∅) ∨
    (∃ b, l'.lh = l.lh.add b ∧ op' = op.map (insert b) ∧ 1 ≤ l.outstanding ∧
      l'.outstanding = l.outstanding) ∨
    l'.lh = l.lh.clear ∧ op' = op ∧ pc = .clear ∧ pc' = .writeHead true .get := by
  cases hm with
  | quiet | acq | rel | done => exact .inl ⟨rfl, .inl rfl⟩
  | start => exact .inl ⟨rfl, .inr (.inr rfl)⟩
  | decide | leave => exact .inl ⟨rfl, .inr (.inl rfl)⟩
  | write b _ h1 => exact .inr (.inl ⟨b, rfl, rfl, h1, rfl⟩)
  | clear hpc => exact .inr (.inr ⟨rfl, rfl, hpc, rfl⟩)

theorem cleared (hm : LogMove p l pc op l' pc' op') (h : pc'.cleared = true) :
    (pc.cleared = true ∨ l.lh.n = 0) ∧ l'.lh = l.lh ∨ l'.lh.n = 0 := by
  cases hm with
  | quiet _ _ _ hz => exact .inl ⟨hz h, rfl⟩
  | acq _ _ _ _ _ hz => exact .inl ⟨.inl (hz h), rfl⟩
  | rel _ _ _ _ hz =>
    rw [hz] at h
    cases h
  | start | write | decide | leave | done => cases h
  | clear => exact .inr rfl

end LogMove

section
variable {p : P} {s s' : Fs P K}

theorem Fs.LogInv.committing_of (h : s.LogInv) {q : P} (hq : (s.thread q).pc.commits = true) :
    s.log.committing = true := h.comm.mpr ⟨q, hq⟩

theorem Fs.LogInv.outstanding (h : s.LogInv) (hc : s.log.committing = true) :
    s.log.outstanding = 0 := by
  rw [h.count]
  have : s.ops = ∅ := by
    ext q
    rw [Fs.mem_ops]
    simp [h.quiet hc q]
  rw [this]
  rfl

theorem FsPc.commits_of_cleared {pc : FsPc K} (h : pc.cleared = true) : pc.commits = true := by
  cases pc with
  | writeHead last => rfl
  | doneAcq => rfl
  | doneBody => rfl
  | _ => cases h

/-- **Every step keeps the invariant.** -/
theorem Fs.LogInv.move (h : s.LogInv) (hm : s.Moves p s') : s'.LogInv := by
  obtain ⟨hne, hm⟩ := hm
  have hfits := h.fits p
  have hcases : ∀ q, q = p ∨ q ≠ p ∧ s'.thread q = s.thread q := fun q =>
    (em (q = p)).imp id fun hq => ⟨hq, hne q hq⟩
  refine ⟨fun q => ?_, fun q => ?_, ?_, ?_, fun q q' hq hq' => ?_, fun hc q => ?_, fun q hq => ?_, ?_,
    fun q used hu b hb => ?_, fun hc h0 => ?_⟩
  · obtain ⟨h1, h2⟩ := hm.lock (h.lock p)
    rcases hcases q with rfl | ⟨hq, e⟩
    · exact h1
    · rw [e]
      exact (h2 q hq).trans (h.lock q)
  · rcases hcases q with rfl | ⟨-, e⟩
    · exact hm.fits hfits
    · rw [e]
      exact h.fits q
  · have hcount := h.count
    rcases hm.ops hfits with ⟨h1, h2⟩ | ⟨h1, h2, h3, -⟩ | ⟨h1, h2, h3, -⟩
    · rw [h2, Fs.ops_same hne h1]
      exact hcount
    · have := Fs.ops_enter hne h1 (by rw [h2]; nofun)
      omega
    · have := Fs.ops_leave hne h1 h2
      omega
  · rcases hm.commits with ⟨h1, h2⟩ | ⟨-, h1, h2, -⟩ | ⟨h1, h2, h3, -⟩
    · rw [h1, h.comm]
      constructor
      · rintro ⟨q, hq⟩
        rcases hcases q with rfl | ⟨-, e⟩
        · exact ⟨q, h2.trans hq⟩
        · exact ⟨q, by rw [e]; exact hq⟩
      · rintro ⟨q, hq⟩
        rcases hcases q with rfl | ⟨-, e⟩
        · exact ⟨q, h2.symm.trans hq⟩
        · exact ⟨q, by rw [← e]; exact hq⟩
    · exact iff_of_true h1 ⟨p, h2⟩
    · refine iff_of_false (by rw [h1]; nofun) ?_
      rintro ⟨q, hq⟩
      rcases hcases q with rfl | ⟨hqp, e⟩
      · rw [h3] at hq
        cases hq
      · rw [e] at hq
        exact hqp (h.only q p hq h2)
  · rcases hm.commits with ⟨h1, h2⟩ | ⟨h1, -, h2, -⟩ | ⟨-, h2, h3, -⟩
    · have back : ∀ q, (s'.thread q).pc.commits = true → (s.thread q).pc.commits = true := by
        intro q hq
        rcases hcases q with rfl | ⟨-, e⟩
        · exact h2.symm.trans hq
        · rw [← e]
          exact hq
      exact h.only q q' (back q hq) (back q' hq')
    · have only : ∀ q, (s'.thread q).pc.commits = true → q = p := by
        intro q hq
        rcases hcases q with rfl | ⟨-, e⟩
        · rfl
        · rw [e] at hq
          rw [h.committing_of hq] at h1
          cases h1
      rw [only q hq, only q' hq']
    · have none_ : ∀ q, (s'.thread q).pc.commits ≠ true := by
        intro q hq
        rcases hcases q with rfl | ⟨hqp, e⟩
        · rw [h3] at hq
          cases hq
        · rw [e] at hq
          exact hqp (h.only q p hq h2)
      exact absurd hq (none_ q)
  · rcases hm.commits with ⟨h1, h2⟩ | ⟨-, -, -, h1, h2, h3⟩ | ⟨h1, -⟩
    · rw [h1] at hc
      rcases hcases q with rfl | ⟨-, e⟩
      · rcases hm.ops hfits with ⟨h3, -⟩ | ⟨-, -, -, h3⟩ | ⟨-, h3, -⟩
        · exact h3.mpr (h.quiet hc q)
        · rw [h3] at hc
          cases hc
        · exact h3
      · rw [e]
        exact h.quiet hc q
    · rcases hcases q with rfl | ⟨hqp, e⟩
      · exact h2
      · -- the last operation was that of `p`
        rw [e]
        by_contra hop
        rw [h3] at hfits
        have hcard : s.ops.card ≤ 1 := by
          have := h.count
          omega
        exact hqp (Finset.card_le_one.mp hcard q (Fs.mem_ops.mpr hop) p (Fs.mem_ops.mpr hfits))
    · rw [h1] at hc
      cases hc
  · rcases hcases q with rfl | ⟨hqp, e⟩
    · rcases hm.cleared hq with ⟨h1 | h1, h2⟩ | h1
      · rw [h2]
        exact h.cleared q h1
      · rw [h2]
        exact h1
      · exact h1
    · rw [e] at hq
      have hn := h.cleared q hq
      have h0 := h.outstanding (h.committing_of (FsPc.commits_of_cleared hq))
      rcases hm.header with ⟨h1, -⟩ | ⟨b, -, -, h1, -⟩ | ⟨h1, -⟩
      · rw [h1]
        exact hn
      · omega
      · rw [h1]
        rfl
  · rcases hm.header with ⟨h1, -⟩ | ⟨b, h1, -⟩ | ⟨h1, -⟩
    · rw [h1]
      exact h.nodup
    · rw [h1]
      exact LogHeader.nodup_add h.nodup
    · rw [h1]
      exact List.nodup_nil
  · rcases hm.header with ⟨h1, h2⟩ | ⟨b', h1, h2, -⟩ | ⟨h1, h2, h3⟩
    · rw [h1]
      rcases hcases q with rfl | ⟨-, e⟩
      · rcases h2 with h2 | h2 | h2
        · exact h.logged q used (h2.symm.trans hu) b hb
        · cases h2.symm.trans hu
        · cases h2.symm.trans hu
          exact absurd hb (Finset.notMem_empty b)
      · rw [e] at hu
        exact h.logged q used hu b hb
    · rw [h1, LogHeader.mem_add]
      rcases hcases q with rfl | ⟨-, e⟩
      · obtain ⟨used', hu', rfl⟩ := Option.map_eq_some_iff.mp (h2.symm.trans hu)
        rcases Finset.mem_insert.mp hb with rfl | hb
        · exact .inr rfl
        · exact .inl (h.logged q used' hu' b hb)
      · rw [e] at hu
        exact .inl (h.logged q used hu b hb)
    · have hnone := h.quiet (h.committing_of (by rw [h3.1]; rfl)) q
      rcases hcases q with rfl | ⟨-, e⟩
      · cases (h2.trans hnone).symm.trans hu
      · rw [e, hnone] at hu
        cases hu
  · rcases hm.commits with ⟨h1, -⟩ | ⟨-, h1, -⟩ | ⟨-, -, -, h1, h2⟩
    · rw [h1] at hc
      rcases hm.header with ⟨h2, -⟩ | ⟨b, -, -, h2, h3⟩ | ⟨h2, -⟩
      · rw [h2]
        rcases hm.ops hfits with ⟨-, h3⟩ | ⟨-, -, h3, -⟩ | ⟨-, -, -, h3⟩
        · exact h.empty hc (h3.symm.trans h0)
        · have := h.count
          omega
        · rw [← h1, h3 h0] at hc
          cases hc
      · omega
      · rw [h2]
        rfl
    · rw [h1] at hc
      cases hc
    · rw [h2]
      exact h.cleared p h1

theorem Fs.LogInv.init (h : s.Init) : s.LogInv := by
  have hop : ∀ q, (s.thread q).op = none := fun q => by rw [h.thread]; rfl
  have hpc : ∀ q, (s.thread q).pc = .user := fun q => by rw [h.thread]; rfl
  have hops : s.ops = ∅ := by
    ext q
    rw [Fs.mem_ops]
    simp [hop q]
  refine ⟨fun q => ?_, fun q => ?_, ?_, ?_, fun q _ hq => ?_, fun _ => hop, fun q hq => ?_, ?_,
    fun q _ hu => ?_, fun _ _ => h.empty⟩
  · rw [h.lock, hpc]
    exact iff_of_false nofun nofun
  · rw [hpc]
    trivial
  · rw [h.outstanding, hops]
    rfl
  · rw [h.committing]
    refine iff_of_false nofun ?_
    rintro ⟨q, hq⟩
    rw [hpc] at hq
    cases hq
  · rw [hpc] at hq
    cases hq
  · rw [hpc] at hq
    cases hq
  · unfold LogHeader.blocks
    rw [h.empty]
    exact List.nodup_nil
  · cases (hop q).symm.trans hu

end

section
variable {sb : Superblock} {σ : ℕ → Fs P K} {ev : ℕ → FsEvent}

theorem Fs.LogInv.of_run (h : Fs.Run sb σ ev) (t : ℕ) : (σ t).LogInv := by
  induction t with
  | zero => exact .init h.init
  | succ t ih =>
    rcases h.next t with ⟨e, -⟩ | ⟨p, c, e⟩
    · rw [e]
      exact ih
    · exact ih.move (fsStep_moves e)

/-! ## commits and operations -/

/-- the step from `s` to `s'` is `log.lh.n = 0` in `commit`: all that the header lists is installed -/
def Fs.Clears (s s' : Fs P K) : Prop :=
  ∃ p, (s.thread p).pc = .clear ∧ (s'.thread p).pc = .writeHead true .get

theorem Fs.header_stays (h : Fs.Run sb σ ev) {t : ℕ} {b : Nat} (hb : b ∈ (σ t).log.lh.blocks)
    (hc : ¬ (σ t).Clears (σ (t + 1))) : b ∈ (σ (t + 1)).log.lh.blocks := by
  rcases h.next t with ⟨e, -⟩ | ⟨p, c, e⟩
  · rw [e]
    exact hb
  · rcases (fsStep_moves e).2.header with ⟨h1, -⟩ | ⟨b', h1, -⟩ | ⟨-, -, h1, h2⟩
    · rw [h1]
      exact hb
    · rw [h1]
      exact LogHeader.mem_add.mpr (.inl hb)
    · exact absurd ⟨p, h1, h2⟩ hc

/-- **Group commit never splits an operation.**  In every run:
while a process commits no operation is outstanding, it is the only one to commit, and no other process
changes the header;
what a process logs in an operation stays in the header until the first `log.lh.n = 0` after the
operation, and no commit is going on during the operation;
the header lists every block once;
and neither `end_op` panics nor does `log_write` find itself outside of a transaction. -/
theorem group_commit (h : Fs.Run sb σ ev) :
    (∀ t, (σ t).log.committing = true → (σ t).log.outstanding = 0 ∧
      ∃ p, ((σ t).thread p).pc.commits = true ∧ ∀ q c s' e, q ≠ p →
        ((σ t).thread q).pc.commits = false ∧
        ((σ t).step sb q c = .next (s', e) → s'.log.lh = (σ t).log.lh)) ∧
    (∀ p t0 t1, (∀ t, t0 ≤ t → t ≤ t1 → ((σ t).thread p).op ≠ none) →
      (∀ t, t0 ≤ t → t ≤ t1 → (σ t).log.committing = false) ∧
      ∀ s c b x, t0 ≤ s → s < t1 → (σ s).step sb p c = .next (σ (s + 1), .log b x) →
        ∀ t, s < t → (∀ u, t1 ≤ u → u < t → ¬ (σ u).Clears (σ (u + 1))) →
          b ∈ (σ t).log.lh.blocks) ∧
    (∀ t, (σ t).log.lh.blocks.Nodup) ∧
    ∀ t p c, (σ t).step sb p c ≠ .panic "log.committing" ∧
      (σ t).step sb p c ≠ .panic "log_write outside of trans" := by
  have inv := Fs.LogInv.of_run h
  refine ⟨fun t hc => ⟨(inv t).outstanding hc, ?_⟩, fun p t0 t1 hop => ?_, fun t => (inv t).nodup,
    fun t p c => ⟨fun hp => ?_, fun hp => ?_⟩⟩
  · obtain ⟨p, hp⟩ := (inv t).comm.mp hc
    refine ⟨p, hp, fun q c s' e hq => ?_⟩
    have hqc : ((σ t).thread q).pc.commits = false := by
      rw [← Bool.not_eq_true]
      exact fun hqc => hq ((inv t).only q p hqc hp)
    refine ⟨hqc, fun hstep => ?_⟩
    have h0 := (inv t).outstanding hc
    rcases (fsStep_moves hstep).2.header with ⟨h1, -⟩ | ⟨b, -, -, h1, -⟩ | ⟨-, -, h1, -⟩
    · exact h1
    · omega
    · rw [h1] at hqc
      cases hqc
  · have hno : ∀ t, t0 ≤ t → t ≤ t1 → (σ t).log.committing = false := by
      intro t ht ht'
      rw [← Bool.not_eq_true]
      exact fun hc => hop t ht ht' ((inv t).quiet hc p)
    refine ⟨hno, fun s c b x hs hs' hlog t ht hclear => ?_⟩
    induction t, ht using Nat.le_induction with
    | base =>
      rw [(fsStep_log hlog).1]
      exact LogHeader.mem_add.mpr (.inr rfl)
    | succ t ht ih =>
      refine Fs.header_stays h (ih fun u hu hut => hclear u hu (by omega)) ?_
      by_cases htt : t1 ≤ t
      · exact hclear t htt (by omega)
      · rintro ⟨q, hq, -⟩
        have hc := (inv t).committing_of (q := q) (by rw [hq]; rfl)
        rw [hno t (by omega) (by omega)] at hc
        cases hc
  · rcases fsStep_panic hp with h1 | ⟨h1, -⟩ | ⟨h1, -⟩ | ⟨-, h1, hc⟩
    · exact absurd h1 (by decide)
    · exact absurd h1 (by decide)
    · exact absurd h1 (by decide)
    · have := (inv t).fits p
      rw [h1] at this
      exact this ((inv t).quiet hc p)
  · rcases fsStep_panic hp with h1 | ⟨h1, -⟩ | ⟨-, ⟨i, h1⟩, h0⟩ | ⟨h1, -⟩
    · exact absurd h1 (by decide)
    · exact absurd h1 (by decide)
    · have hf := (inv t).fits p
      rw [h1] at hf
      have hcard : 0 < (σ t).ops.card := Finset.card_pos.mpr ⟨p, Fs.mem_ops.mpr hf⟩
      have := (inv t).count
      omega
    · exact absurd h1 (by decide)

end

/-- two processes begin an operation; the first logs block 100 and ends, the second ends and commits -/
def sampleOps : List (Fin 2 × FsChoice 4) :=
  [(0, .beginOp), (0, .go), (0, .go), (0, .go), (1, .beginOp), (1, .go), (1, .go), (1, .go),
    (0, .bread 100), (0, .go), (0, .go), (0, .modify 0 fun _ => 7), (0, .logWrite 0), (0, .go),
    (0, .go), (0, .go), (0, .brelse 0), (0, .go), (0, .go), (0, .endOp), (0, .go), (0, .go), (0, .go),
    (1, .endOp), (1, .go), (1, .go), (1, .go)] ++ List.replicate 60 (1, .go)

/-- while the second commits no operation is outstanding, and the header lists the block of the first -/
theorem group_commit_sample : ∃ (σ : ℕ → Fs (Fin 2) 4) (ev : ℕ → FsEvent),
    Fs.Run mkfsSuperblock σ ev ∧ (σ 27).log.committing = true ∧ (σ 27).log.outstanding = 0 ∧
    (σ 27).log.lh.blocks = [100] ∧ (σ 27).log.lh.blocks.Nodup := by
  have hrun : Fs.Run mkfsSuperblock (P := Fin 2) (K := 4) _ _ :=
    Fs.trace_run (Fs.boot_init fun _ _ => 0) sampleOps
  obtain ⟨h1, -, h2, -⟩ := group_commit hrun
  have hc : (Fs.trace mkfsSuperblock (Fs.boot fun _ _ => 0, .tau) sampleOps 27).1.log.committing
      = true := by decide +kernel
  exact ⟨_, _, hrun, hc, (h1 27 hc).1, by decide +kernel, h2 27⟩

end Xv6
