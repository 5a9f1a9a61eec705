import Xv6.Fs.Group

/-!
# The space that `begin_op` reserves in the log

`begin_op` admits an operation when `MAXOPBLOCKS` blocks for each operation fit in `LOGSIZE`.  But of
the `LOGSIZE` blocks of the log that `mkfs` makes one is the header, and `log_write` panics when only
that one is left.

* `Fs.room`, `Reserved`   the blocks that operations may still log, when each logs one less than
  `MAXOPBLOCKS`: together with the header they leave room;
* `log_never_overflows_iff`  **the log does not overflow exactly when every operation logs fewer than
  `MAXOPBLOCKS` blocks.**
-/

set_option linter.unusedSectionVars false

namespace Xv6
variable {P : Type} [DecidableEq P] [Fintype P] {K : ℕ}

/-- the distinct blocks that `p` has passed to `log_write` in its operation -/
def Fs.calls (s : Fs P K) (p : P) : Finset Nat :=
  match (s.thread p).op, (s.thread p).pc with
  | none, _ => ∅
  | some used, .writeAcq i => insert (s.cache.buf i).blockno used
  | some used, .writeBody i => insert (s.cache.buf i).blockno used
  | some used, _ => used

theorem Fs.used_subset_calls {s : Fs P K} {p : P} {used : Finset Nat}
    (h : (s.thread p).op = some used) : used ⊆ s.calls p := by
  unfold Fs.calls
  rw [h]
  cases (s.thread p).pc with
  | writeAcq i | writeBody i => exact Finset.subset_insert _ _
  | _ => exact Finset.Subset.refl _

/-- the blocks that `p` may still log if it logs one less than `MAXOPBLOCKS` -/
def Fs.room (s : Fs P K) (p : P) : ℕ :=
  match (s.thread p).op with
  | none => 0
  | some used => MAXOPBLOCKS - 1 - used.card

/-- what is in the log and what may still be logged leaves two blocks of `LOGSIZE` -/
def Fs.Reserved (s : Fs P K) : Prop := s.log.lh.n + ∑ p, s.room p ≤ LOGSIZE - 2

section
variable {p : P} {s s' : Fs P K}

theorem Fs.room_eq {q : P} (h : (s'.thread q).op = (s.thread q).op) : s'.room q = s.room q := by
  unfold Fs.room
  rw [h]

theorem Fs.room_none (h : (s.thread p).op = none) : s.room p = 0 := by
  unfold Fs.room
  rw [h]

theorem Fs.room_some {used : Finset Nat} (h : (s.thread p).op = some used) :
    s.room p = MAXOPBLOCKS - 1 - used.card := by
  unfold Fs.room
  rw [h]

theorem Fs.sum_room (hne : ∀ q, q ≠ p → s'.thread q = s.thread q) :
    ∑ q, s'.room q + s.room p = ∑ q, s.room q + s'.room p := by
  have h : ∑ q ∈ Finset.univ.erase p, s'.room q = ∑ q ∈ Finset.univ.erase p, s.room q :=
    Finset.sum_congr rfl fun q hq => Fs.room_eq (by rw [hne q (Finset.ne_of_mem_erase hq)])
  have h1 := Finset.add_sum_erase Finset.univ s'.room (Finset.mem_univ p)
  have h2 := Finset.add_sum_erase Finset.univ s.room (Finset.mem_univ p)
  omega

theorem Fs.sum_room_le : ∑ q, s.room q ≤ s.ops.card * (MAXOPBLOCKS - 1) := by
  have h : ∑ q, s.room q = ∑ q ∈ s.ops, s.room q := by
    refine (Finset.sum_subset (Finset.subset_univ _) fun q _ hq => Fs.room_none ?_).symm
    by_contra hop
    exact hq (Fs.mem_ops.mpr hop)
  rw [h]
  refine Finset.sum_le_card_nsmul _ _ _ fun q _ => ?_
  unfold Fs.room
  split
  · exact Nat.zero_le _
  · exact Nat.sub_le _ _

/-- **Every step keeps the reservation**, if no operation logs `MAXOPBLOCKS` blocks. -/
theorem Fs.Reserved.move (h : s.Reserved) (hinv : s.LogInv) (hm : s.Moves p s')
    (hcalls : (s'.calls p).card < MAXOPBLOCKS) : s'.Reserved := by
  obtain ⟨hne, hm⟩ := hm
  have hsum := Fs.sum_room hne
  have hfits := hinv.fits p
  unfold Fs.Reserved at h ⊢
  have hM : MAXOPBLOCKS = 10 := rfl
  have hL : LOGSIZE = 30 := rfl
  generalize hl : s'.log = l', hpc : (s'.thread p).pc = pc', hop : (s'.thread p).op = op' at hm
  cases hm with
  | quiet | acq | rel | done =>
    rw [Fs.room_eq hop] at hsum
    show (s.log.lh).n + _ ≤ _
    omega
  | clear =>
    rw [Fs.room_eq hop] at hsum
    show 0 + _ ≤ _
    omega
  | decide | leave =>
    rw [Fs.room_none hop] at hsum
    show (s.log.lh).n + _ ≤ _
    omega
  | start hb hc hr =>
    rw [hb] at hfits
    rw [Fs.room_none hfits, Fs.room_some hop, Finset.card_empty] at hsum
    have hle := Fs.sum_room_le (s := s)
    have hcount := hinv.count
    show (s.log.lh).n + _ ≤ _
    -- the first operation finds an empty log
    by_cases h0 : s.ops.card = 0
    · have hn := hinv.empty hc (by omega)
      rw [h0] at hle
      omega
    · rw [hM] at hr hle
      rw [hL] at hr
      omega
  | @write i b hb h1 hn =>
    rw [hb] at hfits
    obtain ⟨used, hu⟩ := Option.ne_none_iff_exists'.mp hfits
    rw [hu, Option.map_some] at hop
    rw [Fs.room_some hu, Fs.room_some hop] at hsum
    have hcard := Finset.card_le_card (Fs.used_subset_calls hop)
    show (s.log.lh.add b).n + _ ≤ _
    by_cases hmem : b ∈ s.log.lh.blocks
    · rw [(LogHeader.add_mem hmem).1]
      have := Finset.card_le_card (Finset.subset_insert b used)
      omega
    · have hnew : b ∉ used := fun hbu => hmem (hinv.logged p used hu b hbu)
      rw [(LogHeader.add_not_mem hmem).1]
      rw [Finset.card_insert_of_notMem hnew] at hsum hcard
      omega

end

section
variable {sb : Superblock} {σ : ℕ → Fs P K} {ev : ℕ → FsEvent}

theorem Fs.Reserved.of_run (h : Fs.Run sb σ ev) (hcalls : ∀ t p, ((σ t).calls p).card < MAXOPBLOCKS)
    (t : ℕ) : (σ t).Reserved := by
  induction t with
  | zero =>
    have hroom : ∀ p, (σ 0).room p = 0 := fun p => Fs.room_none (by rw [h.init.thread]; rfl)
    unfold Fs.Reserved
    rw [h.init.empty, Finset.sum_eq_zero fun p _ => hroom p]
    exact Nat.zero_le _
  | succ t ih =>
    rcases h.next t with ⟨e, -⟩ | ⟨p, c, e⟩
    · rw [e]
      exact ih
    · exact ih.move (.of_run h t) (fsStep_moves e) (hcalls (t + 1) p)

/-- no operation logs `MAXOPBLOCKS` blocks: no `log_write` finds the log full -/
theorem log_has_room (hsb : sb.nlog = LOGSIZE) (h : Fs.Run sb σ ev)
    (hcalls : ∀ t p, ((σ t).calls p).card < MAXOPBLOCKS) (t : ℕ) (p : P) (c : FsChoice K) :
    (σ t).step sb p c ≠ .panic "too big a transaction" := by
  intro hp
  have hres := Fs.Reserved.of_run h hcalls t
  unfold Fs.Reserved at hres
  have hL : LOGSIZE = 30 := rfl
  rcases fsStep_panic hp with h1 | ⟨-, -, h1⟩ | ⟨h1, -⟩ | ⟨h1, -⟩
  · exact absurd h1 (by decide)
  · rw [hsb] at h1
    omega
  · exact absurd h1 (by decide)
  · exact absurd h1 (by decide)

end

/-! ## three operations fill the log -/

/-- a panic of the next step -/
def Outcome.isPanic {α : Type} (msg : String) : Outcome α → Bool
  | .panic m => m == msg
  | _ => false

theorem Outcome.isPanic_eq {α : Type} {msg : String} {o : Outcome α} (h : o.isPanic msg = true) :
    o = .panic msg := by
  cases o with
  | panic m => exact congrArg _ (eq_of_beq h)
  | next | blocked => cases h

/-- three processes begin an operation each; then each of them reads, logs and releases ten blocks -/
def fillRun : List (Fin 3 × FsChoice NBUF) :=
  ((List.finRange 3).flatMap fun p => [(p, .beginOp), (p, .go), (p, .go), (p, .go)]) ++
  (List.finRange NBUF).flatMap fun i =>
    [.bread (100 + i.1), .go, .go, .logWrite i, .go, .go, .go, .brelse i, .go, .go].map fun c =>
      (Fin.ofNat 3 (i.1 / MAXOPBLOCKS), c)

theorem fillRun_panics : ∃ (σ : ℕ → Fs (Fin 3) NBUF) (ev : ℕ → FsEvent),
    Fs.Run mkfsSuperblock σ ev ∧ (∀ t p, ((σ t).calls p).card ≤ MAXOPBLOCKS) ∧
    (σ 307).step mkfsSuperblock 2 .go = .panic "too big a transaction" := by
  refine ⟨_, _, Fs.trace_run (Fs.boot_init fun _ _ => 0) fillRun, fun t p => ?_, ?_⟩
  · have h : Fs.always mkfsSuperblock (fun s => decide (∀ p, (s.calls p).card ≤ MAXOPBLOCKS))
        (Fs.boot fun _ _ => 0) fillRun = true := by decide +kernel
    exact of_decide_eq_true (Fs.always_trace (r := (Fs.boot fun _ _ => 0, .tau)) h t) p
  · exact Outcome.isPanic_eq (by decide +kernel)

/-- three operations of `MAXOPBLOCKS` distinct blocks each, begun before any of them ends, overflow the
log that `mkfs` makes -/
theorem log_overflows : ∃ (σ : ℕ → Fs (Fin 3) NBUF) (ev : ℕ → FsEvent) (t : ℕ),
    mkfsSuperblock.nlog = LOGSIZE ∧ Fs.Run mkfsSuperblock σ ev ∧
    (∀ t p, ((σ t).calls p).card ≤ MAXOPBLOCKS) ∧
    (σ t).step mkfsSuperblock 2 .go = .panic "too big a transaction" := by
  obtain ⟨σ, ev, h⟩ := fillRun_panics
  exact ⟨σ, ev, 307, rfl, h⟩

/-- **When the log overflows.**  With the log that `mkfs` makes, operations that log at most `b` distinct
blocks each never make `log_write` panic exactly if `b` is less than `MAXOPBLOCKS`. -/
theorem log_never_overflows_iff (b : ℕ) :
    (∀ (P : Type) [DecidableEq P] [Fintype P] (K : ℕ) (sb : Superblock) (σ : ℕ → Fs P K)
      (ev : ℕ → FsEvent), sb.nlog = mkfsSuperblock.nlog → Fs.Run sb σ ev →
      (∀ t p, ((σ t).calls p).card ≤ b) →
      ∀ t p c, (σ t).step sb p c ≠ .panic "too big a transaction") ↔ b < MAXOPBLOCKS := by
  constructor
  · intro h
    by_contra hb
    obtain ⟨σ, ev, hrun, hcalls, hp⟩ := fillRun_panics
    exact h _ _ _ σ ev rfl hrun (fun t p => (hcalls t p).trans (Nat.le_of_not_lt hb)) 307 2 .go hp
  · intro hb P _ _ K sb σ ev hsb h hcalls t p c
    exact log_has_room hsb h (fun t p => Nat.lt_of_le_of_lt (hcalls t p) hb) t p c

end Xv6
