import Mathlib

/-!
# Blocks that tile a set of addresses

A block `(a, n)` is made of `n` units of `k` addresses each, from `a` on.  A list of blocks tiles a set
if the blocks do not overlap and cover it exactly.

* `Tiles.perm`   the order of the list does not matter;
* `Tiles.merge`, `Tiles.split`  two adjacent blocks become one, and the other way round;
* `Tiles.add`   a block outside of the set.
-/

/-- the addresses of a block -/
def InBlock (k : ℕ) (b : ℕ × ℕ) (x : ℕ) : Prop := b.1 ≤ x ∧ x < b.1 + k * b.2

/-- one block ends before the other starts -/
def Apart (k : ℕ) (b c : ℕ × ℕ) : Prop := b.1 + k * b.2 ≤ c.1 ∨ c.1 + k * c.2 ≤ b.1

structure Tiles (k : ℕ) (T : List (ℕ × ℕ)) (M : Set ℕ) : Prop where
  pos : ∀ b ∈ T, 0 < b.2
  apart : T.Pairwise (Apart k)
  cover : ∀ x, x ∈ M ↔ ∃ b ∈ T, InBlock k b x

section
variable {k : ℕ} {T T' : List (ℕ × ℕ)} {M : Set ℕ} {a m n : ℕ}

theorem Apart.symm {b c : ℕ × ℕ} (h : Apart k b c) : Apart k c b := Or.symm h

instance : Std.Symm (Apart k) := ⟨fun _ _ => Apart.symm⟩

theorem Tiles.apart_of_ne (h : Tiles k T M) {b c : ℕ × ℕ} (hb : b ∈ T) (hc : c ∈ T) (hne : b ≠ c) :
    Apart k b c :=
  h.apart.forall hb hc hne

theorem Tiles.nil (k : ℕ) : Tiles k [] ∅ := by
  refine ⟨by simp, .nil, ?_⟩
  simp

theorem Tiles.perm (h : Tiles k T M) (hp : T.Perm T') : Tiles k T' M := by
  refine ⟨fun b hb => h.pos b (hp.mem_iff.2 hb), ?_, fun x => ?_⟩
  · exact (hp.pairwise_iff fun {_ _} => Apart.symm).1 h.apart
  · rw [h.cover x]
    constructor
    · rintro ⟨b, hb, hx⟩
      exact ⟨b, hp.mem_iff.1 hb, hx⟩
    · rintro ⟨b, hb, hx⟩
      exact ⟨b, hp.mem_iff.2 hb, hx⟩

/-- the addresses of two adjacent blocks -/
theorem inBlock_add (a m n x : ℕ) :
    InBlock k (a, m + n) x ↔ InBlock k (a, m) x ∨ InBlock k (a + k * m, n) x := by
  unfold InBlock
  rw [Nat.mul_add]
  dsimp only
  omega

/-- what is apart from two adjacent blocks is apart from both as one -/
theorem apart_add {c : ℕ × ℕ} (hc : 0 < c.2) (hk : 0 < k) :
    Apart k (a, m + n) c ↔ Apart k (a, m) c ∧ Apart k (a + k * m, n) c := by
  have : 0 < k * c.2 := Nat.mul_pos hk hc
  unfold Apart
  rw [Nat.mul_add]
  dsimp only
  omega

theorem Tiles.merge (hk : 0 < k) (h : Tiles k ((a, m) :: (a + k * m, n) :: T) M) :
    Tiles k ((a, m + n) :: T) M := by
  obtain ⟨hp, ha, hc⟩ := h
  simp only [List.mem_cons, forall_eq_or_imp, List.pairwise_cons] at hp ha
  refine ⟨?_, ?_, fun x => ?_⟩
  · simp only [List.mem_cons, forall_eq_or_imp]
    exact ⟨by omega, hp.2.2⟩
  · rw [List.pairwise_cons]
    refine ⟨fun c hcT => ?_, ha.2.2⟩
    exact (apart_add (hp.2.2 c hcT) hk).2 ⟨ha.1.2 c hcT, ha.2.1 c hcT⟩
  · rw [hc x]
    simp only [List.exists_mem_cons_iff, inBlock_add, or_assoc]

theorem Tiles.split (hk : 0 < k) (hm : 0 < m) (hn : 0 < n) (h : Tiles k ((a, m + n) :: T) M) :
    Tiles k ((a, m) :: (a + k * m, n) :: T) M := by
  obtain ⟨hp, ha, hc⟩ := h
  simp only [List.mem_cons, forall_eq_or_imp, List.pairwise_cons] at hp ha
  refine ⟨?_, ?_, fun x => ?_⟩
  · simp only [List.mem_cons, forall_eq_or_imp]
    exact ⟨hm, hn, hp.2⟩
  · simp only [List.pairwise_cons, List.mem_cons, forall_eq_or_imp]
    refine ⟨⟨.inl le_rfl, fun c hcT => ?_⟩, fun c hcT => ?_, ha.2⟩
    · exact ((apart_add (hp.2 c hcT) hk).1 (ha.1 c hcT)).1
    · exact ((apart_add (hp.2 c hcT) hk).1 (ha.1 c hcT)).2
  · rw [hc x]
    simp only [List.exists_mem_cons_iff, inBlock_add, or_assoc]

theorem Tiles.add (h : Tiles k T M) (hn : 0 < n) (ha : ∀ x ∈ M, x < a) (hk : 0 < k) :
    Tiles k ((a, n) :: T) (M ∪ {x | InBlock k (a, n) x}) := by
  refine ⟨?_, ?_, fun x => ?_⟩
  · simp only [List.mem_cons, forall_eq_or_imp]
    exact ⟨hn, h.pos⟩
  · rw [List.pairwise_cons]
    refine ⟨fun c hc => .inr ?_, h.apart⟩
    have hpos : 0 < k * c.2 := Nat.mul_pos hk (h.pos c hc)
    -- the last address of the block is in the set
    have := ha (c.1 + k * c.2 - 1) ((h.cover _).2 ⟨c, hc, by unfold InBlock; omega⟩)
    dsimp only
    omega
  · simp only [List.exists_mem_cons_iff, Set.mem_union, h.cover x, Set.mem_ofPred_eq]
    exact or_comm

end
