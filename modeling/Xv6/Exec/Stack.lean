import Xv6.Exec.Image

/-!
# Arguments on the user stack

* `argBytes`   the bytes that the arguments take, with what is lost to alignment;
* `Pushed`   strings one below the other, each at an aligned address;
* `PageTable.Pokes.pushStack`   pushing changes bytes of the stack only, for any arguments;
* `pushStack_fits`, `pushStack_full`   **the arguments are on the stack, or they do not fit**.
-/

namespace Xv6

/-! ## Alignment -/

/-- `n` rounded up to a multiple of 16 -/
def round16 (n : ℕ) : ℕ := (n + 15) / 16 * 16

theorem le_round16 (n : ℕ) : n ≤ round16 n := by
  unfold round16
  omega

theorem pushDown_eq {sp n : ℕ} (h16 : sp % 16 = 0) (hn : n ≤ sp) (hsp : sp < 2 ^ 64) :
    pushDown sp n = sp - round16 n := by
  unfold pushDown round16
  dsimp only
  have h1 : n % 2 ^ 64 = n := Nat.mod_eq_of_lt (by omega)
  rw [h1]
  rcases Nat.eq_zero_or_pos n with rfl | hpos
  · omega
  · omega

theorem round16_le {sp n : ℕ} (h16 : sp % 16 = 0) (hn : n ≤ sp) : round16 n ≤ sp := by
  unfold round16
  omega

theorem sub_round16 {sp n : ℕ} (h16 : sp % 16 = 0) : (sp - round16 n) % 16 = 0 := by
  unfold round16
  omega

/-- the bytes of the strings -/
def stringBytes (argv : List (List Byte)) : ℕ := (argv.map fun s => round16 (s.length + 1)).sum

/-- the bytes of all arguments: the strings and the array of pointers -/
def argBytes (argv : List (List Byte)) : ℕ := stringBytes argv + round16 ((argv.length + 1) * 8)

theorem stringBytes_cons (s : List Byte) (argv : List (List Byte)) :
    stringBytes (s :: argv) = round16 (s.length + 1) + stringBytes argv := List.sum_cons

/-! ## What pushing changes -/

theorem copyoutLoop_other (f : ℕ) (pt : PageTable) (va : ℕ) (src : List Byte) {v : ℕ}
    (hv : v < PageTable.NPG) (hno : ∀ l, pt.flat v = some l → l.flags.testBit 4 = false) :
    (copyoutLoop f pt va src).1.flat v = pt.flat v := by
  induction f generalizing pt va src with
  | zero => rfl
  | succ f ih =>
    cases src with
    | nil => rfl
    | cons b src =>
      rw [copyoutLoop]
      dsimp only
      cases hl : walkaddr pt (pgrounddown va) with
      | none => rfl
      | some l =>
        obtain ⟨hv', hflat⟩ := PageTable.flat_of_walkaddr hl
        have hne : v ≠ va / PGSIZE := fun e => by
          have hu := (walkaddr_some hl).2.2
          rw [not_or] at hu
          exact hu.1 (and_PTE_U.2 (hno l (e ▸ hflat)))
        have hstep : ∀ l', (pt.setLeaf (pgrounddown va) (some l')).flat v = pt.flat v := fun l' =>
          (PageTable.setLeaf_flat hv' (PageTable.path_of_flat hflat) (some l') hv).trans
            (Function.update_of_ne hne _ _)
        dsimp only
        rw [ih _ _ _ fun l' hl' => hno l' ((hstep _).symm.trans hl'), hstep]

namespace PageTable

/-- bytes of user pages are written, none of them below `base` -/
structure Pokes (base : ℕ) (pt pt' : PageTable) : Prop where
  tree : pt.SameTree pt'
  other : ∀ v < NPG, (∀ l, pt.flat v = some l → l.flags.testBit 4 = false) → pt'.flat v = pt.flat v
  below : ∀ a < base, pt'.load a = pt.load a

namespace Pokes
variable {base : ℕ} {pt pt' pt'' : PageTable}

theorem refl (base : ℕ) (pt : PageTable) : pt.Pokes base pt := ⟨.refl pt, fun _ _ _ => rfl, fun _ _ => rfl⟩

theorem trans (h : Pokes base pt pt') (h' : Pokes base pt' pt'') : Pokes base pt pt'' := by
  refine ⟨h.tree.trans h'.tree, fun v hv hno => ?_, fun a ha => (h'.below a ha).trans (h.below a ha)⟩
  have e := h.other v hv hno
  exact (h'.other v hv (by rwa [e])).trans e

theorem copyout {va : ℕ} (hva : base ≤ va) (pt : PageTable) (src : List Byte) :
    Pokes base pt (copyout pt va src).1 := by
  refine ⟨copyout_sameTree .., fun v hv hno => ?_, fun a ha => ?_⟩
  · exact copyoutLoop_other _ _ _ _ hv hno
  · rw [(copyout_writes pt va src).1 a, if_neg fun h => absurd h.1 (by omega)]

theorem pushArgs (base : ℕ) (pt : PageTable) (sp : ℕ) (ustack : List ℕ) (argv : List (List Byte)) :
    Pokes base pt (pushArgs base pt sp ustack argv).1 := by
  induction argv generalizing pt sp ustack with
  | nil => exact .refl base pt
  | cons s argv ih =>
    unfold Xv6.pushArgs
    split
    · exact .refl base pt
    · dsimp only
      split
      · exact .refl base pt
      · rename_i hle
        have hc := copyout (Nat.le_of_not_lt hle) pt (s ++ [0])
        split
        · rename_i pt' e
          rw [e] at hc
          exact hc
        · rename_i pt' e
          rw [e] at hc
          exact hc.trans (ih ..)

theorem pushTable (base : ℕ) (pt : PageTable) (sp : ℕ) (ustack : List ℕ) :
    Pokes base pt (pushTable base pt sp ustack).1 := by
  unfold Xv6.pushTable
  dsimp only
  split
  · exact .refl base pt
  · rename_i hle
    have hc := copyout (Nat.le_of_not_lt hle) pt ((ustack ++ [0]).flatMap le64)
    split
    · rename_i pt' e
      rw [e] at hc
      exact hc
    · rename_i pt' e
      rw [e] at hc
      exact hc

/-- **pushing the arguments** writes to the stack, whatever they are -/
theorem pushStack (base : ℕ) (pt : PageTable) (sp : ℕ) (argv : List (List Byte)) :
    Pokes base pt (pushStack base pt sp argv).1 := by
  have hc := pushArgs base pt sp [] argv
  unfold Xv6.pushStack
  split
  · rename_i pt' e
    rw [e] at hc
    exact hc
  · rename_i pt' sp' ustack e
    rw [e] at hc
    exact hc.trans (pushTable ..)

end Pokes
end PageTable

section
variable {own : Multiset ℕ} {tf : ℕ} {guard : Option ℕ} {pt pt' : PageTable} {sz : ℕ} {fl : List ℕ}

theorem Building.sys_bit (h : Building own tf guard pt sz fl) {v : ℕ} (hv : npages sz ≤ v)
    (hN : v < PageTable.NPG) (l : Leaf) (hl : pt.flat v = some l) : l.flags.testBit 4 = false := by
  rw [h.space.rest v hv hN] at hl
  unfold sysMap at hl
  split at hl
  · cases hl
    decide
  · split at hl
    · cases hl
      show (PTE_R ||| PTE_W ||| PTE_V).testBit 4 = false
      decide
    · cases hl

theorem Building.pokes {base : ℕ} (h : Building own tf guard pt sz fl) (hp : pt.Pokes base pt') :
    Building own tf guard pt' sz fl :=
  h.same hp.tree fun v hv hN => hp.other v hN (h.sys_bit hv hN)

end

/-! ## The strings -/

/-- strings at aligned addresses, one below the other, from `hi` down to `lo` -/
inductive Pushed (pt : PageTable) : ℕ → List ℕ → List (List Byte) → ℕ → Prop where
  | nil (hi : ℕ) : Pushed pt hi [] [] hi
  | cons {hi a lo : ℕ} {addrs : List ℕ} {s : List Byte} {argv : List (List Byte)}
      (h16 : a % 16 = 0) (hle : a + (s.length + 1) ≤ hi) (holds : pt.Holds a (s ++ [0]))
      (rest : Pushed pt a addrs argv lo) : Pushed pt hi (a :: addrs) (s :: argv) lo

namespace Pushed
variable {pt pt' : PageTable} {hi lo : ℕ} {addrs : List ℕ} {argv : List (List Byte)}

theorem le (h : Pushed pt hi addrs argv lo) : lo ≤ hi := by
  induction h with
  | nil => exact Nat.le_refl _
  | cons h16 hle holds rest ih => omega

theorem length (h : Pushed pt hi addrs argv lo) : addrs.length = argv.length := by
  induction h with
  | nil => rfl
  | cons h16 hle holds rest ih => rw [List.length_cons, List.length_cons, ih]

theorem congr (h : Pushed pt hi addrs argv lo) (he : ∀ a, lo ≤ a → a < hi → pt'.load a = pt.load a) :
    Pushed pt' hi addrs argv lo := by
  induction h with
  | nil hi => exact .nil hi
  | @cons hi a lo addrs s argv h16 hle holds rest ih =>
    have := rest.le
    refine .cons h16 hle (holds.of_eq fun i hi' => he _ (by omega) ?_) (ih fun b h1 h2 => he b h1 (by omega))
    rw [List.length_append, List.length_singleton] at hi'
    omega

theorem get (h : Pushed pt hi addrs argv lo) (i : ℕ) (ha : i < addrs.length) (hs : i < argv.length) :
    pt.Holds addrs[i] (argv[i] ++ [0]) ∧ addrs[i] % 16 = 0 ∧ lo ≤ addrs[i] ∧
      addrs[i] + (argv[i].length + 1) ≤ hi := by
  induction h generalizing i with
  | nil => exact absurd ha (Nat.not_lt_zero _)
  | cons h16 hle holds rest ih =>
    cases i with
    | zero => exact ⟨holds, h16, rest.le, hle⟩
    | succ i =>
      obtain ⟨h1, h2, h3, h4⟩ := ih i (Nat.lt_of_succ_lt_succ ha) (Nat.lt_of_succ_lt_succ hs)
      exact ⟨h1, h2, h3, by simp only [List.getElem_cons_succ]; omega⟩

theorem disjoint (h : Pushed pt hi addrs argv lo) (i j : ℕ) (hij : i < j) (ha : j < addrs.length)
    (hs : j < argv.length) : addrs[j] + (argv[j].length + 1) ≤ addrs[i] := by
  induction h generalizing i j with
  | nil => exact absurd ha (Nat.not_lt_zero _)
  | cons h16 hle holds rest ih =>
    obtain ⟨j, rfl⟩ := Nat.exists_eq_succ_of_ne_zero (Nat.ne_zero_of_lt hij)
    have ha' := Nat.lt_of_succ_lt_succ ha
    have hs' := Nat.lt_of_succ_lt_succ hs
    cases i with
    | zero => exact (rest.get j ha' hs').2.2.2
    | succ i => exact ih i j (Nat.lt_of_succ_lt_succ hij) ha' hs'

end Pushed

section
variable {pt : PageTable} {base : ℕ}

/-- the page of the stack -/
def StackPage (pt : PageTable) (base : ℕ) : Prop := ∀ a, base ≤ a → a < base + PGSIZE → (pt.load a).isSome

theorem StackPage.mapped (h : StackPage pt base) {a n : ℕ} (h1 : base ≤ a) (h2 : a + n ≤ base + PGSIZE) :
    pt.Mapped a n := fun i hi => h _ (by omega) (by omega)

theorem pushArgs_fits (argv : List (List Byte)) {sp : ℕ} {ustack : List ℕ} (hst : StackPage pt base)
    (h16 : sp % 16 = 0) (htop : sp ≤ base + PGSIZE) (hbig : base + PGSIZE < 2 ^ 64)
    (hargs : ustack.length + argv.length ≤ MAXARG) (hfit : base + stringBytes argv ≤ sp) :
    ∃ pt' addrs, pushArgs base pt sp ustack argv =
        (pt', some (sp - stringBytes argv, ustack ++ addrs)) ∧
      Pushed pt' sp addrs argv (sp - stringBytes argv) ∧ StackPage pt' base ∧
      (sp - stringBytes argv) % 16 = 0 ∧
      ∀ a, a < sp - stringBytes argv ∨ sp ≤ a → pt'.load a = pt.load a := by
  induction argv generalizing pt sp ustack with
  | nil => exact ⟨pt, [], by rw [List.append_nil]; rfl, .nil sp, hst, h16, fun _ _ => rfl⟩
  | cons s argv ih =>
    rw [stringBytes_cons] at hfit ⊢
    have hr := le_round16 (s.length + 1)
    have hpd : pushDown sp (s.length + 1) = sp - round16 (s.length + 1) :=
      pushDown_eq h16 (by omega) (by omega)
    have hlen : (s ++ [0]).length = s.length + 1 := List.length_append
    obtain ⟨pt1, hrun, hholds, hsome, hsame⟩ := @copyout_holds pt
      (sp - round16 (s.length + 1)) (s ++ [0]) (hst.mapped (by omega) (by omega))
    obtain ⟨pt', addrs, hrun', hp, hst', h16', hsame'⟩ := @ih pt1
      (sp - round16 (s.length + 1)) (ustack ++ [sp - round16 (s.length + 1)])
      (fun a h1 h2 => hsome a (hst a h1 h2)) (sub_round16 h16) (by omega)
      (by rw [List.length_append, List.length_singleton]; rw [List.length_cons] at hargs; omega) (by omega)
    have hsub : sp - round16 (s.length + 1) - stringBytes argv =
        sp - (round16 (s.length + 1) + stringBytes argv) := Nat.sub_sub ..
    rw [hsub] at hrun' hp h16' hsame'
    refine ⟨pt', (sp - round16 (s.length + 1)) :: addrs, ?_, ?_, hst', h16', fun a ha => ?_⟩
    · rw [List.length_cons] at hargs
      unfold Xv6.pushArgs
      rw [if_neg (by omega)]
      dsimp only
      rw [hpd, if_neg (by omega), hrun]
      dsimp only
      rw [hrun', List.append_assoc, List.singleton_append]
    · refine .cons (sub_round16 h16) (by omega) (hholds.of_eq fun i _ => hsame' _ (.inr (by omega))) hp
    · rw [hsame' a (by omega), hsame a (by omega)]

theorem pushArgs_full (argv : List (List Byte)) {sp : ℕ} {ustack : List ℕ} (hst : StackPage pt base)
    (h16 : sp % 16 = 0) (htop : sp ≤ base + PGSIZE) (hbase : base ≤ sp) (hlow : PGSIZE ≤ base)
    (hbig : base + PGSIZE < 2 ^ 64) (hshort : ∀ s ∈ argv, s.length < PGSIZE)
    (hfull : sp < base + stringBytes argv) :
    ∃ pt', pushArgs base pt sp ustack argv = (pt', none) := by
  induction argv generalizing pt sp ustack with
  | nil => exact absurd hfull (by show ¬ sp < base + 0; omega)
  | cons s argv ih =>
    rw [stringBytes_cons] at hfull
    have hs := hshort s List.mem_cons_self
    have hpd : pushDown sp (s.length + 1) = sp - round16 (s.length + 1) :=
      pushDown_eq h16 (by omega) (by omega)
    have hr := le_round16 (s.length + 1)
    have hlen : (s ++ [0]).length = s.length + 1 := List.length_append
    unfold Xv6.pushArgs
    split
    · exact ⟨pt, rfl⟩
    · dsimp only
      rw [hpd]
      by_cases hlt : sp - round16 (s.length + 1) < base
      · rw [if_pos hlt]
        exact ⟨pt, rfl⟩
      · obtain ⟨pt1, hrun, -, hsome, -⟩ := @copyout_holds pt
          (sp - round16 (s.length + 1)) (s ++ [0]) (hst.mapped (by omega) (by omega))
        rw [if_neg hlt, hrun]
        exact ih (fun a h1 h2 => hsome a (hst a h1 h2)) (sub_round16 h16) (by omega) (by omega)
          (fun s' hs' => hshort s' (List.mem_cons_of_mem _ hs')) (by omega)

theorem flatMap_le64_length (xs : List ℕ) : (xs.flatMap le64).length = xs.length * 8 := by
  induction xs with
  | nil => rfl
  | cons x xs ih =>
    rw [List.flatMap_cons, List.length_append, ih, List.length_cons]
    show 8 + _ = _
    omega

/-- **the arguments that fit** are all on the stack -/
theorem pushStack_fits (argv : List (List Byte)) {sp : ℕ} (hst : StackPage pt base)
    (h16 : sp % 16 = 0) (htop : sp ≤ base + PGSIZE) (hbig : base + PGSIZE < 2 ^ 64)
    (hargs : argv.length ≤ MAXARG) (hfit : base + argBytes argv ≤ sp) :
    ∃ pt' addrs, pushStack base pt sp argv = (pt', some (sp - argBytes argv)) ∧
      Pushed pt' sp addrs argv (sp - stringBytes argv) ∧
      pt'.Holds (sp - argBytes argv) ((addrs ++ [0]).flatMap le64) ∧
      (sp - argBytes argv) % 16 = 0 ∧
      sp - argBytes argv + (argv.length + 1) * 8 ≤ sp - stringBytes argv ∧
      ∀ a, a < sp - argBytes argv ∨ sp ≤ a → pt'.load a = pt.load a := by
  have hr := le_round16 ((argv.length + 1) * 8)
  have hfit' : base + (stringBytes argv + round16 ((argv.length + 1) * 8)) ≤ sp := hfit
  obtain ⟨pt1, addrs, hrun, hp, hst1, h161, hsame⟩ := @pushArgs_fits _ _ argv _ [] hst h16 htop hbig
    (by rw [List.length_nil]; omega) (by omega)
  have hlen : ([] ++ addrs).length = argv.length := hp.length
  have hbytes : (([] ++ addrs ++ [0]).flatMap le64).length = (argv.length + 1) * 8 := by
    rw [flatMap_le64_length, List.length_append, hlen, List.length_singleton]
  have hpd : pushDown (sp - stringBytes argv) ((argv.length + 1) * 8) = sp - argBytes argv := by
    rw [pushDown_eq h161 (by omega) (by omega), Nat.sub_sub]
    rfl
  have hsp : sp - argBytes argv = sp - (stringBytes argv + round16 ((argv.length + 1) * 8)) := rfl
  obtain ⟨pt2, hrun2, hholds, -, hsame2⟩ := @copyout_holds pt1 (sp - argBytes argv)
    (([] ++ addrs ++ [0]).flatMap le64) (hst1.mapped (by omega) (by omega))
  refine ⟨pt2, addrs, ?_, hp.congr fun a h1 h2 => hsame2 a (by omega), hholds, ?_, by omega, fun a ha => ?_⟩
  · unfold pushStack
    rw [hrun]
    dsimp only
    unfold pushTable
    dsimp only
    rw [hlen, hpd, if_neg (by omega), hrun2]
  · rw [hsp, ← Nat.sub_sub]
    exact sub_round16 h161
  · rw [hsame2 a (by omega), hsame a (by omega)]

/-- **the arguments that do not fit** -/
theorem pushStack_full (argv : List (List Byte)) {sp : ℕ} (hst : StackPage pt base)
    (h16 : sp % 16 = 0) (htop : sp ≤ base + PGSIZE) (hbase : base ≤ sp) (hlow : PGSIZE ≤ base)
    (hbig : base + PGSIZE < 2 ^ 64) (hargs : argv.length ≤ MAXARG)
    (hshort : ∀ s ∈ argv, s.length < PGSIZE) (hfull : sp < base + argBytes argv) :
    ∃ pt', pushStack base pt sp argv = (pt', none) := by
  have hfull' : sp < base + (stringBytes argv + round16 ((argv.length + 1) * 8)) := hfull
  by_cases hs : sp < base + stringBytes argv
  · obtain ⟨pt', hrun⟩ := @pushArgs_full _ _ argv _ [] hst h16 htop hbase hlow hbig hshort hs
    refine ⟨pt', ?_⟩
    unfold pushStack
    rw [hrun]
  · obtain ⟨pt1, addrs, hrun, hp, hst1, h161, -⟩ := @pushArgs_fits _ _ argv _ [] hst h16 htop hbig
      (by rw [List.length_nil]; omega) (by omega)
    have hlen : ([] ++ addrs).length = argv.length := hp.length
    have hM : MAXARG = 32 := rfl
    have hP : PGSIZE = 4096 := rfl
    have hpd : pushDown (sp - stringBytes argv) ((argv.length + 1) * 8) =
        sp - stringBytes argv - round16 ((argv.length + 1) * 8) :=
      pushDown_eq h161 (by omega) (by omega)
    have hle : round16 ((argv.length + 1) * 8) ≤ sp - stringBytes argv := round16_le h161 (by omega)
    refine ⟨pt1, ?_⟩
    unfold pushStack
    rw [hrun]
    dsimp only
    unfold pushTable
    dsimp only
    rw [hlen, hpd, if_pos (by omega)]

end
end Xv6
