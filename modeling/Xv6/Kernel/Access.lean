import Xv6.Kernel.Copy

/-!
# Access to user memory, byte by byte

`copyout`, `copyin` and `copyinstr` go page by page.  What they do is said byte by byte.

* `PageTable.UserPage`, `PageTable.byte`   a user page is mapped at an address; the byte there;
* `copyoutLoop_frame`   nothing changes but bytes of user pages;
* `copyinLoop_reads`  the loop of `copyin`;
* `user_access`   **the three routines**.
-/

namespace Xv6

namespace PageTable

/-- the page of `a` is mapped for the user; 0 is no address of RAM -/
def UserPage (pt : PageTable) (a : Nat) : Prop :=
  a < MAXVA ∧ ∃ l, pt.leaf (pgrounddown a) = some l ∧ l.flags &&& PTE_U ≠ 0 ∧ l.pa ≠ 0

/-- the byte at `a`, in a page of the user or not -/
def byte (pt : PageTable) (a : Nat) : Option Byte :=
  (pt.leaf (pgrounddown a)).map fun l => l.data (a % PGSIZE)

/-- the same pages are mapped at the same addresses with the same flags -/
def SameMap (pt pt' : PageTable) : Prop :=
  ∀ a < MAXVA, (pt'.leaf a).map (fun l => (l.pa, l.flags)) = (pt.leaf a).map fun l => (l.pa, l.flags)

theorem pgrounddown_lt {a : Nat} : pgrounddown a < MAXVA ↔ a < MAXVA := by
  rw [pgrounddown_eq, MAXVA_eq]
  omega

theorem userPage_iff {pt : PageTable} {a : Nat} :
    pt.UserPage a ↔ ∃ l, walkaddr pt (pgrounddown a) = some l := by
  constructor
  · rintro ⟨ha, l, hl, hu, hpa⟩
    refine ⟨l, ?_⟩
    unfold walkaddr
    rw [if_neg (Nat.not_le.mpr (pgrounddown_lt.mpr ha)), hl]
    exact if_neg (not_or.mpr ⟨hu, hpa⟩)
  · rintro ⟨l, hl⟩
    obtain ⟨ha, hleaf, hu⟩ := walkaddr_some hl
    rw [not_or] at hu
    exact ⟨pgrounddown_lt.mp ha, l, hleaf, hu.1, hu.2⟩

theorem load_isSome {pt : PageTable} {a : Nat} : (pt.load a).isSome ↔ pt.UserPage a := by
  rw [userPage_iff, load, Option.isSome_map, Option.isSome_iff_exists]

theorem load_eq_byte {pt : PageTable} {a : Nat} (h : pt.UserPage a) : pt.load a = pt.byte a := by
  obtain ⟨l, hl⟩ := userPage_iff.mp h
  obtain ⟨-, hleaf, -⟩ := walkaddr_some hl
  unfold load byte
  rw [hl, hleaf]

theorem mapped_iff {pt : PageTable} {va n : Nat} : pt.Mapped va n ↔ ∀ i < n, pt.UserPage (va + i) :=
  forall₂_congr fun _ _ => load_isSome

end PageTable

/-! ## `copyout` -/

namespace PageTable

/-- nothing is changed but the data of user pages -/
structure SameButUser (pt pt' : PageTable) : Prop where
  map : pt.SameMap pt'
  other : ∀ a < MAXVA, ¬ pt.UserPage a → pt'.leaf (pgrounddown a) = pt.leaf (pgrounddown a)

theorem SameMap.userPage {pt pt' : PageTable} (h : pt.SameMap pt') (a : Nat) :
    pt'.UserPage a ↔ pt.UserPage a := by
  have key : ∀ {pt pt' : PageTable}, pt.SameMap pt' → pt.UserPage a → pt'.UserPage a := by
    rintro pt pt' h ⟨ha, l, hl, hu, hpa⟩
    have e := h (pgrounddown a) (pgrounddown_lt.mpr ha)
    rw [hl, Option.map_some, Option.map_eq_some_iff] at e
    obtain ⟨l', hl', e⟩ := e
    obtain ⟨h1, h2⟩ := Prod.mk.inj e
    exact ⟨ha, l', hl', h2 ▸ hu, h1 ▸ hpa⟩
  exact ⟨key fun a ha => (h a ha).symm, key h⟩

theorem SameButUser.refl (pt : PageTable) : pt.SameButUser pt := ⟨fun _ _ => rfl, fun _ _ _ => rfl⟩

theorem SameButUser.trans {pt pt' pt'' : PageTable} (h : pt.SameButUser pt')
    (h' : pt'.SameButUser pt'') : pt.SameButUser pt'' := by
  refine ⟨fun a ha => (h'.map a ha).trans (h.map a ha), fun a ha hu => ?_⟩
  rw [h'.other a ha fun hc => hu ((h.map.userPage a).mp hc), h.other a ha hu]

theorem leaf_page {pt : PageTable} {a b : Nat} (ha : a < MAXVA) (hb : b < MAXVA)
    (h : a / PGSIZE = b / PGSIZE) : pt.leaf a = pt.leaf b := by
  obtain ⟨h2, h1, h0⟩ := (px_page ha hb).mpr h
  unfold leaf
  rw [h2, h1, h0]

theorem SameButUser.write {pt : PageTable} {va : Nat} {l l' : Leaf}
    (hl : walkaddr pt (pgrounddown va) = some l) (hpa : l'.pa = l.pa) (hf : l'.flags = l.flags) :
    pt.SameButUser (pt.setLeaf (pgrounddown va) (some l')) := by
  obtain ⟨hv, hleaf, -⟩ := walkaddr_some hl
  refine ⟨fun a ha => ?_, fun a ha hu => ?_⟩
  · by_cases hp : a / PGSIZE = pgrounddown va / PGSIZE
    · rw [leaf_page ha hv hp, leaf_setLeaf_same hleaf, leaf_page ha hv hp, hleaf, Option.map_some,
        Option.map_some, hpa, hf]
    · rw [leaf_setLeaf_ne _ hv ha hp]
  · refine leaf_setLeaf_ne _ hv (pgrounddown_lt.mpr ha) fun hp => hu (userPage_iff.mpr ⟨l, ?_⟩)
    have e : pgrounddown a = pgrounddown va := by
      rw [pgrounddown_eq, pgrounddown_eq] at hp ⊢
      unfold PGSIZE at hp
      omega
    rw [e, hl]

end PageTable

theorem copyoutLoop_frame (f : Nat) (pt : PageTable) (va : Nat) (src : List Byte) :
    pt.SameButUser (copyoutLoop f pt va src).1 := by
  induction f generalizing pt va src with
  | zero => exact .refl pt
  | succ f ih =>
    cases src with
    | nil => exact .refl pt
    | cons b src =>
      rw [copyoutLoop]
      dsimp only
      cases hl : walkaddr pt (pgrounddown va) with
      | none => exact .refl pt
      | some l =>
        refine PageTable.SameButUser.trans ?_ (ih _ _ _)
        exact PageTable.SameButUser.write hl rfl rfl

/-- **`copyout`**: it succeeds exactly on user pages, and then changes exactly the bytes it copies -/
theorem copyout_bytes (pt : PageTable) (va : Nat) (src : List Byte) :
    ((copyout pt va src).2 = true ↔ ∀ i < src.length, pt.UserPage (va + i)) ∧
    pt.SameMap (copyout pt va src).1 ∧
    ((copyout pt va src).2 = true → ∀ a < MAXVA, (copyout pt va src).1.byte a =
      if va ≤ a ∧ a < va + src.length then src[a - va]? else pt.byte a) := by
  obtain ⟨hload, hok⟩ := copyout_writes pt va src
  have hframe : pt.SameButUser (copyout pt va src).1 := copyoutLoop_frame _ _ _ _
  rw [PageTable.mapped_iff] at hok
  refine ⟨hok, hframe.map, fun h a ha => ?_⟩
  have hpages := hok.mp h
  have hin : va ≤ a ∧ a < va + src.length → pt.UserPage a := by
    rintro ⟨h1, h2⟩
    have := hpages (a - va) (by omega)
    rwa [show va + (a - va) = a by omega] at this
  by_cases hu : pt.UserPage a
  · rw [← PageTable.load_eq_byte ((hframe.map.userPage a).mpr hu), ← PageTable.load_eq_byte hu, hload a]
    by_cases hr : va ≤ a ∧ a < va + src.length
    · have hreach : pt.Reach va a :=
        ⟨hr.1, fun j hj => PageTable.load_isSome.mpr (hpages j (by omega))⟩
      rw [if_pos hreach, if_pos hr, List.getElem?_eq_getElem (by omega), Option.some_or]
    · rw [if_neg hr]
      split
      · rename_i hreach
        rw [List.getElem?_eq_none (by have := hreach.1; omega), Option.none_or]
      · rfl
  · rw [if_neg fun h => hu (hin h)]
    unfold PageTable.byte
    rw [hframe.other a ha hu]

/-! ## `copyin` -/

/-- one turn of a copy loop: a chunk that ends with its page or with the copy -/
theorem chunk_load {pt : PageTable} {va len n : Nat} {l : Leaf}
    (hl : walkaddr pt (pgrounddown va) = some l) (hlen : 0 < len)
    (hn : min (PGSIZE - (va - pgrounddown va)) len = n) :
    (1 ≤ n ∧ n ≤ len) ∧
    (∀ j < n, pt.load (va + j) = some (l.data (va - pgrounddown va + j))) ∧
    (n ≠ len → (pgrounddown va + PGSIZE) % 2 ^ 64 = va + n) := by
  obtain ⟨hv, -, -⟩ := walkaddr_some hl
  rw [MAXVA_eq] at hv
  have hr := pgrounddown_eq va
  unfold PGSIZE at hn ⊢
  refine ⟨by omega, fun j hj => ?_, fun hne => by omega⟩
  have e : pgrounddown (va + j) = pgrounddown va := by
    rw [pgrounddown_eq, pgrounddown_eq]
    omega
  unfold PageTable.load
  rw [e, hl, Option.map_some]
  refine congrArg some (congrArg l.data ?_)
  unfold PGSIZE
  omega

/-- **the loop of `copyin`** -/
theorem copyinLoop_reads (pt : PageTable) (f : Nat) (dst : Nat → Byte) (i va len : Nat)
    (hf : len ≤ f) :
    ((copyinLoop pt f dst i va len).2 = true ↔ pt.Mapped va len) ∧
    (∀ j, ¬ (i ≤ j ∧ j < i + len) → (copyinLoop pt f dst i va len).1 j = dst j) ∧
    (pt.Mapped va len → ∀ j, i ≤ j → j < i + len →
      some ((copyinLoop pt f dst i va len).1 j) = pt.load (va + (j - i))) := by
  induction f generalizing dst i va len with
  | zero =>
    obtain rfl : len = 0 := by omega
    exact ⟨iff_of_true rfl fun _ h => absurd h (Nat.not_lt_zero _), fun _ _ => rfl,
      fun _ j h1 h2 => by omega⟩
  | succ f ih =>
    cases len with
    | zero =>
      exact ⟨iff_of_true rfl fun _ h => absurd h (Nat.not_lt_zero _), fun _ _ => rfl,
        fun _ j h1 h2 => by omega⟩
    | succ m =>
      cases hl : walkaddr pt (pgrounddown va) with
      | none =>
        have hrun : copyinLoop pt (f + 1) dst i va (m + 1) = (dst, false) := by
          rw [copyinLoop]
          simp only [hl]
        have hno : ¬ pt.Mapped va (m + 1) := fun hm => by
          have := hm 0 (by omega)
          unfold PageTable.load at this
          rw [Nat.add_zero, hl] at this
          cases this
        rw [hrun]
        exact ⟨iff_of_false nofun hno, fun _ _ => rfl, fun hm => absurd hm hno⟩
      | some l =>
        generalize hn : min (PGSIZE - (va - pgrounddown va)) (m + 1) = n
        obtain ⟨⟨hn1, hnl⟩, hload, hnext⟩ := chunk_load hl (Nat.succ_pos m) hn
        have hrun : copyinLoop pt (f + 1) dst i va (m + 1) = copyinLoop pt f
            (fun j => if i ≤ j ∧ j < i + n then l.data (va - pgrounddown va + (j - i)) else dst j)
            (i + n) ((pgrounddown va + PGSIZE) % 2 ^ 64) (m + 1 - n) := by
          rw [← hn, copyinLoop]
          simp only [hl]
        rw [hrun]
        generalize (pgrounddown va + PGSIZE) % 2 ^ 64 = va' at hnext
        obtain ⟨h1, h2, h3⟩ := ih (fun j => if i ≤ j ∧ j < i + n then
          l.data (va - pgrounddown va + (j - i)) else dst j) (i + n) va' (m + 1 - n) (by omega)
        have hmap : pt.Mapped va' (m + 1 - n) ↔ pt.Mapped va (m + 1) := by
          by_cases hlast : n = m + 1
          · rw [hlast, Nat.sub_self]
            refine iff_of_true (fun _ h => absurd h (Nat.not_lt_zero _)) fun j hj => ?_
            rw [hload j (by omega)]
            rfl
          · rw [hnext hlast]
            constructor
            · intro hm j hj
              by_cases hjn : j < n
              · rw [hload j hjn]
                rfl
              · have := hm (j - n) (by omega)
                rwa [show va + n + (j - n) = va + j by omega] at this
            · intro hm j hj
              rw [show va + n + j = va + (n + j) by omega]
              exact hm (n + j) (by omega)
        refine ⟨h1.trans hmap, fun j hj => ?_, fun hm j hj1 hj2 => ?_⟩
        · rw [h2 j (by omega)]
          exact if_neg (by omega)
        · by_cases hjn : j < i + n
          · rw [h2 j (by omega), if_pos ⟨hj1, hjn⟩, hload (j - i) (by omega)]
          · have hlast : n ≠ m + 1 := by omega
            rw [h3 (hmap.mpr hm) j (by omega) (by omega), hnext hlast,
              show va + n + (j - (i + n)) = va + (j - i) by omega]

/-! ## `copyinstr` -/

/-- the first NUL from `va` on is at `va + n`, and all bytes up to it can be read -/
def PageTable.NulAt (pt : PageTable) (va n : Nat) : Prop :=
  (∀ k ≤ n, (pt.load (va + k)).isSome) ∧ pt.load (va + n) = some 0 ∧ ∀ k < n, pt.load (va + k) ≠ some 0

theorem PageTable.NulAt.zero_iff {pt : PageTable} {va : Nat} :
    pt.NulAt va 0 ↔ pt.load va = some 0 := by
  constructor
  · exact fun h => h.2.1
  · refine fun h => ⟨fun k hk => ?_, h, fun k hk => absurd hk (Nat.not_lt_zero k)⟩
    rw [Nat.le_zero.mp hk, Nat.add_zero, h]
    rfl

theorem PageTable.NulAt.succ_iff {pt : PageTable} {va n : Nat} :
    pt.NulAt va (n + 1) ↔ (∃ b, pt.load va = some b ∧ b ≠ 0) ∧ pt.NulAt (va + 1) n := by
  have hadd : ∀ k, va + 1 + k = va + (k + 1) := fun k => by omega
  constructor
  · rintro ⟨h1, h2, h3⟩
    obtain ⟨b, hb⟩ := Option.isSome_iff_exists.mp (h1 0 (Nat.zero_le _))
    refine ⟨⟨b, hb, fun hz => h3 0 (Nat.succ_pos n) (by rw [hb, hz])⟩, fun k hk => ?_, ?_, fun k hk => ?_⟩
    · rw [hadd]
      exact h1 (k + 1) (by omega)
    · rw [hadd]
      exact h2
    · rw [hadd]
      exact h3 (k + 1) (by omega)
  · rintro ⟨⟨b, hb, hz⟩, h1, h2, h3⟩
    refine ⟨fun k hk => ?_, by rw [← hadd]; exact h2, fun k hk => ?_⟩
    · cases k with
      | zero =>
        rw [Nat.add_zero, hb]
        rfl
      | succ k =>
        rw [← hadd]
        exact h1 k (by omega)
    · cases k with
      | zero =>
        rw [Nat.add_zero, hb]
        exact fun e => hz (Option.some.inj e)
      | succ k =>
        rw [← hadd]
        exact h3 k (by omega)

/-- **the loop of `copyinstr`, byte by byte** -/
theorem copyinstrRef_reads (pt : PageTable) (m va : Nat) (dst : Nat → Byte) (i : Nat) :
    ((copyinstrRef pt m va dst i).2 = true ↔ ∃ n < m, pt.NulAt va n) ∧
    (∀ j, ¬ (i ≤ j ∧ j < i + m) → (copyinstrRef pt m va dst i).1 j = dst j) ∧
    (∀ n < m, pt.NulAt va n →
      (∀ j, i ≤ j → j ≤ i + n → some ((copyinstrRef pt m va dst i).1 j) = pt.load (va + (j - i))) ∧
      ∀ j, i + n < j → (copyinstrRef pt m va dst i).1 j = dst j) := by
  induction m generalizing va dst i with
  | zero =>
    refine ⟨iff_of_false (by simp [copyinstrRef]) ?_, fun _ _ => rfl, fun n hn => absurd hn (Nat.not_lt_zero n)⟩
    rintro ⟨n, hn, -⟩
    exact absurd hn (Nat.not_lt_zero n)
  | succ m ih =>
    rw [copyinstrRef]
    cases hb : pt.load va with
    | none =>
      have hno : ∀ n, ¬ pt.NulAt va n := fun n h => by
        have := h.1 0 (Nat.zero_le n)
        rw [Nat.add_zero, hb] at this
        cases this
      exact ⟨iff_of_false (by simp) fun h => h.elim fun n h => hno n h.2, fun _ _ => rfl, fun n _ h => absurd h (hno n)⟩
    | some b =>
      dsimp only
      by_cases hz : b = 0
      · subst hz
        have h0 : pt.NulAt va 0 := PageTable.NulAt.zero_iff.mpr hb
        rw [if_pos rfl]
        refine ⟨iff_of_true rfl ⟨0, Nat.succ_pos m, h0⟩, fun j hj => ?_, fun n hn h => ?_⟩
        · exact Function.update_of_ne (by omega) _ _
        · obtain rfl : n = 0 := by
            by_contra hne
            exact h.2.2 0 (by omega) hb
          refine ⟨fun j h1 h2 => ?_, fun j hj => Function.update_of_ne (by omega) _ _⟩
          obtain rfl : j = i := by omega
          rw [Nat.sub_self, Nat.add_zero, hb]
          exact congrArg some (Function.update_self _ _ _)
      · obtain ⟨h1, h2, h3⟩ := ih (va + 1) (Function.update dst i b) (i + 1)
        have hne : ∀ n, pt.NulAt va n → ∃ k, n = k + 1 ∧ pt.NulAt (va + 1) k := by
          intro n h
          cases n with
          | zero =>
            have := PageTable.NulAt.zero_iff.mp h
            rw [hb] at this
            exact absurd (Option.some.inj this) hz
          | succ k => exact ⟨k, rfl, (PageTable.NulAt.succ_iff.mp h).2⟩
        rw [if_neg hz]
        refine ⟨h1.trans ⟨?_, ?_⟩, fun j hj => ?_, fun n hn h => ?_⟩
        · rintro ⟨n, hn, h⟩
          exact ⟨n + 1, by omega, PageTable.NulAt.succ_iff.mpr ⟨⟨b, hb, hz⟩, h⟩⟩
        · rintro ⟨n, hn, h⟩
          obtain ⟨k, rfl, hk⟩ := hne n h
          exact ⟨k, by omega, hk⟩
        · rw [h2 j (by omega), Function.update_of_ne (by omega)]
        · obtain ⟨k, rfl, hk⟩ := hne n h
          obtain ⟨hin, hout⟩ := h3 k (by omega) hk
          refine ⟨fun j hj1 hj2 => ?_, fun j hj => ?_⟩
          · by_cases hji : j = i
            · subst hji
              rw [h2 j (by omega), Function.update_self, Nat.sub_self, Nat.add_zero, hb]
            · rw [hin j (by omega) (by omega), show va + 1 + (j - (i + 1)) = va + (j - i) by omega]
          · rw [hout j (by omega), Function.update_of_ne (by omega)]

/-- a NUL at `va + n` in user pages: then there is a first one -/
theorem exists_nulAt {pt : PageTable} {va n : Nat} (h : ∀ k ≤ n, pt.UserPage (va + k))
    (hz : pt.byte (va + n) = some 0) : ∃ k ≤ n, pt.NulAt va k := by
  have hload : ∀ k ≤ n, pt.load (va + k) = pt.byte (va + k) := fun k hk => PageTable.load_eq_byte (h k hk)
  have hex : ∃ k, pt.load (va + k) = some 0 := ⟨n, (hload n le_rfl).trans hz⟩
  have hle : Nat.find hex ≤ n := Nat.find_min' hex ((hload n le_rfl).trans hz)
  refine ⟨Nat.find hex, hle, fun k hk => ?_, Nat.find_spec hex, fun k hk => Nat.find_min hex hk⟩
  exact PageTable.load_isSome.mpr (h k (by omega))

/-! ## the three routines -/

/-- **Byte-wise access.**  `copyout` and `copyin` succeed exactly if every page of the range is mapped for
the user, and then transfer the bytes of the range in order and change nothing else; `copyin` after
`copyout` returns what was written; `copyinstr` succeeds exactly if there is a NUL among the first `max`
bytes and the pages up to it are mapped, and then copies the string through its NUL. -/
theorem user_access (pt : PageTable) (va : Nat) :
    (∀ src, ((copyout pt va src).2 = true ↔ ∀ i < src.length, pt.UserPage (va + i)) ∧
      ((copyout pt va src).2 = true → pt.SameMap (copyout pt va src).1 ∧
        (∀ a < MAXVA, (copyout pt va src).1.byte a =
          if va ≤ a ∧ a < va + src.length then src[a - va]? else pt.byte a) ∧
        ∀ dst, (copyin (copyout pt va src).1 dst va src.length).2 = true ∧
          ∀ j, (copyin (copyout pt va src).1 dst va src.length).1 j = (src[j]?).getD (dst j))) ∧
    (∀ dst len, ((copyin pt dst va len).2 = true ↔ ∀ i < len, pt.UserPage (va + i)) ∧
      (∀ j, len ≤ j → (copyin pt dst va len).1 j = dst j) ∧
      ((copyin pt dst va len).2 = true →
        ∀ j < len, some ((copyin pt dst va len).1 j) = pt.byte (va + j))) ∧
    ∀ dst max, ((copyinstr pt dst va max).2 = true ↔
        ∃ n < max, (∀ i ≤ n, pt.UserPage (va + i)) ∧ pt.byte (va + n) = some 0) ∧
      (∀ j, max ≤ j → (copyinstr pt dst va max).1 j = dst j) ∧
      ((copyinstr pt dst va max).2 = true → ∃ n < max, pt.byte (va + n) = some 0 ∧
        (∀ i < n, pt.byte (va + i) ≠ some 0) ∧
        (∀ j ≤ n, some ((copyinstr pt dst va max).1 j) = pt.byte (va + j)) ∧
        ∀ j, n < j → (copyinstr pt dst va max).1 j = dst j) := by
  have hcopyin : ∀ (pt : PageTable) dst len,
      ((copyin pt dst va len).2 = true ↔ ∀ i < len, pt.UserPage (va + i)) ∧
      (∀ j, len ≤ j → (copyin pt dst va len).1 j = dst j) ∧
      ((copyin pt dst va len).2 = true →
        ∀ j < len, some ((copyin pt dst va len).1 j) = pt.byte (va + j)) := by
    intro pt dst len
    obtain ⟨h1, h2, h3⟩ := copyinLoop_reads pt len dst 0 va len le_rfl
    refine ⟨h1.trans PageTable.mapped_iff, fun j hj => h2 j (by omega), fun h j hj => ?_⟩
    have hm := h1.mp h
    have := h3 hm j (Nat.zero_le j) (by omega)
    rw [Nat.sub_zero] at this
    rw [← PageTable.load_eq_byte (PageTable.mapped_iff.mp hm j hj)]
    exact this
  refine ⟨fun src => ?_, hcopyin pt, fun dst max => ?_⟩
  · obtain ⟨h1, h2, h3⟩ := copyout_bytes pt va src
    refine ⟨h1, fun h => ⟨h2, h3 h, fun dst => ?_⟩⟩
    obtain ⟨hc1, hc2, hc3⟩ := hcopyin (copyout pt va src).1 dst src.length
    have hok : (copyin (copyout pt va src).1 dst va src.length).2 = true :=
      hc1.mpr fun i hi => (h2.userPage _).mpr (h1.mp h i hi)
    refine ⟨hok, fun j => ?_⟩
    by_cases hj : j < src.length
    · have hbyte := hc3 hok j hj
      rw [h3 h _ (h1.mp h j hj).1, if_pos (by omega), Nat.add_sub_cancel_left] at hbyte
      rw [← hbyte]
      rfl
    · rw [hc2 j (by omega), List.getElem?_eq_none (by omega)]
      rfl
  · obtain ⟨h1, h2, h3⟩ := copyinstrRef_reads pt max va dst 0
    have hrun : copyinstr pt dst va max = copyinstrRef pt max va dst 0 :=
      copyinstrLoop_eq pt max dst 0 va max le_rfl
    rw [hrun]
    refine ⟨h1.trans ⟨?_, ?_⟩, fun j hj => h2 j (by omega), fun h => ?_⟩
    · rintro ⟨n, hn, hnul⟩
      have hpages : ∀ i ≤ n, pt.UserPage (va + i) := fun i hi => PageTable.load_isSome.mp (hnul.1 i hi)
      exact ⟨n, hn, hpages, (PageTable.load_eq_byte (hpages n le_rfl)).symm.trans hnul.2.1⟩
    · rintro ⟨n, hn, hpages, hz⟩
      obtain ⟨k, hk, hnul⟩ := exists_nulAt hpages hz
      exact ⟨k, by omega, hnul⟩
    · obtain ⟨n, hn, hnul⟩ := h1.mp h
      have hbyte : ∀ i ≤ n, pt.load (va + i) = pt.byte (va + i) := fun i hi =>
        PageTable.load_eq_byte (PageTable.load_isSome.mp (hnul.1 i hi))
      obtain ⟨hin, hout⟩ := h3 n hn hnul
      refine ⟨n, hn, (hbyte n le_rfl).symm.trans hnul.2.1, fun i hi => ?_, fun j hj => ?_, fun j hj => ?_⟩
      · rw [← hbyte i (by omega)]
        exact hnul.2.2 i hi
      · have := hin j (Nat.zero_le j) (by omega)
        rw [Nat.sub_zero] at this
        rw [← hbyte j hj]
        exact this
      · exact hout j (by omega)

end Xv6
