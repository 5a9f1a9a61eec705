import Xv6.Kernel.Proc

/-!
# Read-only pages: `walkaddr`, `copyout`, `flags2perm`

`walkaddr` looks at `PTE_V` and `PTE_U` only, so `copyout` writes to pages that the user itself may not
write.

* `flags2perm`, `segFlags`   the permissions that `exec` gives to a segment of a program;
* `PageTable.ReadOnly`   a user page without `PTE_W`;
* `MayCopy`   the copy reaches no read-only page, or writes what is there already;
* `wait_overwrites_text`   `wait` stores an exit message in the text of its caller;
* `copyout_protects_iff`   **a copy leaves read-only pages alone exactly if `MayCopy`.**
-/

namespace Xv6

/-- `flags2perm`: bit 0 of the segment's flags is "execute", bit 1 is "write" -/
def flags2perm (flags : Nat) : Nat :=
  let perm := if flags &&& 1 ≠ 0 then PTE_X else 0
  if flags &&& 2 ≠ 0 then perm ||| PTE_W else perm

/-- the flags of the pages that `exec` maps for a segment: `uvmalloc` adds `PTE_R|PTE_U` and `mappages`
`PTE_V` -/
def segFlags (flags : Nat) : Nat := PTE_R ||| PTE_U ||| flags2perm flags ||| PTE_V

namespace PageTable

/-- the byte at `a` is in a user page without `PTE_W` -/
def ReadOnly (pt : PageTable) (a : Nat) : Prop :=
  ∃ l, walkaddr pt (pgrounddown a) = some l ∧ l.flags &&& PTE_W = 0

/-- the same pages are mapped, with the same flags -/
def SameFlags (pt pt' : PageTable) : Prop :=
  ∀ a, (walkaddr pt' a).map Leaf.flags = (walkaddr pt a).map Leaf.flags

theorem SameFlags.readOnly {pt pt' : PageTable} (h : pt.SameFlags pt') (a : Nat) :
    pt'.ReadOnly a ↔ pt.ReadOnly a := by
  have e := h (pgrounddown a)
  unfold ReadOnly
  cases h1 : walkaddr pt (pgrounddown a) <;> cases h2 : walkaddr pt' (pgrounddown a) <;>
    rw [h1, h2] at e <;> simp_all

theorem SameFlags.setLeaf {pt : PageTable} {va : Nat} {l l' : Leaf} (hl : pt.leaf va = some l)
    (hpa : l'.pa = l.pa) (hf : l'.flags = l.flags) : pt.SameFlags (pt.setLeaf va (some l')) := by
  intro a
  unfold leaf at hl
  obtain ⟨t1, h1, hl⟩ := Option.bind_eq_some_iff.mp hl
  obtain ⟨t0, h0, hl⟩ := Option.bind_eq_some_iff.mp hl
  unfold walkaddr
  split
  · rfl
  · by_cases e : px 2 a = px 2 va ∧ px 1 a = px 1 va ∧ px 0 a = px 0 va
    · have h3 : (pt.setLeaf va (some l')).leaf a = some l' := by
        simp [PageTable.setLeaf, leaf, h1, h0, Table.set, e.1, e.2.1, e.2.2]
      have h4 : pt.leaf a = some l := by
        simp [leaf, e.1, e.2.1, e.2.2, h1, h0, hl]
      rw [h3, h4]
      dsimp only
      rw [hpa, hf]
      split <;> simp [hf]
    · have h3 : (pt.setLeaf va (some l')).leaf a = pt.leaf a := by
        by_cases e2 : px 2 a = px 2 va
        · by_cases e1 : px 1 a = px 1 va
          · have e0 : px 0 a ≠ px 0 va := fun e0 => e ⟨e2, e1, e0⟩
            simp [PageTable.setLeaf, leaf, Table.set, e2, e1, e0, h1, h0]
          · simp [PageTable.setLeaf, leaf, Table.set, e2, e1, h1, h0]
        · simp [PageTable.setLeaf, leaf, Table.set, e2, h1, h0]
      rw [h3]

end PageTable

theorem copyoutLoop_sameFlags (f : Nat) (pt : PageTable) (va : Nat) (src : List Byte) :
    pt.SameFlags (copyoutLoop f pt va src).1 := by
  induction f generalizing pt va src with
  | zero => exact fun _ => rfl
  | succ f ih =>
    cases src with
    | nil => exact fun _ => rfl
    | cons b src =>
      rw [copyoutLoop]
      dsimp only
      split
      · exact fun _ => rfl
      · rename_i l hl
        intro a
        rw [ih _ _ _ a]
        refine PageTable.SameFlags.setLeaf (walkaddr_some hl).2.1 ?_ ?_ a
        · rfl
        · rfl

theorem copyout_sameFlags (pt : PageTable) (va : Nat) (src : List Byte) :
    pt.SameFlags (copyout pt va src).1 := copyoutLoop_sameFlags _ _ _ _

/-- the copy reaches no byte of a read-only page, except to write what is there already -/
def MayCopy (pt : PageTable) (va : Nat) (src : List Byte) : Prop :=
  ∀ i (h : i < src.length), pt.Reach va (va + i) → pt.ReadOnly (va + i) →
    pt.load (va + i) = some (src.get ⟨i, h⟩)

theorem copyout_protects {pt : PageTable} {va : Nat} {src : List Byte} (h : MayCopy pt va src)
    {a : Nat} (ha : pt.ReadOnly a) : (copyout pt va src).1.load a = pt.load a := by
  rw [(copyout_writes pt va src).1 a]
  by_cases hr : pt.Reach va a
  · rw [if_pos hr]
    by_cases hi : a - va < src.length
    · have e : va + (a - va) = a := by have := hr.1; omega
      have := h (a - va) hi (by rw [e]; exact hr) (by rw [e]; exact ha)
      rw [e] at this
      rw [List.getElem?_eq_getElem hi, Option.some_or, this]
      rfl
    · rw [List.getElem?_eq_none (by omega), Option.none_or]
  · rw [if_neg hr]

/-- a sequence of copies to the memory of a process -/
def copyouts (pt : PageTable) : List (Nat × List Byte) → PageTable
  | [] => pt
  | (va, src) :: l => copyouts (copyout pt va src).1 l

/-- each of them may be made in the memory that it finds -/
def MayCopyAll (pt : PageTable) : List (Nat × List Byte) → Prop
  | [] => True
  | (va, src) :: l => MayCopy pt va src ∧ MayCopyAll (copyout pt va src).1 l

/-! ## `wait` writes to the text -/

/-- a page table with one page of text: a segment with the flags "read" and "execute" -/
def textTable : PageTable :=
  ⟨0x80101000, Function.update (fun _ => none) 0 (some ⟨0x80102000, Function.update (fun _ => none) 0
    (some ⟨0x80103000, Function.update (fun _ => none) 0
      (some ⟨0x80104000, segFlags 5, fun _ => 0⟩)⟩)⟩)⟩

/-- slot 0 has this text, and slot 1 is its child, which has exited with the message `"x"` -/
def textSample : KState 2 where
  k := ((Kern.zero []).upd 0 fun q => { q with state := .running, pagetable := some textTable }).upd 1
    fun q => { q with
      state := .zombie, parent := some 0, pid := 2, exitMsg := Function.update (fun _ => 0) 0 0x78 }
  held := ∅
  noff := 0
  env := []

/-- `wait(0, msg)` with `msg` in the text stores the message there -/
theorem wait_overwrites_text : textTable.ReadOnly 16 ∧ textTable.load 16 = some 0 ∧
    ((wait 0 0 16 textSample).bind fun r => (r.2.k.proc 0).pagetable.bind fun pt => pt.load 16)
      = some 0x78 := by
  refine ⟨⟨⟨0x80104000, segFlags 5, fun _ => 0⟩, rfl, by decide⟩, by decide, by decide +kernel⟩

/-- **`copyout` leaves the read-only pages of the user alone exactly if it may copy**, and a sequence of
copies that may be made changes no byte of a read-only page. -/
theorem copyout_protects_iff (pt : PageTable) (va : Nat) (src : List Byte)
    (l : List (Nat × List Byte)) :
    ((∀ a, pt.ReadOnly a → (copyout pt va src).1.load a = pt.load a) ↔ MayCopy pt va src) ∧
    (MayCopyAll pt l → ∀ a, pt.ReadOnly a →
      (copyouts pt l).ReadOnly a ∧ (copyouts pt l).load a = pt.load a) := by
  constructor
  · refine ⟨fun h i hi hr ha => ?_, fun h a ha => copyout_protects h ha⟩
    have e := h (va + i) ha
    rw [(copyout_writes pt va src).1 (va + i), if_pos hr, Nat.add_sub_cancel_left,
      List.getElem?_eq_getElem hi, Option.some_or] at e
    exact e.symm
  · induction l generalizing pt with
    | nil => exact fun _ a ha => ⟨ha, rfl⟩
    | cons x l ih =>
      obtain ⟨va, src⟩ := x
      rintro ⟨h1, h2⟩ a ha
      obtain ⟨h3, h4⟩ := ih _ h2 a (((copyout_sameFlags pt va src).readOnly a).mpr ha)
      exact ⟨h3, h4.trans (copyout_protects h1 ha)⟩

end Xv6
