import Xv6.Lib.Forest
import Xv6.Machine.Sched

/-!
# The process tree

* `Kern.Tree`   the parent pointers form a tree over the live processes, and where `fork`, `forkn`
  and `exit` stand in changing it;
* `Tree.step`   every step keeps it, whether `wait_lock` is held or not;
* `process_tree`   **every process but init has a live parent, and the pointers lead to init.**
-/

set_option linter.unusedSectionVars false

namespace Xv6
variable {N : ℕ}

/-- a process that may have children -/
def ProcState.Live (s : ProcState) : Prop := s = .sleeping ∨ s = .runnable ∨ s = .running

theorem ProcState.Live.ne {s : ProcState} (h : s.Live) :
    s ≠ .unused ∧ s ≠ .used ∧ s ≠ .zombie := by
  rcases h with rfl | rfl | rfl <;> exact ⟨nofun, nofun, nofun⟩

section
variable [NeZero N]

/-- how far `exit` of `i` has got with giving away the children of `i` -/
def Frame.Leaving (i : Slot N) (par : Slot N → Option (Slot N)) : Frame N → Prop
  | .exit _ _ .start => True
  | .exit _ _ (.close _) => i ≠ initproc
  | .exit _ _ .acqW => i ≠ initproc
  | .exit _ _ (.reparent rem) => i ≠ initproc ∧ ∀ x, par x = some i → x ∈ rem
  | .exit _ _ (.wakeInit rem _) => i ≠ initproc ∧ ∀ x, par x = some i → x ∈ rem
  | .exit _ _ _ => i ≠ initproc ∧ ∀ x, par x ≠ some i
  | _ => True

theorem Frame.Leaving.mono {i : Slot N} {par par' : Slot N → Option (Slot N)} {f : Frame N}
    (h : f.Leaving i par) (hp : i ≠ initproc → ∀ x, par' x = some i → par x = some i) :
    f.Leaving i par' := by
  cases f with
  | exit status msg p =>
    cases p with
    | start => trivial
    | close | acqW => exact h
    | reparent rem | wakeInit rem w => exact ⟨h.1, fun x hx => h.2 x (hp h.1 x hx)⟩
    | wakeParent | acqP | relW | swtch | dead => exact ⟨h.1, fun x hx => h.2 x (hp h.1 x hx)⟩
  | _ => trivial

/-- the tree, and the places of the routines that change it -/
structure Kern.Tree (k : Kern N) : Prop where
  forest : IsForest (fun x => (k.proc x).parent) initproc (fun x => (k.proc x).state.Live)
    (fun x => (k.proc x).state.Live ∨ (k.proc x).state = .zombie)
  unused : ∀ x, (k.proc x).state = .unused → (k.proc x).parent = none
  linked : ∀ i, ∀ j ∈ (mainOf (k.proc i).context).linked, (k.proc j).parent = some i
  loose : ∀ i, ∀ j ∈ (mainOf (k.proc i).context).loose, (k.proc j).parent = none
  leaving : ∀ i, (mainOf (k.proc i).context).Leaving i fun x => (k.proc x).parent

theorem Kern.Tree.congr {k k' : Kern N} (h : k.Tree)
    (hctx : ∀ x, (k'.proc x).context = (k.proc x).context)
    (hpar : ∀ x, (k'.proc x).parent = (k.proc x).parent)
    (hs : ∀ x, (k'.proc x).state = (k.proc x).state ∨
      (k.proc x).state.Live ∧ (k'.proc x).state.Live) : k'.Tree := by
  have hpar' : (fun x => (k'.proc x).parent) = fun x => (k.proc x).parent := funext hpar
  refine ⟨?_, fun x hx => ?_, fun i j hj => ?_, fun i j hj => ?_, fun i => ?_⟩
  · rw [hpar']
    refine h.forest.relabel ?_ (fun x y hx => ?_) fun x hx => .inl ?_
    · exact (hs initproc).elim (fun e => e ▸ h.forest.root) fun e => e.2
    · exact (hs y).elim (fun e => e ▸ h.forest.up x y hx) fun e => e.2
    · rcases hs x with e | e
      · rwa [e] at hx
      · exact .inl e.1
  · rw [hpar]
    rcases hs x with e | e
    · exact h.unused x (e.symm.trans hx)
    · exact absurd hx e.2.ne.1
  · rw [hctx] at hj
    rw [hpar]
    exact h.linked i j hj
  · rw [hctx] at hj
    rw [hpar]
    exact h.loose i j hj
  · rw [hctx, hpar']
    exact h.leaving i

end

/-! ## a step of a process -/

namespace Machine
variable {C : Type} [DecidableEq C] [NeZero N] {m : Machine N C} {c : C} {i j : Slot N}

/-- what a step of the thread of `i` does to states and parents -/
inductive Reshape (i : Slot N) (k k' : Kern N) (op : Op (Lock N)) (st st' : List (Frame N)) : Prop
  | quiet (hp : ∀ x, (k'.proc x).parent = (k.proc x).parent)
    (hs : ∀ x, (k'.proc x).state = (k.proc x).state ∨
      (k.proc x).state.Live ∧ (k'.proc x).state.Live) (hk : handsOf st' = handsOf st)
  | alloc (j : Slot N) (hp : ∀ x, (k'.proc x).parent = (k.proc x).parent)
    (hs : ∀ x, x ≠ j → (k'.proc x).state = (k.proc x).state) (hj : (k.proc j).state = .unused)
    (hj' : (k'.proc j).state = .used) (hk : handsOf st' = ((handsOf st).1, (handsOf st).2 ++ [j]))
  | free (j : Slot N) (hp : ∀ x, x ≠ j → (k'.proc x).parent = (k.proc x).parent)
    (hs : ∀ x, x ≠ j → (k'.proc x).state = (k.proc x).state) (hp' : (k'.proc j).parent = none)
    (hj : ¬(k.proc j).state.Live) (hj' : (k'.proc j).state = .unused)
    (hk : (handsOf st').1 ⊆ (handsOf st).1 ∧ (handsOf st').2 ⊆ (handsOf st).2)
    (hm : j ∉ makingOf st')
    (ho : (k.proc j).state = .unused ∨ j ∈ (handsOf st).2 ∨
      k.Reapable i j ∧ .wait ∈ needs i st)
  | link (j : Slot N) (hp : ∀ x, x ≠ j → (k'.proc x).parent = (k.proc x).parent)
    (hs : ∀ x, (k'.proc x).state = (k.proc x).state) (hp' : (k'.proc j).parent = some i)
    (hk : handsOf st = ([], j :: (handsOf st').2)) (hk' : (handsOf st').1 = [j])
    (hi : (k.proc i).state.Live) (hj : (k.proc j).state = .used)
    (hw : op = .acq .wait ∨ .wait ∈ needs i st)
  | adopt (j : Slot N) (hp : ∀ x, x ≠ j → (k'.proc x).parent = (k.proc x).parent)
    (hs : ∀ x, (k'.proc x).state = (k.proc x).state) (hj : (k.proc j).parent = some i)
    (hp' : (k'.proc j).parent = some initproc) (hk : handsOf st' = ([], []))
    (hw : .wait ∈ needs i st)
    (hf : ∃ status msg rem, st' = [.exit status msg (.wakeInit rem (.acq (slots N)))])
  | publish (j : Slot N) (hp : ∀ x, (k'.proc x).parent = (k.proc x).parent)
    (hs : ∀ x, x ≠ j → (k'.proc x).state = (k.proc x).state)
    (hj' : (k'.proc j).state = .runnable) (hk : handsOf st = ([j], (handsOf st').2))
    (hk' : (handsOf st').1 = [])
  | dies (status : CInt) (msg : Nat → Byte) (hf : st = [.exit status msg .acqP])
    (hp : ∀ x, (k'.proc x).parent = (k.proc x).parent)
    (hs : ∀ x, x ≠ i → (k'.proc x).state = (k.proc x).state) (hi : (k.proc i).state.Live)
    (hi' : (k'.proc i).state = .zombie) (hk : handsOf st' = ([], []))

theorem Sane.reshape (h : m.Sane) (hc : m.cur c = some i) {op : Op (Lock N)}
    {st' : List (Frame N)} {g : Proc N → Proc N} {k' : Kern N}
    (ht : Touch i m.k (m.k.proc i).context op st' j g) (hch : Changes i m.k k' j g) :
    Reshape i m.k k' op (m.k.proc i).context st' := by
  have hs : ∀ x, x ≠ j → (k'.proc x).state = (m.k.proc x).state := by
    intro x hxj
    by_cases hxi : x = i
    · subst hxi
      exact (hch.own hxj).state
    · rw [hch.other x hxi hxj]
  have hp : ∀ x, x ≠ j → (k'.proc x).parent = (m.k.proc x).parent := by
    intro x hxj
    by_cases hxi : x = i
    · subst hxi
      exact (hch.own hxj).parent
    · rw [hch.other x hxi hxj]
  have hp1 : (g (m.k.proc j)).parent = (m.k.proc j).parent →
      ∀ x, (k'.proc x).parent = (m.k.proc x).parent := by
    intro hg x
    by_cases hxj : x = j
    · rw [hxj]
      exact hch.here.parent.trans hg
    · exact hp x hxj
  have hs1 : (g (m.k.proc j)).state = (m.k.proc j).state →
      ∀ x, (k'.proc x).state = (m.k.proc x).state := by
    intro hg x
    by_cases hxj : x = j
    · rw [hxj]
      exact hch.here.state.trans hg
    · exact hs x hxj
  have quiet : handsOf st' = handsOf (m.k.proc i).context →
      (g (m.k.proc j)).parent = (m.k.proc j).parent →
      ((g (m.k.proc j)).state = (m.k.proc j).state ∨
        (m.k.proc j).state.Live ∧ (g (m.k.proc j)).state.Live) →
      Reshape i m.k k' op (m.k.proc i).context st' := by
    intro hk hgp hgs
    refine .quiet (hp1 hgp) (fun x => ?_) hk
    by_cases hxj : x = j
    · rw [hxj, hch.here.state]
      exact hgs
    · exact .inl (hs x hxj)
  have live : modeOf i (m.k.proc i).context = .run → (m.k.proc i).state.Live :=
    fun hm => .inr (.inr ((h.cpu c i hc).running hm))
  have hnd := h.nodup i
  have free : g = Proc.freed → ¬(m.k.proc j).state.Live → (handsOf st').1 ⊆ (handsOf (m.k.proc i).context).1 →
      (handsOf st').2 ⊆ (handsOf (m.k.proc i).context).2 → j ∉ makingOf st' →
      ((m.k.proc j).state = .unused ∨ j ∈ (handsOf (m.k.proc i).context).2 ∨
        m.k.Reapable i j ∧ .wait ∈ needs i (m.k.proc i).context) →
      Reshape i m.k k' op (m.k.proc i).context st' := by
    rintro rfl hl h1 h2 h3 h4
    exact .free j hp hs hch.here.parent hl hch.here.state ⟨h1, h2⟩ h3 h4
  -- with the same slots in hand, a slot that is not `USED` is none of them
  have same : ∀ {s : ProcState}, (m.k.proc j).state = s → s ≠ .used →
      handsOf st' = handsOf (m.k.proc i).context → j ∉ makingOf st' := by
    intro s hsj hne hk hj
    rw [makingOf_same hk] at hj
    exact hne (hsj.symm.trans (h.used i j hj))
  cases ht with
  | keep _ _ hk | swtch _ hk => exact quiet hk rfl (.inl rfl)
  | sleep _ _ hm _ hk => exact quiet hk rfl (.inr ⟨live hm, .inl rfl⟩)
  | unsleep _ _ _ _ hk | setkilled _ _ hk | fill _ _ _ hk => exact quiet hk rfl (.inl rfl)
  | yield hm _ hk => exact quiet hk rfl (.inr ⟨live hm, .inr (.inl rfl)⟩)
  | exitMsg hf => exact quiet (by rw [hf]; rfl) rfl (.inl rfl)
  | zombie hf =>
    exact .dies _ _ hf (hp1 rfl) hs (live (by rw [hf]; rfl)) hch.here.state rfl
  | reparent hf hc =>
    exact .adopt j hp (hs1 rfl) hc hch.here.parent rfl (by rw [hf]; exact List.mem_cons_self)
      ⟨_, _, _, rfl⟩
  | wake ch _ _ _ hk =>
    rcases (m.k.proc j).woken_cases ch with he | ⟨hs, -, he⟩
    · rw [he] at quiet
      exact quiet hk rfl (.inl rfl)
    · rw [he] at quiet
      exact quiet hk rfl (.inr ⟨.inl hs, .inr (.inl rfl)⟩)
  | kill hf =>
    refine quiet (by rw [hf]; rfl) rfl ?_
    by_cases hs : (m.k.proc j).state = .sleeping
    · exact .inr ⟨.inl hs, .inr (.inl (by simp [Proc.onKill, hs]))⟩
    · exact .inl (by simp [Proc.onKill, hs])
  | allocFail hu _ _ hk =>
    refine free rfl (fun hl => hl.ne.1 hu) ?_ ?_ (same hu (by simp) hk) (.inl hu) <;> rw [hk]
    · exact List.Subset.refl _
    · exact List.Subset.refl _
  | alloc hu _ _ hk => exact .alloc j (hp1 rfl) hs hu hch.here.state hk
  | fillFail _ _ hk =>
    have hm := makingOf_more hk
    change (makingOf _).Nodup at hnd
    rw [hm] at hnd
    have hj : j ∈ makingOf (m.k.proc i).context :=
      hm ▸ List.mem_append_right _ List.mem_cons_self
    have hu := h.used i j hj
    refine free rfl (fun hl => hl.ne.2.1 hu) ?_ ?_ (fun hj' => ?_) (.inr (.inl ?_))
    · rw [hk]
      exact List.Subset.refl _
    · rw [hk]
      exact List.subset_append_left _ _
    · exact List.disjoint_of_nodup_append hnd hj' List.mem_cons_self
    · rw [hk]
      exact List.mem_append_right _ List.mem_cons_self
  | link _ hm _ hk hk' hw =>
    have hj : j ∈ makingOf (m.k.proc i).context := makingOf_hands hk ▸ List.mem_cons_self
    exact .link j hp (hs1 rfl) hch.here.parent hk hk' (live hm) (h.used i j hj) hw
  | publish _ _ hk hk' => exact .publish j (hp1 rfl) hs hch.here.state hk hk'
  | clean _ _ hk hk' =>
    have hm := makingOf_less hk hk'
    change (makingOf _).Nodup at hnd
    rw [hm] at hnd
    have hj : j ∈ makingOf (m.k.proc i).context := hm ▸ List.mem_cons_self
    have hu := h.used i j hj
    refine free rfl (fun hl => hl.ne.2.1 hu) ?_ ?_ (List.nodup_cons.mp hnd).1 (.inr (.inl ?_))
    · rw [hk']
      exact List.nil_subset _
    · rw [hk]
      exact List.subset_cons_self _ _
    · rw [hk]
      exact List.mem_cons_self
  | reap hp hz _ _ _ hk hw =>
    refine free rfl (fun hl => hl.ne.2.2 hz) ?_ ?_ (same hz (by simp) hk)
      (.inr (.inr ⟨⟨hz, hp⟩, hw⟩)) <;> rw [hk]
    · exact List.Subset.refl _
    · exact List.Subset.refl _
  | free hr _ _ hk hw =>
    have hz := h.reapable i j (by
      show j ∈ reapingOf _
      rw [hr]
      exact List.mem_cons_self)
    refine free rfl (fun hl => hl.ne.2.2 hz.1) ?_ ?_ (same hz.1 (by simp) hk)
      (.inr (.inr ⟨hz, hw⟩)) <;> rw [hk]
    · exact List.Subset.refl _
    · exact List.Subset.refl _

/-! ## the tree after a step -/

theorem Reshape.forest {k' : Kern N} {op : Op (Lock N)} {st' : List (Frame N)} (h : m.k.Tree)
    (hr : Reshape i m.k k' op (m.k.proc i).context st') :
    IsForest (fun x => (k'.proc x).parent) initproc (fun x => (k'.proc x).state.Live)
      (fun x => (k'.proc x).state.Live ∨ (k'.proc x).state = .zombie) := by
  have hf := h.forest
  have same : (∀ x, (k'.proc x).parent = (m.k.proc x).parent) →
      (fun x => (k'.proc x).parent) = fun x => (m.k.proc x).parent := funext
  have upd : ∀ {j p}, (∀ x, x ≠ j → (k'.proc x).parent = (m.k.proc x).parent) →
      (k'.proc j).parent = p →
      (fun x => (k'.proc x).parent) = Function.update (fun x => (m.k.proc x).parent) j p := by
    intro j p hx hj
    funext x
    by_cases hxj : x = j
    · rw [hxj, Function.update_self]
      exact hj
    · rw [Function.update_of_ne hxj]
      exact hx x hxj
  cases hr with
  | quiet hp hs =>
    rw [same hp]
    refine hf.relabel ?_ (fun x y hx => ?_) fun x hx => .inl ?_
    · exact (hs initproc).elim (fun e => e ▸ hf.root) fun e => e.2
    · exact (hs y).elim (fun e => e ▸ hf.up x y hx) fun e => e.2
    · rcases hs x with e | e
      · rwa [e] at hx
      · exact .inl e.1
  | alloc j hp hs hj hj' =>
    rw [same hp]
    have hne : ∀ {x}, (m.k.proc x).state.Live → x ≠ j := by
      rintro x hx rfl
      exact hx.ne.1 hj
    refine hf.relabel ?_ (fun x y hx => ?_) fun x hx => .inl ?_
    · rw [hs _ (hne hf.root)]
      exact hf.root
    · have hy := hf.up x y hx
      rw [hs _ (hne hy)]
      exact hy
    · by_cases hxj : x = j
      · rw [hxj, hj'] at hx
        rcases hx with hx | hx
        · exact absurd rfl hx.ne.2.1
        · cases hx
      · rwa [hs x hxj] at hx
  | free j hp hs hp' hj hj' =>
    rw [upd hp hp']
    have hne : ∀ {x}, (m.k.proc x).state.Live → x ≠ j := by
      rintro x hx rfl
      exact hj hx
    have hkept : ∀ x, (k'.proc x).state.Live ∨ (k'.proc x).state = .zombie →
        x ≠ j ∧ ((m.k.proc x).state.Live ∨ (m.k.proc x).state = .zombie) := by
      intro x hx
      have hxj : x ≠ j := by
        rintro rfl
        rw [hj'] at hx
        rcases hx with hx | hx
        · exact hx.ne.1 rfl
        · cases hx
      rw [hs x hxj] at hx
      exact ⟨hxj, hx⟩
    refine (hf.drop hj hkept).relabel ?_ (fun x y hx => ?_) fun x hx => .inl hx
    · rw [hs _ (hne hf.root)]
      exact hf.root
    · have hy := (hf.drop hj hkept).up x y hx
      rw [hs _ (hne hy)]
      exact hy
  | link j hp hs hp' hk _ hi _ =>
    rw [upd hp hp']
    simp only [hs]
    have hj : (m.k.proc j).parent = none := by
      refine h.loose i j ?_
      show j ∈ (handsOf (m.k.proc i).context).2
      rw [hk]
      exact List.mem_cons_self
    exact hf.attach hj hi (hf.reaches (.inl hi))
  | adopt j hp hs hj hp' =>
    rw [upd hp hp']
    simp only [hs]
    exact hf.adopt j
  | publish j hp hs hj' hk =>
    rw [same hp]
    have hlive : ∀ {x}, (m.k.proc x).state.Live → (k'.proc x).state.Live := by
      intro x hx
      by_cases hxj : x = j
      · rw [hxj, hj']
        exact .inr (.inl rfl)
      · rwa [hs x hxj]
    refine hf.relabel (hlive hf.root) (fun x y hx => hlive (hf.up x y hx)) fun x hx => ?_
    by_cases hxj : x = j
    · refine .inr ?_
      rw [hxj, h.linked i j ?_]
      · exact Option.some_ne_none _
      · show j ∈ (handsOf (m.k.proc i).context).1
        rw [hk]
        exact List.mem_cons_self
    · rw [hs x hxj] at hx
      exact .inl hx
  | dies status msg hst hp hs hi hi' =>
    rw [same hp]
    have hl := h.leaving i
    rw [hst] at hl
    have hne : ∀ {x}, x ≠ i → (m.k.proc x).state.Live → (k'.proc x).state.Live := by
      intro x hxi hx
      rwa [hs x hxi]
    refine hf.relabel (hne hl.1.symm hf.root) (fun x y hx => ?_) fun x hx => .inl ?_
    · refine hne ?_ (hf.up x y hx)
      rintro rfl
      exact hl.2 x hx
    · by_cases hxi : x = i
      · rw [hxi]
        exact .inl hi
      · rwa [hs x hxi] at hx

theorem Reshape.unused {k' : Kern N} {op : Op (Lock N)} {st' : List (Frame N)} (h : m.k.Tree)
    (hr : Reshape i m.k k' op (m.k.proc i).context st') (x : Slot N)
    (hx : (k'.proc x).state = .unused) : (k'.proc x).parent = none := by
  cases hr with
  | quiet hp hs =>
    rw [hp]
    rcases hs x with e | e
    · exact h.unused x (e.symm.trans hx)
    · exact absurd hx e.2.ne.1
  | alloc j hp hs hj hj' =>
    have hxj : x ≠ j := by
      rintro rfl
      rw [hj'] at hx
      cases hx
    rw [hp]
    exact h.unused x ((hs x hxj).symm.trans hx)
  | free j hp hs hp' hj hj' =>
    by_cases hxj : x = j
    · rw [hxj]
      exact hp'
    · rw [hp x hxj]
      exact h.unused x ((hs x hxj).symm.trans hx)
  | link j hp hs hp' hk hk' hi hj =>
    have hxj : x ≠ j := by
      rintro rfl
      rw [hs, hj] at hx
      cases hx
    rw [hp x hxj]
    exact h.unused x ((hs x).symm.trans hx)
  | adopt j hp hs hj hp' =>
    by_cases hxj : x = j
    · subst hxj
      rw [h.unused x ((hs x).symm.trans hx)] at hj
      cases hj
    · rw [hp x hxj]
      exact h.unused x ((hs x).symm.trans hx)
  | publish j hp hs hj' =>
    have hxj : x ≠ j := by
      rintro rfl
      rw [hj'] at hx
      cases hx
    rw [hp]
    exact h.unused x ((hs x hxj).symm.trans hx)
  | dies status msg hst hp hs hi hi' =>
    have hxi : x ≠ i := by
      rintro rfl
      rw [hi'] at hx
      cases hx
    rw [hp]
    exact h.unused x ((hs x hxi).symm.trans hx)

/-- the slots that a routine has in its hands, and those of the others -/
theorem Reshape.links {k' : Kern N} {op : Op (Lock N)} {st' : List (Frame N)} (h : m.k.Tree) (hm : m.Sane)
    (hr : Reshape i m.k k' op (m.k.proc i).context st') :
    (∀ x ∈ (handsOf st').1, (k'.proc x).parent = some i) ∧
    (∀ x ∈ (handsOf st').2, (k'.proc x).parent = none) ∧
    ∀ y, y ≠ i → ∀ x ∈ m.k.making y, (k'.proc x).parent = (m.k.proc x).parent := by
  have hlink : ∀ x ∈ (handsOf (m.k.proc i).context).1, (m.k.proc x).parent = some i := h.linked i
  have hloose : ∀ x ∈ (handsOf (m.k.proc i).context).2, (m.k.proc x).parent = none := h.loose i
  cases hr with
  | quiet hp hs hk =>
    refine ⟨fun x hx => ?_, fun x hx => ?_, fun y _ x _ => hp x⟩
    · rw [hp]
      exact hlink x (hk ▸ hx)
    · rw [hp]
      exact hloose x (hk ▸ hx)
  | alloc j hp hs hj hj' hk =>
    rw [hk]
    refine ⟨fun x hx => ?_, fun x hx => ?_, fun y _ x _ => hp x⟩
    · rw [hp]
      exact hlink x hx
    · rw [hp]
      rcases List.mem_append.mp hx with hx | hx
      · exact hloose x hx
      · rw [List.mem_singleton.mp hx]
        exact h.unused j hj
  | free j hp hs hp' hj hj' hk hmk ho =>
    refine ⟨fun x hx => ?_, fun x hx => ?_, fun y hy x hx => hp x ?_⟩
    · rw [hp x fun e => hmk (e ▸ List.mem_append_left _ hx)]
      exact hlink x (hk.1 hx)
    · rw [hp x fun e => hmk (e ▸ List.mem_append_right _ hx)]
      exact hloose x (hk.2 hx)
    · rintro rfl
      have hu := hm.used y x hx
      rcases ho with ho | ho | ho
      · rw [ho] at hu
        cases hu
      · exact hy (hm.disjoint y i x hx (List.mem_append_right _ ho))
      · rw [ho.1.1] at hu
        cases hu
  | link j hp hs hp' hk hk' hi hj =>
    have hmake := makingOf_hands hk
    have hnd : (makingOf (m.k.proc i).context).Nodup := hm.nodup i
    rw [hmake] at hnd
    have hmem : j ∈ makingOf (m.k.proc i).context := hmake ▸ List.mem_cons_self
    rw [hk'] 
    refine ⟨fun x hx => ?_, fun x hx => ?_, fun y hy x hx => hp x ?_⟩
    · rw [List.mem_singleton.mp hx]
      exact hp'
    · rw [hp x fun e => (List.nodup_cons.mp hnd).1 (e ▸ hx)]
      refine hloose x ?_
      rw [hk]
      exact List.mem_cons_of_mem j hx
    · rintro rfl
      exact hy (hm.disjoint y i x hx hmem)
  | adopt j hp hs hj hp' hk =>
    rw [hk]
    refine ⟨nofun, nofun, fun y hy x hx => hp x ?_⟩
    rintro rfl
    rcases List.mem_append.mp hx with hx | hx
    · exact hy (Option.some.inj ((h.linked y x hx).symm.trans hj))
    · rw [h.loose y x hx] at hj
      cases hj
  | publish j hp hs hj' hk hk' =>
    rw [hk']
    refine ⟨nofun, fun x hx => ?_, fun y _ x _ => hp x⟩
    rw [hp]
    refine hloose x ?_
    rw [hk]
    exact hx
  | dies status msg hst hp hs hi hi' hk =>
    rw [hk]
    exact ⟨nofun, nofun, fun y _ x _ => hp x⟩

theorem Reshape.parent {k' : Kern N} {op : Op (Lock N)} {st st' : List (Frame N)}
    (hr : Reshape i m.k k' op st st')
    {x y : Slot N} (hx : (k'.proc x).parent = some y) :
    (m.k.proc x).parent = some y ∨ y = initproc ∨
      (y = i ∧ (handsOf st).2 ≠ [] ∧ handsOf st' ≠ handsOf st) := by
  cases hr with
  | quiet hp | alloc _ hp | publish _ hp | dies _ _ _ hp => exact .inl (hp x ▸ hx)
  | free j hp hs hp' =>
    by_cases hxj : x = j
    · rw [hxj, hp'] at hx
      cases hx
    · exact .inl (hp x hxj ▸ hx)
  | link j hp hs hp' hk hk' =>
    by_cases hxj : x = j
    · rw [hxj, hp'] at hx
      rw [hk]
      refine .inr (.inr ⟨(Option.some.inj hx).symm, nofun, fun e => ?_⟩)
      rw [e] at hk'
      cases hk'
    · exact .inl (hp x hxj ▸ hx)
  | adopt j hp hs hj hp' =>
    by_cases hxj : x = j
    · rw [hxj, hp'] at hx
      exact .inr (.inl (Option.some.inj hx).symm)
    · exact .inl (hp x hxj ▸ hx)

end Machine

theorem Frame.leaving_of_kind [NeZero N] {i : Slot N} {par : Slot N → Option (Slot N)}
    {f : Frame N} (h : f.kind ≠ .exit) : f.Leaving i par := by
  cases f with
  | exit => exact absurd rfl h
  | _ => trivial

theorem Frame.Entry.leaving [NeZero N] {i : Slot N} {par : Slot N → Option (Slot N)} {f : Frame N}
    (h : f.Entry) : f.Leaving i par := by
  cases f with
  | exit status msg p =>
    cases (show p = .start from h)
    trivial
  | _ => trivial

theorem instr_leaving [NeZero N] {i : Slot N} {k : Kern N} {ch : Choice} {f : Frame N}
    {o : Out N (Frame N)} (e : instr i k ch f = some o)
    (h : f.Leaving i fun x => (k.proc x).parent)
    (hp : f.kind = .exit → i ≠ initproc → ∀ x, (o.k.proc x).parent = some i →
      (k.proc x).parent = some i) : o.next.Leaving i fun x => (o.k.proc x).parent := by
  by_cases hf : f.kind = .exit
  · cases f with
    | exit status msg p =>
      have h' := h.mono (hp rfl)
      cases p with
      | start =>
        dsimp only [instr, exitInstr] at e
        split at e
        · cases e
        · rename_i hi
          cases e
          exact hi
      | close ks =>
        dsimp only [instr, exitInstr] at e
        split at e
        · cases e
        · cases e
          exact h
        · cases e
          exact h
      | acqW =>
        cases e
        exact ⟨h, fun x _ => List.mem_finRange x⟩
      | reparent rem =>
        cases rem with
        | nil =>
          cases e
          exact ⟨h.1, fun x hx => List.not_mem_nil (h.2 x hx)⟩
        | cons j rem =>
          have hne : ∀ x, (o.k.proc x).parent = some i → x ≠ j → x ∈ rem := fun x hx hxj =>
            (List.mem_cons.mp (h'.2 x hx)).resolve_left hxj
          dsimp only [instr, exitInstr] at e
          split at e
          · cases e
            refine ⟨h.1, fun x hx => hne x hx ?_⟩
            rintro rfl
            have hx' : some initproc = some i := by simpa using hx
            exact h.1 (Option.some.inj hx').symm
          · rename_i hj
            cases e
            refine ⟨h.1, fun x hx => hne x hx ?_⟩
            rintro rfl
            exact hj hx
      | wakeInit rem w =>
        cases e
        generalize wakeInstr (some i) (some (.proc initproc)) k w = o' at h' ⊢
        obtain ⟨op, k', x⟩ := o'
        cases x <;> exact h'
      | wakeParent pch w =>
        cases e
        generalize wakeInstr (some i) pch k w = o' at h' ⊢
        obtain ⟨op, k', x⟩ := o'
        cases x <;> exact h'
      | acqP | relW | swtch =>
        cases e
        exact h'
      | dead => cases e
    | _ => cases hf
  · rcases (instr_does e).kind with hk | hk
    · exact Frame.leaving_of_kind fun h => hf (hk.symm.trans h)
    · exact hk.leaving

section
variable {C : Type} [DecidableEq C] [NeZero N] {m m' : Machine N C} {c : C}

/-- **Every step keeps the tree.** -/
theorem Kern.Tree.step (h : m.k.Tree) (hm : m.Sane) {ch : Choice}
    (e : m.step c ch = some m') : m'.k.Tree := by
  cases Machine.step_acts e with
  | still _ _ hk => exact hk ▸ h
  | @stir j _ _ hj hk =>
    have stays : ∀ {α : Type} (f : Proc N → α), (∀ q s, f { q with state := s } = f q) →
        ∀ x, f (m'.k.proc x) = f (m.k.proc x) := by
      intro α f hf x
      by_cases hxj : x = j
      · rw [hxj]
        cases hj with
        | run _ h' | wake _ h' => rw [h', hf]
      · rw [hk x hxj]
    refine h.congr (stays Proc.context fun _ _ => rfl) (stays Proc.parent fun _ _ => rfl)
      fun x => ?_
    by_cases hxj : x = j
    · rw [hxj]
      cases hj with
      | run hs h' => exact .inr ⟨.inr (.inl hs), .inr (.inr (by rw [h']))⟩
      | wake hs h' => exact .inr ⟨.inl hs, .inr (.inl (by rw [h']))⟩
    · exact .inl (by rw [hk x hxj])
  | @thread i op k' st' hc he hl hk =>
    obtain ⟨⟨-, ⟨j, g, ht, hch⟩, -, -⟩, -⟩ := hm.does hc he
    have hr := hm.reshape hc ht hch
    have hlinks := hr.links h hm
    have hpar : (fun x => ((k'.setContext i st').proc x).parent) = fun x => (k'.proc x).parent :=
      funext fun x => k'.setContext_proj Proc.parent (fun _ _ => rfl) i x st'
    have hstate : ∀ x, ((k'.setContext i st').proc x).state = (k'.proc x).state :=
      fun x => k'.setContext_state i x st'
    have hother := fun x (hx : x ≠ i) => (hm.shift_all hc he hl hx).context
    rw [hk]
    refine ⟨?_, fun x hx => ?_, fun y x hx => ?_, fun y x hx => ?_, fun y => ?_⟩
    · rw [hpar]
      simp only [hstate]
      exact hr.forest h
    · rw [hstate] at hx
      exact (congrFun hpar x).trans (hr.unused h x hx)
    · refine (congrFun hpar x).trans ?_
      by_cases hy : y = i
      · subst hy
        rw [Kern.setContext_self] at hx
        exact hlinks.1 x hx
      · rcases hother y hy with hcx | hcx
        · rw [hcx] at hx
          exact (hlinks.2.2 y hy x (List.mem_append_left _ hx)).trans (h.linked y x hx)
        · rw [hcx] at hx
          cases hx
    · refine (congrFun hpar x).trans ?_
      by_cases hy : y = i
      · subst hy
        rw [Kern.setContext_self] at hx
        exact hlinks.2.1 x hx
      · rcases hother y hy with hcx | hcx
        · rw [hcx] at hx
          exact (hlinks.2.2 y hy x (List.mem_append_right _ hx)).trans (h.loose y x hx)
        · rw [hcx] at hx
          cases hx
    · rw [hpar]
      by_cases hy : y = i
      · subst hy
        rw [Kern.setContext_self]
        have hold : (handsOf (m.k.proc y).context).2 = [] ∨ handsOf st' = handsOf (m.k.proc y).context →
            y ≠ initproc → ∀ x, (k'.proc x).parent = some y → (m.k.proc x).parent = some y := by
          intro hh hinit x hx
          rcases hr.parent hx with h1 | h1 | h1
          · exact h1
          · exact absurd h1 hinit
          · exact absurd hh (not_or.mpr h1.2)
        rcases threadInstr_main he with ⟨f, f', hst, hst', hf⟩ | ⟨hmain, -⟩
        · rw [show st' = [f'] from hst']
          refine instr_leaving hf ?_ fun hex => hold (.inl ?_)
          · have := h.leaving y
            rwa [hst] at this
          · rw [hst]
            cases f <;> first | rfl | cases hex
        · have hmain' : mainOf st' = mainOf (m.k.proc y).context := hmain
          rw [hmain']
          exact (h.leaving y).mono (hold (.inr (by unfold handsOf; rw [hmain'])))
      · have hmono : y ≠ initproc → ∀ x, (k'.proc x).parent = some y → (m.k.proc x).parent = some y := by
          intro hinit x hx
          rcases hr.parent hx with h1 | h1 | h1
          · exact h1
          · exact absurd h1 hinit
          · exact absurd h1.1 hy
        rcases hother y hy with hcx | hcx
        · rw [hcx]
          exact (h.leaving y).mono hmono
        · rw [hcx]
          trivial

theorem Kern.Tree.init (h : Machine.Init m) : m.k.Tree := by
  obtain ⟨hk, -⟩ := h.booted
  have hpar : ∀ x, (m.k.proc x).parent = none := by
    intro x
    by_cases hx : x = initproc
    · rw [hx]
      exact hk.init.parent
    · rw [hk.other x hx]
      rfl
  have hctx : ∀ x, (m.k.proc x).context = [] ∨ (m.k.proc x).context = [.forkret] := by
    intro x
    by_cases hx : x = initproc
    · rw [hx]
      exact .inr hk.init.context
    · rw [hk.other x hx]
      exact .inl rfl
  refine ⟨⟨.inr (.inl hk.init.state), fun x y hx => ?_, fun x hx hne => ?_, fun x y hx => ?_⟩,
    fun x _ => hpar x, fun y x hx => ?_, fun y x hx => ?_, fun y => ?_⟩
  · rw [hpar] at hx
    cases hx
  · rw [hk.other x hne] at hx
    rcases hx with hx | hx
    · exact absurd rfl hx.ne.1
    · cases hx
  · rw [hpar] at hx
    cases hx
  · rcases hctx y with e | e <;> rw [e] at hx <;> cases hx
  · rcases hctx y with e | e <;> rw [e] at hx <;> cases hx
  · rcases hctx y with e | e <;> rw [e] <;> trivial

theorem Kern.Tree.of_run {σ : ℕ → Machine N C} (h : Machine.Run σ) (t : ℕ) : (σ t).k.Tree :=
  (h.invariant (P := fun m => m.Sane ∧ m.k.Tree) (fun _ hi => ⟨.init hi, .init hi⟩)
    (fun _ _ hs ⟨_, _, e⟩ => ⟨hs.1.step e, hs.2.step hs.1 e⟩) t).2

end

/-- **The process tree.**  In every state of every run, every process other than init that is
`SLEEPING`, `RUNNABLE`, `RUNNING` or `ZOMBIE` has a parent whose slot is neither `UNUSED` nor
`ZOMBIE`, and the parent pointers lead from it to init. -/
theorem process_tree {C : Type} [DecidableEq C] [NeZero N] {σ : ℕ → Machine N C}
    (h : Machine.Run σ) (t : ℕ) (p : Slot N) (hp : p ≠ initproc)
    (hs : ((σ t).k.proc p).state = .sleeping ∨ ((σ t).k.proc p).state = .runnable ∨
      ((σ t).k.proc p).state = .running ∨ ((σ t).k.proc p).state = .zombie) :
    (∃ q, ((σ t).k.proc p).parent = some q ∧ ((σ t).k.proc q).state ≠ .unused ∧
      ((σ t).k.proc q).state ≠ .zombie) ∧
    Reaches (fun x => ((σ t).k.proc x).parent) initproc p := by
  have hf := (Kern.Tree.of_run h t).forest
  have hkept : ((σ t).k.proc p).state.Live ∨ ((σ t).k.proc p).state = .zombie := by
    rcases hs with hs | hs | hs | hs
    · exact .inl (.inl hs)
    · exact .inl (.inr (.inl hs))
    · exact .inl (.inr (.inr hs))
    · exact .inr hs
  refine ⟨?_, hf.reaches hkept⟩
  cases hq : ((σ t).k.proc p).parent with
  | none => exact absurd hq (hf.parent p hkept hp)
  | some q =>
    have hl := (hf.up p q hq).ne
    exact ⟨q, rfl, hl.1, hl.2.2⟩

theorem process_tree_sample : ∃ m, sampleBoot = some m ∧
    ((m.schedule sampleRun 16).k.proc 1).state = .runnable ∧
    ((m.schedule sampleRun 16).k.proc 1).parent = some 0 ∧
    Reaches (fun x => ((m.schedule sampleRun 16).k.proc x).parent) initproc 1 := by
  obtain ⟨m, hm, h1, h2⟩ := sample_any (fun m => ((m.schedule sampleRun 16).k.proc 1).state = .runnable ∧
    ((m.schedule sampleRun 16).k.proc 1).parent = some 0) (by decide +kernel)
  exact ⟨m, hm, h1, h2,
    (process_tree (Machine.schedule_run ⟨_, hm⟩ _) 16 1 (by decide) (.inr (.inl h1))).2⟩

end Xv6
