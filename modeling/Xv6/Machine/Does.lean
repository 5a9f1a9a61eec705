import Xv6.Machine.Effect

/-!
# What the routines of `proc.c` do, step by step

* `forkInstr_does`, `forknInstr_does`, `exitInstr_does`, `waitInstr_does`, `waitallInstr_does`,
  `killInstr_does`, `trapInstr_does`   one lemma for each routine;
* `instr_does`   **every step of a thread keeps the lock discipline and touches one slot;**
* `Machine.Moves`   the steps of the machine, as changes of threads, locks and slots.
-/

namespace Xv6
variable {N : ℕ} [NeZero N] {i : Slot N} {k : Kern N}

omit [NeZero N] in
/-- a routine called from a place of its caller and going back to one -/
theorem Embeds.sum {A R : Type} {F : A ⊕ R → List (Frame N)} {need : A ⊕ R → List (Lock N)}
    {mode : A ⊕ R → Frame.Mode N} {point : A ⊕ R → Option (Point N)}
    (M : List (Slot N) × List (Slot N)) (κ : Kind)
    (hl : ∀ a, needs i (F (.inl a)) = need (.inl a) ∧ modeOf i (F (.inl a)) = mode (.inl a) ∧
      pointOf i (F (.inl a)) = point (.inl a) ∧ handsOf (F (.inl a)) = M ∧
      (mainOf (F (.inl a))).kind = κ)
    (hr : ∀ r, needs i (F (.inr r)) = need (.inr r) ∧ modeOf i (F (.inr r)) = mode (.inr r) ∧
      pointOf i (F (.inr r)) = point (.inr r) ∧ handsOf (F (.inr r)) = M ∧
      (mainOf (F (.inr r))).kind = κ) : Embeds i F need mode point := by
  have hM : ∀ x, handsOf (F x) = M := Sum.rec (fun a => (hl a).2.2.2.1) fun r => (hr r).2.2.2.1
  have hk : ∀ x, (mainOf (F x)).kind = κ :=
    Sum.rec (fun a => (hl a).2.2.2.2) fun r => (hr r).2.2.2.2
  exact ⟨Sum.rec (fun a => (hl a).1) fun r => (hr r).1,
    Sum.rec (fun a => (hl a).2.1) fun r => (hr r).2.1,
    Sum.rec (fun a => (hl a).2.2.1) fun r => (hr r).2.2.1,
    fun x y => (hM x).trans (hM y).symm, fun x y => .inl ((hk x).trans (hk y).symm)⟩

/-! ## `allocproc`, `fork` and `forkn` -/

/-- `allocproc` called by a routine that is making the slots `M` -/
structure EmbedsAlloc (i : Slot N) (F : AllocAt N ⊕ Option (Slot N) → List (Frame N))
    (M : List (Slot N)) : Prop where
  need : ∀ a, needs i (F (.inl a)) = allocNeed a
  need0 : needs i (F (.inr none)) = []
  need1 : ∀ j, needs i (F (.inr (some j))) = [.proc j]
  mode : ∀ x, modeOf i (F x) = .run
  hands : ∀ a, handsOf (F (.inl a)) = ([], M)
  hands0 : handsOf (F (.inr none)) = ([], M)
  hands1 : ∀ j, handsOf (F (.inr (some j))) = ([], M ++ [j])
  kind : ∀ x a, (mainOf (F x)).kind = (mainOf (F (.inl a))).kind ∨ (mainOf (F x)).Entry

theorem allocInstr_does {F : AllocAt N ⊕ Option (Slot N) → List (Frame N)} {M : List (Slot N)}
    (hF : EmbedsAlloc i F M) {a : AllocAt N} {o : Out N (AllocAt N ⊕ Option (Slot N))}
    (e : allocInstr k a = some o) : Does i k (F (.inl a)) (o.map F) := by
  obtain ⟨hn, hn0, hn1, hm, hM, hM0, hM1, hk⟩ := hF
  rcases a with rem | ⟨j, rem⟩ | j
  · cases rem with
    | nil =>
      cases e
      exact .still (by simp [hn, hn0, Disc]) (.keep (by simp) (by simp [hm]) (by rw [hM, hM0])) (hk _ _)
    | cons j rem =>
      by_cases hu : (k.proc j).state = .unused
      · dsimp only [allocInstr] at e
        rw [if_pos hu] at e
        cases hx : exec (allocprocFound j) k with
        | none =>
          rw [hx] at e
          cases e
        | some r =>
          obtain ⟨ok, k'⟩ := r
          rw [hx] at e
          rcases exec_allocprocFound hx with ⟨rfl, h⟩ | ⟨rfl, pa, pt, h⟩
          · cases e
            exact .update h (.refl _) (by simp [hn, Disc, allocNeed])
              (.allocFail hu (by simp [hm]) (by simp [hm]) (by rw [hM, hM])) (.inr (.inl hu))
              (hk _ _)
          · cases e
            exact .update h ⟨rfl, rfl, rfl, rfl, rfl, rfl, rfl, rfl⟩
              (by simp [hn, hn1, Disc, allocNeed])
              (.alloc hu (by simp [hm]) (by simp [hm]) (by rw [hM, hM1])) (.inr (.inl hu)) (hk _ _)
      · dsimp only [allocInstr] at e
        rw [if_neg hu] at e
        cases e
        exact .still (by simp [hn, Disc, allocNeed]) (.keep (by simp) (by simp [hm]) (by rw [hM, hM]))
          (hk _ _)
  · cases e
    exact .still (by simp [hn, Disc, allocNeed]) (.keep (by simp) (by simp [hm]) (by rw [hM, hM]))
      (hk _ _)
  · cases e
    exact .still (by simp [hn, hn0, Disc, allocNeed])
      (.keep (by simp) (by simp [hm]) (by rw [hM, hM0])) (hk _ _)

theorem forkInstr_does {p : ForkAt N} {o : Out N (Frame N)} (e : forkInstr i k p = some o) :
    Does i k [.fork p] (o.map fun f => [f]) := by
  cases p with
  | alloc a =>
    obtain ⟨o', e', rfl⟩ := Option.map_eq_some_iff.mp e
    have hF : EmbedsAlloc i (fun x => [Sum.elim (fun a => .fork (.alloc a)) forkWith x]) [] := by
      refine ⟨fun _ => rfl, rfl, fun _ => rfl, ?_, fun _ => rfl, rfl, fun _ => rfl, ?_⟩
      · rintro (_ | _ | _) <;> rfl
      · rintro (_ | _ | _) _ <;> first | exact .inl rfl | exact .inr ⟨rfl, rfl⟩
    exact allocInstr_does hF e'
  | fill np =>
    dsimp only [forkInstr] at e
    cases hx : exec (copyChild i np 0) k with
    | none =>
      rw [hx] at e
      cases e
    | some r =>
      obtain ⟨ok, k'⟩ := r
      rw [hx] at e
      rcases exec_copyChild hx with ⟨rfl, h⟩ | ⟨rfl, pt, sz, pa, tf, o, ip, nm, h⟩
      · cases e
        exact .update h (.refl _) (fun _ hx => hx) (.fillFail rfl rfl rfl)
          (.inr (.inr (.inr (.inl List.mem_cons_self)))) (.inl rfl)
      · cases e
        exact .update h ⟨rfl, rfl, rfl, rfl, rfl, rfl, rfl, rfl⟩ (fun _ hx => hx)
          (.fill rfl rfl List.mem_cons_self rfl)
          (.inr (.inr (.inr (.inl List.mem_cons_self)))) (.inl rfl)
  | relFail np =>
    cases e
    exact .still (by simp [Disc, needs, Frame.need, forkNeed]) (.keep (by simp) rfl rfl) (.inr ⟨rfl, rfl⟩)
  | rel np pid =>
    cases e
    exact .still (by simp [Disc, needs, Frame.need, forkNeed]) (.keep (by simp) rfl rfl) (.inl rfl)
  | acqW np pid =>
    cases e
    show Does i k _ ⟨.acq .wait, k.upd np fun q => { q with parent := some i },
      [.fork (.relW np pid)]⟩
    exact .touch_one (by simp [Disc, needs, Frame.need, forkNeed])
      (.link (by simp) rfl rfl rfl rfl (.inl rfl)) (fun _ => rfl) (.inl rfl)
  | relW np pid =>
    cases e
    exact .still (by simp [Disc, needs, Frame.need, forkNeed]) (.keep (by simp) rfl rfl) (.inl rfl)
  | acqPub np pid =>
    cases e
    exact .touch_one (by simp [Disc, needs, Frame.need, forkNeed]) (.publish rfl rfl rfl rfl) (fun _ => rfl)
      (.inl rfl)
  | relPub np pid =>
    cases e
    exact .still (by simp [Disc, needs, Frame.need, forkNeed]) (.keep (by simp) rfl rfl) (.inr ⟨rfl, rfl⟩)

theorem forknInstr_does {n : CInt} {pids : Nat} {p : ForknAt N} {o : Out N (Frame N)}
    (e : forknInstr i k n pids p = some o) :
    Does i k [.forkn n pids p] (o.map fun f => [f]) := by
  cases p with
  | check =>
    dsimp only [forknInstr] at e
    split at e
    · cases e
      exact .still (fun _ hx => hx) (.keep (by simp) rfl rfl) (.inr ⟨rfl, rfl⟩)
    · cases e
      exact .still (fun _ hx => hx) (.keep (by simp) rfl rfl) (.inl rfl)
  | alloc a kids pl =>
    obtain ⟨o', e', rfl⟩ := Option.map_eq_some_iff.mp e
    have hF : EmbedsAlloc i (fun x => [Sum.elim (fun a => .forkn n pids (.alloc a kids pl))
        (forknWith n pids kids pl) x]) kids := by
      refine ⟨fun _ => rfl, rfl, fun _ => rfl, ?_, fun _ => rfl, rfl, fun _ => rfl, ?_⟩
      · rintro (_ | _ | _) <;> rfl
      · rintro (_ | _ | _) _ <;> exact .inl rfl
    exact allocInstr_does hF e'
  | fill np kids pl =>
    dsimp only [forknInstr] at e
    have hnp : np ∈ makingOf [.forkn n pids (.fill np kids pl)] :=
      List.mem_append_right kids List.mem_cons_self
    cases hx : exec (copyChild i np (kids.length + 1)) k with
    | none =>
      rw [hx] at e
      cases e
    | some r =>
      obtain ⟨ok, k'⟩ := r
      rw [hx] at e
      rcases exec_copyChild hx with ⟨rfl, h⟩ | ⟨rfl, pt, sz, pa, tf, o, ip, nm, h⟩
      · cases e
        exact .update h (.refl _) (List.nil_subset _) (.fillFail rfl rfl rfl)
          (.inr (.inr (.inr (.inl hnp)))) (.inl rfl)
      · cases e
        exact .update h ⟨rfl, rfl, rfl, rfl, rfl, rfl, rfl, rfl⟩ (fun _ hx => hx)
          (.fill rfl rfl hnp rfl) (.inr (.inr (.inr (.inl hnp)))) (.inl rfl)
  | rel np kids pl =>
    dsimp only [forknInstr] at e
    split at e <;> cases e
    · exact .still (by simp [Disc, needs, Frame.need, forknNeed, allocNeed]) (.keep (by simp) rfl rfl) (.inl rfl)
    · exact .still (by simp [Disc, needs, Frame.need, forknNeed]) (.keep (by simp) rfl rfl) (.inl rfl)
  | clean rem =>
    cases rem with
    | nil =>
      cases e
      exact .still (fun _ hx => hx) (.keep (by simp) rfl rfl) (.inr ⟨rfl, rfl⟩)
    | cons j rem =>
      obtain ⟨r, hx, rfl⟩ := Option.map_eq_some_iff.mp e
      exact .update (exec_clean hx) (.refl _) (by simp [Disc, needs, Frame.need, forknNeed])
        (.clean rfl rfl rfl rfl) (.inr (.inr (.inr (.inl List.mem_cons_self)))) (.inl rfl)
  | cleanRel j rem =>
    cases e
    exact .still (by simp [Disc, needs, Frame.need, forknNeed]) (.keep (by simp) rfl rfl) (.inl rfl)
  | acqW kids pl =>
    cases e
    exact .still (fun _ hx => hx) (.keep (by simp) rfl rfl) (.inl rfl)
  | link rem pl =>
    cases rem with
    | nil =>
      cases e
      exact .still (fun _ hx => hx) (.keep (by simp) rfl rfl) (.inl rfl)
    | cons j rem =>
      cases e
      show Does i k _ ⟨.tau, k.upd j fun q => { q with parent := some i },
        [.forkn n pids (.linkAcq j rem pl)]⟩
      exact .touch_one (fun _ hx => hx) (.link (by simp) rfl rfl rfl rfl (.inr List.mem_cons_self))
        (fun _ => rfl)
        (.inl rfl)
  | linkAcq j rem pl =>
    cases e
    exact .touch_one (by simp [Disc, needs, Frame.need, forknNeed]) (.publish rfl rfl rfl rfl) (fun _ => rfl)
      (.inl rfl)
  | linkRel j rem pl =>
    cases e
    exact .still (by simp [Disc, needs, Frame.need, forknNeed]) (.keep (by simp) rfl rfl) (.inl rfl)
  | relW pl =>
    cases e
    exact .still (by simp [Disc, needs, Frame.need, forknNeed]) (.keep (by simp) rfl rfl) (.inl rfl)
  | out pl =>
    dsimp only [forknInstr] at e
    split at e
    · cases e
      exact .still (fun _ hx => hx) (.keep (by simp) rfl rfl) (.inr ⟨rfl, rfl⟩)
    · obtain ⟨r, hx, rfl⟩ := Option.map_eq_some_iff.mp e
      obtain ⟨pt, h⟩ := exec_copyoutTo hx
      exact .update h ⟨rfl, rfl, rfl, rfl, rfl, rfl, rfl, rfl⟩ (fun _ hx => hx)
        (.keep (by simp) rfl rfl) (.inl rfl) (.inr ⟨rfl, rfl⟩)

/-! ## `exit`, `wait`, `waitall` and `kill` -/

theorem Does.and_own {st st' : List (Frame N)} {op : Op (Lock N)} {k' : Kern N}
    {g : Proc N → Proc N} (h : Does i k st ⟨op, k', st'⟩) (hg : ∀ q : Proc N, q.Same (g q)) :
    Does i k st ⟨op, k'.upd i g, st'⟩ := by
  obtain ⟨hd, ⟨j, g', ht, hc⟩, hm, hk⟩ := h
  refine ⟨hd, ⟨j, g', ht, ?_, fun hij => ?_, fun x hi hj => ?_⟩, fun x hx => ?_, hk⟩
  · by_cases hj : j = i
    · subst hj
      rw [Kern.upd_same]
      exact hc.here.trans (hg _)
    · rw [Kern.upd_ne _ _ hj]
      exact hc.here
  · rw [Kern.upd_same]
    exact (hc.own hij).trans (hg _)
  · rw [Kern.upd_ne _ _ hi]
    exact hc.other x hi hj
  · rw [Kern.upd_ne _ _ hx]
    exact hm x hx

theorem exitInstr_does {ch : Choice} {status : CInt} {msg : Nat → Byte} {p : ExitAt N}
    {o : Out N (Frame N)} (e : exitInstr i k ch status msg p = some o) :
    Does i k [.exit status msg p] (o.map fun f => [f]) := by
  cases p with
  | start =>
    dsimp only [exitInstr] at e
    split at e
    · cases e
    · cases e
      exact .still (fun _ hx => hx) (.keep (by simp) rfl rfl) (.inl rfl)
  | close ks =>
    dsimp only [exitInstr] at e
    have hF : EmbedsKern i (fun x => [Sum.elim (fun ks => .exit status msg (.close ks))
        (fun _ => .exit status msg .acqW) x]) :=
      .sum ([], []) .exit (fun _ => ⟨rfl, rfl, rfl, rfl, rfl⟩) fun _ => ⟨rfl, rfl, rfl, rfl, rfl⟩
    split at e
    · cases e
    · rename_i hx
      cases e
      exact kernInstr_does hF hx
    · rename_i op k' r hx
      cases e
      show Does i k _ ⟨op, k'.upd i fun q => { q with ofile := fun _ => none, cwd := none },
        [.exit status msg .acqW]⟩
      exact (kernInstr_does hF hx).and_own fun q => ⟨rfl, rfl, rfl, rfl, rfl, rfl, rfl, rfl⟩
  | acqW =>
    cases e
    exact .own (by simp [Disc, needs, Frame.need, exitNeed]) (.exitMsg rfl) (.inl rfl)
  | reparent rem =>
    cases rem with
    | nil =>
      cases e
      exact .still (fun _ hx => hx) (.keep (by simp) rfl rfl) (.inl rfl)
    | cons j rem =>
      dsimp only [exitInstr] at e
      split at e
      · rename_i hc
        cases e
        exact .touch_one (by simp [Disc, needs, Frame.need, exitNeed, wakeNeed]) (.reparent rfl hc)
          (fun _ => rfl) (.inl rfl)
      · cases e
        exact .still (fun _ hx => hx) (.keep (by simp) rfl rfl) (.inl rfl)
  | wakeInit rem w =>
    cases e
    have hF : EmbedsWake i (fun x => [Sum.elim (fun w => .exit status msg (.wakeInit rem w))
        (fun _ => .exit status msg (.reparent rem)) x]) [.wait] :=
      .sum ([], []) .exit (fun _ => ⟨rfl, rfl, rfl, rfl, rfl⟩) fun _ => ⟨rfl, rfl, rfl, rfl, rfl⟩
    exact wakeInstr_does hF (by simp) _ w
  | wakeParent pch w =>
    cases e
    have hF : EmbedsWake i (fun x => [Sum.elim (fun w => .exit status msg (.wakeParent pch w))
        (fun _ => .exit status msg .acqP) x]) [.wait] :=
      .sum ([], []) .exit (fun _ => ⟨rfl, rfl, rfl, rfl, rfl⟩) fun _ => ⟨rfl, rfl, rfl, rfl, rfl⟩
    exact wakeInstr_does hF (by simp) _ w
  | acqP =>
    cases e
    exact .own (by simp [Disc, needs, Frame.need, exitNeed]) (.zombie rfl) (.inl rfl)
  | relW =>
    cases e
    exact .still (by simp [Disc, needs, Frame.need, exitNeed]) (.keep (by simp) rfl rfl) (.inl rfl)
  | swtch =>
    cases e
    exact .still (fun _ hx => hx) (.swtch rfl rfl) (.inl rfl)
  | dead => cases e

theorem waitInstr_does {addr msg : Nat} {p : WaitAt N} {o : Out N (Frame N)}
    (e : waitInstr i k addr msg p = some o) :
    Does i k [.wait addr msg p] (o.map fun f => [f]) := by
  cases p with
  | acqW =>
    cases e
    exact .still (fun _ hx => hx) (.keep (by simp) rfl rfl) (.inl rfl)
  | scan rem havekids =>
    cases rem with
    | nil =>
      cases e
      cases havekids
      · exact .still (fun _ hx => hx) (.keep (by simp) rfl rfl) (.inl rfl)
      · exact .still (fun _ hx => hx) (.keep (by simp) rfl rfl) (.inl rfl)
    | cons j rem =>
      dsimp only [waitInstr] at e
      by_cases hc : (k.proc j).parent = some i
      · rw [if_pos hc] at e
        by_cases hz : (k.proc j).state = .zombie
        · rw [if_pos hz] at e
          obtain ⟨⟨r, k'⟩, hx, rfl⟩ := Option.map_eq_some_iff.mp e
          have hd : Disc (needs i [.wait addr msg (.scan (j :: rem) havekids)])
              (.acq (.proc j)) (needs i [.wait addr msg (.relReap j r)]) := fun _ hx => hx
          obtain ⟨pt, ⟨-, h⟩ | ⟨-, h⟩⟩ := exec_waitReap hx
          · exact .update h ⟨rfl, rfl, rfl, rfl, rfl, rfl, rfl, rfl⟩ hd (.keep (by simp) rfl rfl)
              (.inl rfl) (.inl rfl)
          · show Does i k _ ⟨.acq (.proc j), k', [.wait addr msg (.relReap j r)]⟩
            refine ⟨hd, ⟨j, Proc.freed, .reap hc hz rfl rfl rfl rfl List.mem_cons_self, ?_, fun hij => ?_,
              fun x hi hj => ?_⟩, fun x hi => ?_, .inl rfl⟩
            · rw [h, Function.update_self]
              exact .refl _
            · rw [h, Function.update_of_ne hij, Function.update_self]
              exact ⟨rfl, rfl, rfl, rfl, rfl, rfl, rfl, rfl⟩
            · rw [h, Function.update_of_ne hj, Function.update_of_ne hi]
            · by_cases hj : x = j
              · exact .inr (.inr (.inl (hj ▸ hz)))
              · exact .inl (by rw [h, Function.update_of_ne hj, Function.update_of_ne hi])
        · rw [if_neg hz] at e
          cases e
          exact .still (fun _ hx => hx) (.keep (by simp) rfl rfl) (.inl rfl)
      · rw [if_neg hc] at e
        cases e
        exact .still (fun _ hx => hx) (.keep (by simp) rfl rfl) (.inl rfl)
  | rel j rem =>
    cases e
    exact .still (by simp [Disc, needs, Frame.need, waitNeed]) (.keep (by simp) rfl rfl) (.inl rfl)
  | relReap j r =>
    cases e
    exact .still (by simp [Disc, needs, Frame.need, waitNeed]) (.keep (by simp) rfl rfl) (.inl rfl)
  | relW r =>
    cases e
    exact .still (by simp [Disc, needs, Frame.need, waitNeed]) (.keep (by simp) rfl rfl) (.inr ⟨rfl, rfl⟩)
  | killed s =>
    cases e
    have hF : EmbedsKilled i (fun x => [Sum.elim (fun s => .wait addr msg (.killed s))
        (fun b : Bool => .wait addr msg (if b then .relW none else .sleeping .acq)) x]) [.wait] :=
      .sum ([], []) .wait (fun _ => ⟨rfl, rfl, rfl, rfl, rfl⟩) fun b => by
        cases b <;> exact ⟨rfl, rfl, rfl, rfl, rfl⟩
    exact killedInstr_does hF (by simp) s
  | sleeping s =>
    cases e
    have hF : EmbedsSleep i (fun x => [Sum.elim (fun s => .wait addr msg (.sleeping s))
        (fun _ => .wait addr msg (.scan (slots N) false)) x]) (.proc i) .wait :=
      .sum ([], []) .wait (fun _ => ⟨rfl, rfl, rfl, rfl, rfl⟩) fun _ => ⟨rfl, rfl, rfl, rfl, rfl⟩
    exact sleepInstr_does hF (by simp) s

theorem Does.copyout {f f' : Frame N} {va : Nat} {src : List Byte} {k' : Kern N}
    (h : exec (tryCopyout i va src) k = some ((), k')) (hn : f.need i = []) (hn' : f'.need i = [])
    (hm : f'.mode i = f.mode i) (hM : handsOf [f'] = handsOf [f]) (hk : f'.kind = f.kind ∨ f'.Entry) :
    Does i k [f] ⟨.tau, k', [f']⟩ := by
  obtain ⟨pt, h⟩ := exec_tryCopyout h
  exact .update h ⟨rfl, rfl, rfl, rfl, rfl, rfl, rfl, rfl⟩ (by simp [Disc, needs, hn, hn'])
    (.keep (by simp) hm hM) (.inl rfl) hk

theorem waitallInstr_does {nAddr statusesAddr : Nat} {p : WaitallAt N} {o : Out N (Frame N)}
    (e : waitallInstr i k nAddr statusesAddr p = some o) :
    Does i k [.waitall nAddr statusesAddr p] (o.map fun f => [f]) := by
  cases p with
  | acqW =>
    cases e
    exact .still (fun _ hx => hx) (.keep (by simp) rfl rfl) (.inl rfl)
  | scan rem l =>
    cases rem with
    | nil =>
      cases e
      cases hf : l.foundChild
      · exact .still (fun _ hx => hx) (.keep (by simp) rfl rfl) (.inl rfl)
      · cases ha : l.allDone
        · exact .still (fun _ hx => hx) (.keep (by simp) rfl rfl) (.inl rfl)
        · exact .still (fun _ hx => hx) (.keep (by simp) rfl rfl) (.inl rfl)
    | cons j rem =>
      cases e
      exact .still (fun _ hx => hx) (.keep (by simp) rfl rfl) (.inl rfl)
  | rel j rem l =>
    cases e
    exact .still (by simp [Disc, needs, Frame.need, waitallNeed]) (.keep (by simp) rfl rfl) (.inl rfl)
  | relWNone =>
    cases e
    exact .still (by simp [Disc, needs, Frame.need, waitallNeed]) (.keep (by simp) rfl rfl) (.inl rfl)
  | outNone =>
    obtain ⟨r, hx, rfl⟩ := Option.map_eq_some_iff.mp e
    exact .copyout hx rfl rfl rfl rfl (.inr ⟨rfl, rfl⟩)
  | free rem l =>
    cases rem with
    | nil =>
      cases e
      exact .still (fun _ hx => hx) (.keep (by simp) rfl rfl) (.inl rfl)
    | cons j rem =>
      obtain ⟨r, hx, rfl⟩ := Option.map_eq_some_iff.mp e
      exact .update (exec_freeproc hx) (.refl _) (fun _ hx => hx) (.free rfl rfl rfl rfl List.mem_cons_self)
        (.inr (.inr (.inr (.inr List.mem_cons_self)))) (.inl rfl)
  | freeRel j rem l =>
    cases e
    exact .still (by simp [Disc, needs, Frame.need, waitallNeed]) (.keep (by simp) rfl rfl) (.inl rfl)
  | relW l =>
    cases e
    exact .still (by simp [Disc, needs, Frame.need, waitallNeed]) (.keep (by simp) rfl rfl) (.inl rfl)
  | outN l =>
    obtain ⟨r, hx, rfl⟩ := Option.map_eq_some_iff.mp e
    exact .copyout hx rfl rfl rfl rfl (.inl rfl)
  | outS l =>
    obtain ⟨r, hx, rfl⟩ := Option.map_eq_some_iff.mp e
    exact .copyout hx rfl rfl rfl rfl (.inl rfl)
  | done l =>
    cases e
    exact .still (fun _ hx => hx) (.keep (by simp) rfl rfl) (.inr ⟨rfl, rfl⟩)
  | killed st s =>
    cases e
    have hF : EmbedsKilled i (fun x => [Sum.elim (fun s => .waitall nAddr statusesAddr (.killed st s))
        (fun b : Bool => .waitall nAddr statusesAddr
          (if b then .relWKilled else .sleeping st .acq)) x]) [.wait] :=
      .sum ([], []) .waitall (fun _ => ⟨rfl, rfl, rfl, rfl, rfl⟩) fun b => by
        cases b <;> exact ⟨rfl, rfl, rfl, rfl, rfl⟩
    exact killedInstr_does hF (by simp) s
  | relWKilled =>
    cases e
    exact .still (by simp [Disc, needs, Frame.need, waitallNeed]) (.keep (by simp) rfl rfl) (.inr ⟨rfl, rfl⟩)
  | sleeping st s =>
    cases e
    have hF : EmbedsSleep i (fun x => [Sum.elim (fun s => .waitall nAddr statusesAddr (.sleeping st s))
        (fun _ => .waitall nAddr statusesAddr (.scan (slots N) (Pass.start st))) x]) (.proc i) .wait :=
      .sum ([], []) .waitall (fun _ => ⟨rfl, rfl, rfl, rfl, rfl⟩) fun _ => ⟨rfl, rfl, rfl, rfl, rfl⟩
    exact sleepInstr_does hF (by simp) s

theorem killInstr_does (pid : CInt) (p : KillAt N) :
    Does i k [.kill pid p] ((killInstr k pid p).map fun f => [f]) := by
  rcases p with rem | ⟨j, rem⟩ | j
  · cases rem with
    | nil =>
      dsimp only [killInstr, Out.map]
      exact .still (fun _ hx => hx) (.keep (by simp) rfl rfl) (.inr ⟨rfl, rfl⟩)
    | cons j rem =>
      dsimp only [killInstr]
      split
      · rename_i hp
        exact .touch_one (by simp [Disc, needs, Frame.need, killNeed]) (.kill rfl hp) (fun _ => rfl)
          (.inl rfl)
      · exact .still (fun _ hx => hx) (.keep (by simp) rfl rfl) (.inl rfl)
  · dsimp only [killInstr, Out.map]
    exact .still (by simp [Disc, needs, Frame.need, killNeed]) (.keep (by simp) rfl rfl) (.inl rfl)
  · dsimp only [killInstr, Out.map]
    exact .still (by simp [Disc, needs, Frame.need, killNeed]) (.keep (by simp) rfl rfl) (.inr ⟨rfl, rfl⟩)

/-! ## traps and threads -/

omit [NeZero N] in
theorem Syscall.start_facts (i : Slot N) (sc : Syscall) :
    (sc.start : Frame N).need i = [] ∧ (sc.start : Frame N).mode i = .run ∧
    (sc.start : Frame N).point i = none ∧ handsOf [(sc.start : Frame N)] = ([], []) ∧
    (sc.start : Frame N).Entry := by
  cases sc
  case exit => exact ⟨rfl, rfl, rfl, rfl, rfl, rfl⟩
  all_goals exact ⟨rfl, rfl, rfl, rfl, rfl⟩

theorem trapInstr_does {ch : Choice} {f : Frame N} {o : Out N (Frame N)}
    (e : trapInstr i k ch f = some o) : Does i k [f] (o.map fun f => [f]) := by
  cases f with
  | user =>
    cases ch with
    | store va bs tf =>
      cases e
      refine .update rfl (g := id) ⟨rfl, rfl, rfl, rfl, rfl, rfl, rfl, rfl⟩ (fun _ hx => hx)
        (.keep (by simp) rfl rfl) (.inl rfl) (.inl rfl)
    | syscall sc =>
      cases e
      exact .still (fun _ hx => hx) (.keep (by simp) rfl rfl) (.inl rfl)
    | fault =>
      cases e
      exact .still (fun _ hx => hx) (.keep (by simp) rfl rfl) (.inl rfl)
    | irq timer =>
      cases e
      exact .still (fun _ hx => hx) (.keep (by simp) rfl rfl) (.inl rfl)
    | _ => cases e
  | trapSyscall sc s =>
    cases e
    have hF : EmbedsKilled i (fun x => [Sum.elim (fun s => .trapSyscall sc s)
        (fun b : Bool => if b then .exit (-1) emptyMsg .start else sc.start) x]) [] := by
      obtain ⟨h1, h2, h3, h4, h5⟩ := Syscall.start_facts i sc
      refine ⟨?_, ?_, ?_, ?_, ?_⟩
      · rintro (_ | _ | _)
        · exact (List.append_nil _).symm
        · exact h1
        · rfl
      · rintro (_ | _ | _)
        · rfl
        · exact h2
        · rfl
      · rintro (_ | _ | _)
        · rfl
        · exact h3
        · rfl
      · rintro (_ | _ | _) (_ | _ | _) <;> first | rfl | exact h4 | exact h4.symm
      · rintro (_ | _ | _) y
        · exact .inr ⟨rfl, rfl⟩
        · exact .inr h5
        · exact .inr rfl
    exact killedInstr_does hF (by simp) s
  | trapFault s =>
    cases e
    have hF : EmbedsKilled i (fun x => [Sum.elim (fun s => .trapFault s)
        (fun _ : Unit => .trapRet false .acq) x]) [] := by
      refine ⟨?_, ?_, ?_, ?_, ?_⟩
      · rintro (_ | _)
        · exact (List.append_nil _).symm
        · rfl
      · rintro (_ | _) <;> rfl
      · rintro (_ | _) <;> rfl
      · rintro (_ | _) (_ | _) <;> rfl
      · rintro (_ | _) (_ | _) <;> exact .inl rfl
    exact setkilledInstr_does hF s
  | trapDev timer ks =>
    obtain ⟨o', e', rfl⟩ := Option.map_eq_some_iff.mp e
    have hF : EmbedsKern i (fun x => [Sum.elim (fun ks => .trapDev timer ks)
        (fun _ => .trapRet timer .acq) x]) :=
      .sum ([], []) .trap (fun _ => ⟨rfl, rfl, rfl, rfl, rfl⟩) fun _ => ⟨rfl, rfl, rfl, rfl, rfl⟩
    exact kernInstr_does hF e'
  | trapRet timer s =>
    cases e
    have hF : EmbedsKilled i (fun x => [Sum.elim (fun s => .trapRet timer s) (fun b : Bool =>
        if b then .exit (-1) emptyMsg .start else if timer then .trapYield .acq else .user) x]) [] := by
      cases timer
      all_goals
        refine ⟨?_, ?_, ?_, ?_, ?_⟩
        · rintro (_ | _ | _)
          · exact (List.append_nil _).symm
          · rfl
          · rfl
        · rintro (_ | _ | _) <;> rfl
        · rintro (_ | _ | _) <;> rfl
        · rintro (_ | _ | _) (_ | _ | _) <;> rfl
        · rintro (_ | _ | _) y <;> first | exact .inr ⟨rfl, rfl⟩ | exact .inr rfl
    exact killedInstr_does hF (by simp) s
  | trapYield s =>
    cases e
    have hF : EmbedsYield i (fun x => [Sum.elim (fun s => .trapYield s) (fun _ => .user) x]) :=
      .sum ([], []) .trap (fun _ => ⟨rfl, rfl, rfl, rfl, rfl⟩) fun _ => ⟨rfl, rfl, rfl, rfl, rfl⟩
    exact yieldInstr_does hF s
  | sysRet r =>
    cases e
    exact .update rfl (g := id) ⟨rfl, rfl, rfl, rfl, rfl, rfl, rfl, rfl⟩ (fun _ hx => hx)
      (.keep (by simp) rfl rfl) (.inl rfl) (.inl rfl)
  | sysExit status msg =>
    dsimp only [trapInstr] at e
    split at e
    · cases e
      exact .still (fun _ hx => hx) (.keep (by simp) rfl rfl) (.inr rfl)
    · cases e
  | kern sys ks =>
    obtain ⟨o', e', rfl⟩ := Option.map_eq_some_iff.mp e
    have hF : EmbedsKern i (fun x => [Sum.elim (fun ks => .kern sys ks)
        (fun r => if sys then .sysRet r else .user) x]) := by
      cases sys
      all_goals
        refine ⟨?_, ?_, ?_, ?_, ?_⟩
        · rintro (_ | _) <;> rfl
        · rintro (_ | _) <;> rfl
        · rintro (_ | _) <;> rfl
        · rintro (_ | _) (_ | _) <;> rfl
        · rintro (_ | _) (_ | _) <;> exact .inl rfl
    exact kernInstr_does hF e'
  | forkret =>
    cases e
    exact .still (by simp [Disc, needs, Frame.need, kernNeed]) (.keep (by simp) rfl rfl) (.inl rfl)
  | _ => cases e

/-- **Every step of the thread of a process keeps the lock discipline and touches one slot.** -/
theorem instr_does {ch : Choice} {f : Frame N} {o : Out N (Frame N)}
    (e : instr i k ch f = some o) : Does i k [f] (o.map fun f => [f]) := by
  cases f with
  | fork p => exact forkInstr_does e
  | forkn n pids p => exact forknInstr_does e
  | exit status msg p => exact exitInstr_does e
  | wait addr msg p => exact waitInstr_does e
  | waitall nAddr statusesAddr p => exact waitallInstr_does e
  | kill pid p =>
    cases e
    exact killInstr_does pid p
  | _ =>
    exact trapInstr_does (show trapInstr i k ch _ = some o from e)

theorem intrInstr_does {ch : Choice} {g f : Frame N} {o : Out N (Option (Frame N))}
    (hf : f.need i = []) (e : intrInstr (some i) k ch g = some o) :
    Does i k [g, f] (o.map fun g => g.toList ++ [f]) := by
  obtain ⟨hm, hp⟩ := Frame.run_of_need hf
  cases g with
  | intr timer ks =>
    obtain ⟨o', e', rfl⟩ := Option.map_eq_some_iff.mp e
    have hF : EmbedsKern i (fun x => (Sum.elim (fun ks => some (.intr timer ks)) (fun _ =>
        if timer ∧ (k.proc i).state = .running then some (.intrYield .acq) else none) x).toList
        ++ [f]) := by
      by_cases hc : timer ∧ (k.proc i).state = .running
      · rw [if_pos hc]
        refine ⟨?_, ?_, ?_, ?_, ?_⟩
        · rintro (ks | _)
          · show kernNeed (some i) ks ++ f.need i = kernNeed (some i) ks
            rw [hf, List.append_nil]
          · exact hf
        · rintro (_ | _) <;> rfl
        · rintro (_ | _) <;> rfl
        · rintro (_ | _) (_ | _) <;> rfl
        · rintro (_ | _) (_ | _) <;> exact .inl rfl
      · rw [if_neg hc]
        refine ⟨?_, ?_, ?_, ?_, ?_⟩
        · rintro (ks | _)
          · show kernNeed (some i) ks ++ f.need i = kernNeed (some i) ks
            rw [hf, List.append_nil]
          · exact hf
        · rintro (_ | _)
          · rfl
          · exact hm
        · rintro (_ | _)
          · rfl
          · exact hp
        · rintro (_ | _) (_ | _) <;> rfl
        · rintro (_ | _) (_ | _) <;> exact .inl rfl
    exact kernInstr_does hF e'
  | intrYield s =>
    cases e
    have hF : EmbedsYield i (fun x => (Sum.elim (fun s => some (.intrYield s)) (fun _ => none)
        x).toList ++ [f]) := by
      refine ⟨?_, ?_, ?_, ?_, ?_⟩
      · rintro (s | _)
        · show yieldNeed i s ++ f.need i = yieldNeed i s
          rw [hf, List.append_nil]
        · exact hf
      · rintro (_ | _)
        · rfl
        · exact hm
      · rintro (_ | _)
        · rfl
        · exact hp
      · rintro (_ | _) (_ | _) <;> rfl
      · rintro (_ | _) (_ | _) <;> exact .inl rfl
    exact yieldInstr_does hF s
  | _ => cases e

/-- the frame of an interrupt handler, which does not call `sleep` -/
def Frame.Handler : Frame N → Prop
  | .intr _ (.sleep _ _ _) => False
  | .intr _ _ => True
  | .intrYield _ => True
  | _ => False

omit [NeZero N] in
theorem Frame.Handler.kind {g : Frame N} (h : g.Handler) : g.kind = .intr := by
  cases g <;> first | rfl | exact h.elim

omit [NeZero N] in
theorem intrInstr_handler {self : Option (Slot N)} {ch : Choice} {g : Frame N}
    {o : Out N (Option (Frame N))} (hg : g.Handler) (e : intrInstr self k ch g = some o)
    (g' : Frame N) (h : o.next = some g') : g'.Handler := by
  cases g with
  | intr timer ks =>
    obtain ⟨⟨op, k', x⟩, e', rfl⟩ := Option.map_eq_some_iff.mp e
    cases x with
    | inl ks' =>
      cases h
      cases ks with
      | run held =>
        cases ch with
        | lock a | unlock a | work a =>
          dsimp only [kernInstr] at e'
          split at e' <;> cases e'
          all_goals trivial
        | sleep a lk =>
          dsimp only [kernInstr] at e'
          split at e'
          · rename_i hb
            cases hb.1
          · cases e'
        | leave r =>
          dsimp only [kernInstr] at e'
          split at e' <;> cases e'
        | wake a =>
          cases e'
          trivial
        | _ => cases e'
      | sleep => exact hg.elim
      | wake a held w =>
        dsimp only [kernInstr] at e'
        generalize wakeInstr self (some (Chan.other a)) k w = o' at e'
        obtain ⟨op', k', y⟩ := o'
        cases y <;> cases e' <;> trivial
    | inr r =>
      cases self with
      | none => cases h
      | some i =>
        change (if _ then some (Frame.intrYield .acq) else none) = some g' at h
        split at h
        · cases h
          trivial
        · cases h
  | intrYield s =>
    cases self with
    | none => cases e
    | some i =>
      cases e
      change Sum.elim (fun s => some (Frame.intrYield s)) (fun _ => none) _ = some g' at h
      cases s <;> cases h <;> trivial
  | _ => cases e

/-- under an interrupt no lock is held -/
def Low (i : Slot N) : List (Frame N) → Prop
  | [] => True
  | [_] => True
  | [g, f] => g.Handler ∧ f.need i = []
  | _ :: _ :: _ :: _ => False

/-- a step of a thread is one of its lowest frame, an interrupt, or a step of the handler -/
theorem threadInstr_cases {ch : Choice} {d : Nat} {st : List (Frame N)}
    {o : Out N (List (Frame N))} (e : threadInstr i k ch d st = some o) :
    (∃ f f', st = [f] ∧ o.next = [f'] ∧ instr i k ch f = some ⟨o.op, o.k, f'⟩) ∨
    (∃ timer f, st = [f] ∧ d = 0 ∧ o = ⟨.tau, k, [.intr timer (.run []), f]⟩) ∨
    (∃ g f o', st = [g, f] ∧ intrInstr (some i) k ch g = some o' ∧
      o = o'.map fun g => g.toList ++ [f]) := by
  match st with
  | [] => cases e
  | [f] =>
    by_cases hpush : ∃ timer, ch = .irq timer ∧ f ≠ .user
    · obtain ⟨timer, rfl, hf⟩ := hpush
      have e' : (if d = 0 then some (⟨.tau, k, [.intr timer (.run []), f]⟩ : Out N _) else none)
          = some o := by
        cases f
        case user => exact absurd rfl hf
        all_goals exact e
      split at e'
      · rename_i hd
        exact .inr (.inl ⟨timer, f, rfl, hd, (Option.some.inj e').symm⟩)
      · cases e'
    · have e' : (instr i k ch f).map (Out.map fun f => [f]) = some o := by
        cases ch
        case irq timer =>
          have hf : f = .user := by
            by_contra hne
            exact hpush ⟨timer, rfl, hne⟩
          subst hf
          exact e
        all_goals exact e
      obtain ⟨o', h, rfl⟩ := Option.map_eq_some_iff.mp e'
      exact .inl ⟨f, o'.next, rfl, rfl, h⟩
  | [g, f] =>
    obtain ⟨o', h, rfl⟩ := Option.map_eq_some_iff.mp e
    exact .inr (.inr ⟨g, f, o', rfl, h, rfl⟩)
  | _ :: _ :: _ :: _ => cases e

theorem threadInstr_does {ch : Choice} {d : Nat} {st : List (Frame N)}
    {o : Out N (List (Frame N))} (h0 : d = 0 → needs i st = []) (hl : Low i st)
    (e : threadInstr i k ch d st = some o) : Does i k st o ∧ Low i o.next := by
  rcases threadInstr_cases e with ⟨f, f', rfl, hnext, h⟩ | ⟨timer, f, rfl, hd, rfl⟩ |
    ⟨g, f, o', rfl, h, rfl⟩
  · obtain ⟨op, k', st'⟩ := o
    cases hnext
    exact ⟨instr_does h, trivial⟩
  · have hn : f.need i = [] := h0 hd
    refine ⟨.still ?_ (.keep (by simp) (Frame.run_of_need hn).1.symm rfl) (.inl rfl), trivial, hn⟩
    simp [Disc, needs, Frame.need, kernNeed]
  · refine ⟨intrInstr_does hl.2 h, ?_⟩
    show Low i (o'.next.toList ++ [f])
    cases hn : o'.next with
    | none => trivial
    | some g' => exact ⟨intrInstr_handler hl.1 h g' hn, hl.2⟩

/-- the lowest frame takes a step, or it waits for an interrupt handler above it -/
theorem threadInstr_main {ch : Choice} {d : Nat} {st : List (Frame N)}
    {o : Out N (List (Frame N))} (e : threadInstr i k ch d st = some o) :
    (∃ f f', st = [f] ∧ o.next = [f'] ∧ instr i k ch f = some ⟨o.op, o.k, f'⟩) ∨
    (mainOf o.next = mainOf st ∧ (o.k = k ∨ ∃ g f, st = [g, f])) := by
  rcases threadInstr_cases e with h | ⟨timer, f, rfl, -, rfl⟩ | ⟨g, f, o', rfl, -, rfl⟩
  · exact .inl h
  · exact .inr ⟨rfl, .inl rfl⟩
  · refine .inr ⟨?_, .inr ⟨g, f, rfl⟩⟩
    show mainOf (o'.next.toList ++ [f]) = f
    cases o'.next <;> rfl

/-! ## steps of the machine -/

omit [NeZero N] in
theorem kernInstr_idle {ch : Choice} {ks : KernAt N} {o : Out N (KernAt N ⊕ BitVec 64)}
    (e : kernInstr none false k ch ks = some o) :
    Disc (kernNeed none ks) o.op (Sum.elim (kernNeed none) (fun _ => []) o.next) ∧
    (o.k = k ∨ ∃ j ch', o.op = .acq (.proc j) ∧ o.k = k.upd j (Proc.woken ch')) := by
  rcases ks with held | ⟨a, lk, s⟩ | ⟨a, held, w⟩
  · cases ch with
    | lock a =>
      dsimp only [kernInstr] at e
      split at e
      · cases e
      · cases e
        exact ⟨by simp [Disc, kernNeed], .inl rfl⟩
    | unlock a =>
      dsimp only [kernInstr] at e
      split at e
      · rename_i ha
        cases e
        refine ⟨⟨List.mem_map_of_mem ha, ?_, by simp [kernNeed]⟩, .inl rfl⟩
        exact List.map_subset _ fun _ hx => List.mem_of_mem_filter hx
      · cases e
    | sleep a lk =>
      dsimp only [kernInstr] at e
      split at e
      · rename_i hh
        cases hh.1
      · cases e
    | wake a =>
      cases e
      exact ⟨by simp [Disc, kernNeed, wakeNeed], .inl rfl⟩
    | leave r =>
      dsimp only [kernInstr] at e
      split at e
      · cases e
        exact ⟨by simp [Disc], .inl rfl⟩
      · cases e
    | _ => cases e
  · cases e
  · cases e
    rcases w with (_ | ⟨j, rem⟩) | ⟨j, rem⟩
    · exact ⟨by simp [Disc, kernNeed, wakeNeed, wakeInstr, Out.map], .inl rfl⟩
    · exact ⟨by simp [Disc, kernNeed, wakeNeed, wakeInstr, Out.map], .inr ⟨j, _, rfl, rfl⟩⟩
    · exact ⟨by simp [Disc, kernNeed, wakeNeed, wakeInstr, Out.map], .inl rfl⟩

namespace Machine
variable {C : Type} [DecidableEq C]

/-- the steps of CPU `c`, by what they leave -/
inductive Moves (m : Machine N C) (c : C) (ch : Choice) : Machine N C → Prop
  | proc {i op k' st' locks'} (hc : m.cur c = some i)
    (h : threadInstr i m.k ch (m.locks.depth c) (m.k.proc i).context = some ⟨op, k', st'⟩)
    (hop : op ≠ .swtch) (hl : m.locks.apply c op = some locks') :
    Moves m c ch { m with k := k'.setContext i st', locks := locks' }
  | swtch {i k' st'} (hc : m.cur c = some i)
    (h : threadInstr i m.k ch (m.locks.depth c) (m.k.proc i).context = some ⟨.swtch, k', st'⟩)
    (ho : m.locks.owner (.proc i) = some c) (hd : m.locks.depth c = 1)
    (hs : (k'.proc i).state ≠ .running) :
    Moves m c ch { m with k := k'.setContext i st',
                          cur := Function.update m.cur c none }
  | loop {st} (hc : m.cur c = none) (hs : ∃ rem, m.sch c = [.schedLoop rem] ∧
      (st = [.schedLoop (slots N)] ∨ ∃ timer, st = [.intr timer (.run []), .schedLoop rem])) :
    Moves m c ch { m with sch := Function.update m.sch c st }
  | take {j rem locks'} (hc : m.cur c = none) (hs : m.sch c = [.schedLoop (j :: rem)])
    (hr : (m.k.proc j).state = .runnable) (hl : m.locks.apply c (.acq (.proc j)) = some locks') :
    Moves m c ch { m with k := m.k.upd j fun q => { q with state := .running }, locks := locks',
                          cproc := Function.update m.cproc c (some j),
                          sch := Function.update m.sch c [.schedGo j rem] }
  | skip {j rem locks'} (hc : m.cur c = none) (hs : m.sch c = [.schedLoop (j :: rem)])
    (hl : m.locks.apply c (.acq (.proc j)) = some locks') :
    Moves m c ch { m with locks := locks', sch := Function.update m.sch c [.schedRel j rem] }
  | go {j rem} (hc : m.cur c = none) (hs : m.sch c = [.schedGo j rem]) :
    Moves m c ch { m with cur := Function.update m.cur c (some j),
                          sch := Function.update m.sch c [.schedBack j rem] }
  | back {j rem} (hc : m.cur c = none) (hs : m.sch c = [.schedBack j rem]) :
    Moves m c ch { m with cproc := Function.update m.cproc c none,
                          sch := Function.update m.sch c [.schedRel j rem] }
  | rel {j rem locks'} (hc : m.cur c = none) (hs : m.sch c = [.schedRel j rem])
    (hl : m.locks.apply c (.rel (.proc j)) = some locks') :
    Moves m c ch { m with locks := locks', sch := Function.update m.sch c [.schedLoop rem] }
  | intr {timer ks f op k' x locks'} (hc : m.cur c = none) (hs : m.sch c = [.intr timer ks, f])
    (h : kernInstr none false m.k ch ks = some ⟨op, k', x⟩)
    (hl : m.locks.apply c op = some locks') :
    Moves m c ch { m with k := k', locks := locks',
                          sch := Function.update m.sch c
                            (Sum.elim (fun ks => [.intr timer ks, f]) (fun _ => [f]) x) }

omit [NeZero N] in
theorem schedTo_some {m m' : Machine N C} {c : C} {op : Op (Lock N)} {st : List (Frame N)}
    (e : m.schedTo c op st = some m') : ∃ locks', m.locks.apply c op = some locks' ∧
      m' = { m with locks := locks', sch := Function.update m.sch c st } := by
  obtain ⟨locks', h, rfl⟩ := Option.map_eq_some_iff.mp e
  exact ⟨locks', h, rfl⟩

theorem procStep_moves {m m' : Machine N C} {c : C} {ch : Choice} {i : Slot N}
    (hc : m.cur c = some i) (e : m.procStep c ch i = some m') : Moves m c ch m' := by
  unfold procStep at e
  split at e
  · cases e
  · rename_i op k' st' h
    dsimp only at e
    split at e
    · split at e
      · rename_i hg
        cases e
        exact .swtch hc h hg.1 hg.2.1 (by simpa [Kern.setContext] using hg.2.2)
      · cases e
    · rename_i hop
      obtain ⟨locks', hl, rfl⟩ := Option.map_eq_some_iff.mp e
      exact .proc hc h (fun e => hop e) hl

theorem schedStep_moves {m m' : Machine N C} {c : C} {ch : Choice} (hc : m.cur c = none)
    (e : m.schedStep c ch = some m') : Moves m c ch m' := by
  unfold schedStep at e
  split at e
  · rename_i rem hs
    split at e
    · rename_i timer
      split at e
      · obtain ⟨locks', hl, rfl⟩ := schedTo_some e
        cases hl
        exact .loop hc ⟨rem, hs, .inr ⟨timer, rfl⟩⟩
      · cases e
    · obtain ⟨locks', hl, rfl⟩ := schedTo_some e
      cases hl
      exact .loop hc ⟨[], hs, .inl rfl⟩
    · split at e
      · rename_i hr
        obtain ⟨m1, h1, rfl⟩ := Option.map_eq_some_iff.mp e
        obtain ⟨locks', hl, rfl⟩ := schedTo_some h1
        exact .take hc hs hr hl
      · obtain ⟨locks', hl, rfl⟩ := schedTo_some e
        exact .skip hc hs hl
  · rename_i j rem hs
    obtain ⟨m1, h1, rfl⟩ := Option.map_eq_some_iff.mp e
    obtain ⟨locks', hl, rfl⟩ := schedTo_some h1
    cases hl
    exact .go hc hs
  · rename_i j rem hs
    obtain ⟨m1, h1, rfl⟩ := Option.map_eq_some_iff.mp e
    obtain ⟨locks', hl, rfl⟩ := schedTo_some h1
    cases hl
    exact .back hc hs
  · rename_i j rem hs
    obtain ⟨locks', hl, rfl⟩ := schedTo_some e
    exact .rel hc hs hl
  · rename_i g f hs
    split at e
    · cases e
    · rename_i op k' x h
      obtain ⟨m1, h1, rfl⟩ := Option.map_eq_some_iff.mp e
      obtain ⟨locks', hl, rfl⟩ := schedTo_some h1
      cases g with
      | intr timer ks =>
        obtain ⟨⟨op, k', y⟩, hk, e'⟩ := Option.map_eq_some_iff.mp h
        cases e'
        have hm := Moves.intr hc hs hk hl
        cases y with
        | inl ks => exact hm
        | inr r => exact hm
      | _ => cases h
  · cases e

theorem step_moves {m m' : Machine N C} {c : C} {ch : Choice} (e : m.step c ch = some m') :
    Moves m c ch m' := by
  unfold step at e
  split at e
  · rename_i i hc
    exact procStep_moves hc e
  · rename_i hc
    exact schedStep_moves hc e

/-- what the scheduler and the interrupt handlers above it do to a slot -/
inductive Stir (q q' : Proc N) : Prop
  | run (h : q.state = .runnable) (h' : q' = { q with state := .running })
  | wake (h : q.state = .sleeping) (h' : q' = { q with state := .runnable })

/-- the steps of CPU `c`, by what they do to the process table and the locks -/
inductive Acts (m : Machine N C) (c : C) (ch : Choice) (m' : Machine N C) : Prop
  | thread {i op k' st'} (hc : m.cur c = some i)
    (h : threadInstr i m.k ch (m.locks.depth c) (m.k.proc i).context = some ⟨op, k', st'⟩)
    (hl : m.locks.apply c op = some m'.locks) (hk : m'.k = k'.setContext i st')
    (hcur : op ≠ .swtch → m'.cur = m.cur)
  | still {op} (hc : m.cur c = none) (hl : m.locks.apply c op = some m'.locks) (hk : m'.k = m.k)
  | stir {j} (hc : m.cur c = none) (hl : m.locks.apply c (.acq (.proc j)) = some m'.locks)
    (hj : Stir (m.k.proc j) (m'.k.proc j)) (hk : ∀ x, x ≠ j → m'.k.proc x = m.k.proc x)

theorem step_acts {m m' : Machine N C} {c : C} {ch : Choice} (e : m.step c ch = some m') :
    Acts m c ch m' := by
  cases step_moves e with
  | proc hc h hop hl => exact .thread hc h hl rfl fun _ => rfl
  | swtch hc h => exact .thread hc h rfl rfl fun hn => absurd rfl hn
  | loop hc | go hc | back hc => exact .still hc (show m.locks.apply c .tau = some m.locks from rfl) rfl
  | @take j rem locks' hc hs hr hl =>
    refine .stir hc hl (.run hr ?_) fun x hx => ?_
    · exact Kern.upd_same m.k j fun q => { q with state := .running }
    show (m.k.upd j fun q => { q with state := .running }).proc x = m.k.proc x
    exact Kern.upd_ne _ _ hx
  | skip hc hs hl | rel hc hs hl => exact .still hc hl rfl
  | intr hc hs h hl =>
    rcases (kernInstr_idle h).2 with rfl | ⟨j, ch', rfl, rfl⟩
    · exact .still hc hl rfl
    · rcases (m.k.proc j).woken_cases ch' with hw | ⟨hs, -, hw⟩
      · refine .still hc hl ?_
        show m.k.upd j (Proc.woken ch') = m.k
        unfold Kern.upd
        rw [hw, Function.update_eq_self]
      · refine .stir hc hl (.wake hs ?_) fun x hx => ?_
        · exact (Kern.upd_same m.k j (Proc.woken ch')).trans hw
        show (m.k.upd j (Proc.woken ch')).proc x = m.k.proc x
        exact Kern.upd_ne _ _ hx

end Machine

end Xv6
