import Xv6.User.Malloc

/-!
# `malloc` of more than an `int` of bytes

`morecore` passes `nu * sizeof(Header)` to `sbrk`, which takes an `int`.  From 2^31 bytes on the number
is negative, zero, or (past 2^32) small again, and `sbrk` succeeds with it.

* `Os.memory`   the bytes that `sbrk` gave the process and that it still has;
* `Serves`   the call returns null, or a block that lies in that memory;
* `Reached`   the states of the heap, over the calls that are served;
* `Sound.overrun`   after such an `sbrk` no call returns null: the process is killed at the new header,
  or gets a block of the size it asked for;
* `malloc_serves_iff`   **the requests that are served**.
-/

namespace Xv6.Umalloc

/-- the bytes that `sbrk` gave the process, below the end of its memory -/
def Os.memory (os : Os) : Set ℕ :=
  {x | x < os.brk ∧ ∃ n a, (n, some a) ∈ os.calls ∧ 0 < n.toInt ∧ a ≤ x ∧ x < a + n.toNat}

/-- what `sbrk` is asked for where the request has at least 4096 units -/
def request (nbytes : ℕ) : CInt := BitVec.ofNat 32 (nunits nbytes * unit)

/-- **the call returns null, or a block all of whose bytes are in the memory from `sbrk`** -/
def Serves (base : ℕ) (s : State) (nbytes : ℕ) : Prop :=
  ∃ r h os, Returns (fun k => malloc base k s.heap s.os nbytes) (r, h, os) ∧
    (r = 0 ∨ ∀ x, r ≤ x → x < r + nbytes → x ∈ os.memory)

/-- the bytes of the request are a positive `int`, or `sbrk` refuses what is left of them -/
def Fits (s : State) (nbytes : ℕ) : Prop :=
  Small nbytes ∨ (s.os.sbrk (request nbytes)).1 = none

/-- the states that the process reaches by requests that fit, calls of `free` and writes -/
inductive Reached (base : ℕ) : State → Prop
  | init {s : State} (hi : Init base s) : Reached base s
  | step {s s' : State} {e : Event} (hs : Reached base s) (hst : Step base s e s') : Reached base s'
  | refused {s : State} {nbytes r : ℕ} {h : Heap} {os : Os} (hs : Reached base s)
      (hlt : nbytes < 2 ^ 32) (hbig : ¬ Small nbytes) (hno : (s.os.sbrk (request nbytes)).1 = none)
      (hr : Returns (fun k => malloc base k s.heap s.os nbytes) (r, h, os)) :
      Reached base ⟨h, os, s.live⟩

/-! ## The memory -/

section memory
variable {base n : ℕ} {h : Heap} {os : Os} {F live : List Block}

theorem toInt_pos {n : CInt} (h0 : 0 < n.toNat) (h31 : n.toNat < 2 ^ 31) : 0 < n.toInt := by
  rw [BitVec.toInt_eq_toNat_of_lt (by omega)]
  omega

theorem Sound.got_memory (hs : Sound base h os F live) {x : ℕ} (hx : x ∈ os.got) : x ∈ os.memory := by
  obtain ⟨n, a, hc, h1, h2⟩ := hx
  refine ⟨(hs.range x ⟨n, a, hc, h1, h2⟩).2.1, n, a, hc, ?_, h1, h2⟩
  -- no call before was for a negative number: its last byte would be past the machine's memory
  have hlast := (hs.range (a + n.toNat - 1) ⟨n, a, hc, by omega, by omega⟩).2.2
  have hlim : PHYSTOP - KERNBASE < 2 ^ 31 := by decide
  exact toInt_pos (by omega) (by omega)

theorem Os.sbrk_none {n : CInt} (hno : (os.sbrk n).1 = none) : os.sbrk n = (none, os.log n none) := by
  unfold Os.sbrk at hno ⊢
  dsimp only at hno ⊢
  split at hno
  · split at hno
    · cases hno
    · rename_i h1 h2
      rw [if_pos h1, if_neg h2]
  · cases hno

theorem Os.sbrk_some {n : CInt} {a : ℕ} {os' : Os} (hsb : os.sbrk n = (some a, os')) :
    os.brk ≤ a ∧ os'.calls = os.calls ++ [(n, some a)] ∧
      (0 < n.toInt → a + n.toNat ≤ PHYSTOP - KERNBASE) := by
  unfold Os.sbrk at hsb
  dsimp only at hsb
  split at hsb
  · split at hsb
    · rename_i h1 h2
      cases hsb
      exact ⟨Nat.le_add_right _ _, rfl, fun _ => h2.2⟩
    · cases hsb
  · rename_i h1
    cases hsb
    exact ⟨Nat.le_add_right _ _, rfl, fun h => absurd h h1⟩

theorem Sound.memory_lt (hs : Sound base h os F live) {n : CInt} {a : ℕ} {os' : Os}
    (hsb : os.sbrk n = (some a, os')) {x : ℕ} (hx : x ∈ os'.memory) : x < PHYSTOP - KERNBASE := by
  obtain ⟨-, hcalls, hlim⟩ := Os.sbrk_some hsb
  obtain ⟨-, m, b, hc, hm, h1, h2⟩ := hx
  rw [hcalls, List.mem_append, List.mem_singleton] at hc
  rcases hc with hc | hc
  · exact (hs.range x ⟨m, b, hc, h1, h2⟩).2.2
  · cases hc
    have := hlim hm
    omega

theorem Sound.blocks_lt (hs : Sound base h os F live) (hn : 2 ^ 27 ≤ n) : ∀ b ∈ F, b.2 < n := by
  intro b hb
  have hrange : ∀ x ∈ os.got, 0 ≤ x ∧ x < PHYSTOP - KERNBASE := fun x hx =>
    ⟨Nat.zero_le x, (hs.range x hx).2.2⟩
  have hend := (tiles_ends hs.tiles hrange (List.mem_append_left _ hb)).2
  have hlim : PHYSTOP - KERNBASE ≤ 2 ^ 27 := by decide
  simp only [fin, unit] at hend
  omega

end memory

/-! ## Requests past an `int` -/

section large
variable {base n : ℕ} {s : State} {h : Heap} {os os' : Os} {F live : List Block} {a : ℕ}

/-- no block of the list is large enough: `malloc` goes to `morecore` with the units it looks for -/
theorem Sound.large (hs : Sound base h os F live) (hn : 2 ^ 27 ≤ n) (k : ℕ) :
    mallocLoop n (F.length + 1 + k) h os h.freep (h.ptr h.freep) = grow n k h os := by
  rcases hs.ring.look (show 0 < n by omega) os with ⟨A, b, B, rfl, hb, -⟩ | ⟨-, hrun⟩
  · have := hs.blocks_lt hn b (by simp)
    omega
  · exact hrun k

theorem Sound.large_refused (hs : Sound base h os F live) (hn : 2 ^ 27 ≤ n)
    (hno : (os.sbrk (BitVec.ofNat 32 (n * unit))).1 = none) :
    Returns (fun k => mallocLoop n k h os h.freep (h.ptr h.freep))
      (0, h, os.log (BitVec.ofNat 32 (n * unit)) none) := by
  refine ⟨F.length + 1, fun k hk => ?_⟩
  obtain ⟨j, rfl⟩ : ∃ j, k = F.length + 1 + j := ⟨k - (F.length + 1), by omega⟩
  dsimp only
  rw [hs.large hn, grow, morecore, if_neg (by omega), Os.sbrk_none hno]
  rfl

theorem Sound.place (hs : Sound base h os F live) (hn : 0 < n) (hn30 : n ≤ 2 ^ 30) (ha : os.brk ≤ a) :
    Place base (h.setSize a n) F [] (a, n) := by
  have hbase := hs.brk
  have hu : unit = 16 := rfl
  have hends : ∀ b ∈ F, fin b ≤ a ∧ b.2 ≤ 2 ^ 30 := by
    intro b hb
    have hrange : ∀ x ∈ os.got, 0 ≤ x ∧ x < min a (PHYSTOP - KERNBASE) := fun x hx =>
      ⟨Nat.zero_le x, lt_min ((hs.range x hx).2.1.trans_le ha) (hs.range x hx).2.2⟩
    have hend := (tiles_ends hs.tiles hrange (List.mem_append_left _ hb)).2
    obtain ⟨h1, h2⟩ := le_min_iff.1 hend
    have hlim : PHYSTOP - KERNBASE ≤ 2 ^ 27 := by decide
    simp only [fin, unit] at h2
    exact ⟨h1, by omega⟩
  have hne : ∀ b ∈ F, b.1 ≠ a := by
    intro b hb
    have h1 := (hends b hb).1
    have h2 := hs.ring.pos b hb
    simp only [fin, unit] at h1
    omega
  refine
    { ring := ?_
      size := ?_
      pos := hn
      above := hbase.trans ha
      low := fun b hb => (hends b hb).1
      high := by simp
      small := ?_ }
  · rw [List.append_nil]
    exact hs.ring.setSize (by omega) hne n
  · rw [Heap.setSize_size, Function.update_self]
    exact Nat.mod_eq_of_lt (by omega)
  · intro b hb
    rcases List.mem_append.1 hb with hb | hb
    · exact (hends b hb).2
    · rw [List.mem_singleton.1 hb]
      exact hn30

theorem take_fst (h : Heap) (n prevp p : ℕ) : ∃ r, (take h n prevp p).1 = r + unit := by
  unfold take
  split
  · exact ⟨_, rfl⟩
  · exact ⟨_, rfl⟩

/-- **after an `sbrk` that does not fail**: `malloc` gives a block, never null, or the store to the new
header is the last of the process -/
theorem Sound.overrun (hs : Sound base h os F live) (hb : 0 < base) (hn : 2 ^ 27 ≤ n)
    (hn30 : n ≤ 2 ^ 30) (hsb : os.sbrk (BitVec.ofNat 32 (n * unit)) = (some a, os')) :
    (os'.Backs a → ∃ r h', Returns (fun k => mallocLoop n k h os h.freep (h.ptr h.freep))
      (r + unit, h', os')) ∧
    (¬ os'.Backs a →
      ∀ x, ¬ Returns (fun k => mallocLoop n k h os h.freep (h.ptr h.freep)) x) := by
  have hgrow : ∀ k, mallocLoop n (F.length + 1 + k) h os h.freep (h.ptr h.freep) =
      (if os'.Backs a then
        (Umalloc.free k (h.setSize a n) (a + unit)).map fun h => (h.freep, h, os')
      else none).bind fun r =>
        if r.1 = 0 then some (0, r.2) else mallocLoop n k r.2.1 r.2.2 r.1 (r.2.1.ptr r.1) := by
    intro k
    rw [hs.large hn]
    simp only [grow, morecore, if_neg (show ¬ n < 4096 by omega), hsb]
  refine ⟨fun hback => ?_, fun hback => ?_⟩
  · have hp := hs.place (by omega) hn30 (Os.sbrk_some hsb).1
    obtain ⟨m, B, hpl, hm, -, -⟩ := hp.next
    obtain ⟨F1, hring, ⟨b, hbF, hbm⟩, -, -⟩ := hpl.prev
    obtain ⟨h1, hh1⟩ : ∃ h1, (joinPrev (joinNext (h.setSize a n) a (lastOf base F)) a
      (lastOf base F)).setFreep (lastOf base F) = h1 := ⟨_, rfl⟩
    have hfree : ∀ k, F.length + 3 ≤ k → Umalloc.free k (h.setSize a n) (a + unit) = some h1 := by
      intro k hk
      rw [Umalloc.free, Nat.add_sub_cancel, hp.search (by simpa using hk), Option.map_some, hh1]
    rw [hh1] at hring
    -- the list has the new block, so the search ends before it asks again
    rcases hring.look (show 0 < n by omega) os' with ⟨A, d, D, rfl, -, hlook⟩ | ⟨hall, -⟩
    · obtain ⟨r, hr⟩ := take_fst h1 n (lastOf base A) d.1
      refine ⟨r, (Umalloc.take h1 n (lastOf base A) d.1).2,
        F.length + 1 + (F.length + 3 + ((A ++ d :: D).length + 1)), fun k hk => ?_⟩
      obtain ⟨j, rfl⟩ : ∃ j, k = F.length + 1 + j := ⟨k - (F.length + 1), by omega⟩
      rw [← hr]
      dsimp only
      rw [hgrow, if_pos hback, hfree j (by omega), Option.map_some, Option.bind_some]
      dsimp only
      rw [if_neg (hring.freep_ne hb), hlook j (by omega)]
    · have := hall b hbF
      dsimp only at hm
      omega
  · rintro x ⟨N, hN⟩
    have hx := hN (F.length + 1 + N) (by omega)
    dsimp only at hx
    rw [hgrow, if_neg hback] at hx
    cases hx

theorem units_of_large (hlt : n < 2 ^ 32) (hbig : ¬ Small n) :
    2 ^ 27 ≤ nunits n ∧ nunits n ≤ 2 ^ 30 ∧ 2 ^ 30 ≤ n := by
  unfold Small at hbig
  unfold nunits unit at *
  omega

theorem Ok.refused (hs : Ok base s F) (hlt : n < 2 ^ 32) (hbig : ¬ Small n)
    (hno : (s.os.sbrk (request n)).1 = none) :
    Returns (fun k => Umalloc.malloc base k s.heap s.os n)
      (0, start base s.heap, s.os.log (request n) none) :=
  hs.sound.large_refused (units_of_large hlt hbig).1 hno

theorem Reached.ok (hs : Reached base s) : ∃ F, Ok base s F := by
  induction hs with
  | init hi => exact ⟨[], .of_init hi⟩
  | step _ hst ih =>
    obtain ⟨F, hok⟩ := ih
    exact hok.step hst
  | refused _ hlt hbig hno hr ih =>
    obtain ⟨F, hok⟩ := ih
    cases hr.unique (hok.refused hlt hbig hno)
    exact ⟨F, (hok.sound.failed _).ok hok.nonnull⟩

theorem Ok.serves (hs : Ok base s F) (hn : Small n) : Serves base s n := by
  obtain ⟨r, h', os', hr, hres⟩ := hs.malloc hn
  refine ⟨r, h', os', hr, ?_⟩
  rcases hres with ⟨h0, -⟩ | ⟨a, F', rfl, hok⟩
  · exact .inl h0
  · refine .inr fun x h1 h2 => hok.sound.got_memory ?_
    refine (hok.sound.tiles.cover x).2 ⟨(a, nunits n), by simp, ?_⟩
    have := hn.units.2.2
    unfold InBlock
    dsimp only
    omega

end large

/-- **the requests that `malloc` serves**, in every state that requests which fit lead to: it returns
null or a block in the memory from `sbrk` exactly when the bytes it asks for are a positive `int`, or
`sbrk` fails with what the conversion leaves of them -/
theorem malloc_serves_iff {base : ℕ} {s : State} (hs : Reached base s) {nbytes : ℕ}
    (hlt : nbytes < 2 ^ 32) : Serves base s nbytes ↔ Fits s nbytes := by
  obtain ⟨F, hok⟩ := hs.ok
  constructor
  · rintro ⟨r, h, os, hr, hres⟩
    by_contra hfit
    obtain ⟨hbig, hyes⟩ := not_or.1 hfit
    obtain ⟨hn, hn30, hbytes⟩ := units_of_large hlt hbig
    obtain ⟨a, ha⟩ := Option.ne_none_iff_exists'.1 hyes
    have hsb : s.os.sbrk (request nbytes) = (some a, (s.os.sbrk (request nbytes)).2) :=
      Prod.ext ha rfl
    obtain ⟨hret, hkilled⟩ := hok.sound.overrun hok.nonnull hn hn30 hsb
    by_cases hback : (s.os.sbrk (request nbytes)).2.Backs a
    · obtain ⟨q, h', hr'⟩ := hret hback
      cases hr.unique hr'
      rcases hres with h0 | hmem
      · unfold unit at h0
        omega
      · -- the last byte of the block is past all memory
        have hlast := hmem (q + unit + nbytes - 1) (by omega) (by omega)
        have := hok.sound.memory_lt hsb hlast
        have hlim : PHYSTOP - KERNBASE ≤ 2 ^ 27 := by decide
        omega
    · exact hkilled hback _ hr
  · rintro (hn | hno)
    · exact hok.serves hn
    · by_cases hn : Small nbytes
      · exact hok.serves hn
      · exact ⟨_, _, _, hok.refused hlt hn hno, .inl rfl⟩

theorem malloc_serves_sample : Reached 4096 sampleInit ∧ Serves 4096 sampleInit 100 := by
  have hi : Reached 4096 sampleInit := .init ⟨by decide, by decide, rfl, rfl, rfl⟩
  exact ⟨hi, (malloc_serves_iff hi (by decide)).2 (.inl (by decide))⟩

/-- `malloc(0xffffffff)` asks `sbrk` for 16 bytes, and returns a block -/
theorem malloc_overruns : ∃ r h os,
    Returns (fun k => malloc 4096 k sampleInit.heap sampleInit.os (2 ^ 32 - 1)) (r, h, os) ∧
      os.calls = [(16, some 8192)] ∧ r ≠ 0 ∧ r + (2 ^ 32 - 2) ∉ os.memory := by
  have hok : Ok 4096 sampleInit [] := .of_init ⟨by decide, by decide, rfl, rfl, rfl⟩
  have hsb : sampleInit.os.sbrk (request (2 ^ 32 - 1)) = (some 8192, ⟨8208, fun _ => some 0,
      [(16, some 8192)]⟩) := by
    have hreq : request (2 ^ 32 - 1) = 16 := by decide
    rw [hreq]
    rfl
  obtain ⟨r, h, hr⟩ := (hok.sound.overrun hok.nonnull (by decide) (by decide) hsb).1 (by decide)
  refine ⟨r + unit, h, _, hr, rfl, by unfold unit; omega, fun hx => ?_⟩
  have := hok.sound.memory_lt hsb hx
  have hlim : PHYSTOP - KERNBASE ≤ 2 ^ 27 := by decide
  omega

end Xv6.Umalloc
