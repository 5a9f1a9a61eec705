import Xv6.Kernel.Defs

/-!
# `printf.c` of the user library

* `printint`, `printptr`, `vprintf`   the functions, with the bytes that they write; `printint` faults where
  it would leave its buffer, and `vprintf` where an argument is not of
  the type that the format asks for;
* `Out`, `directives`   a format and its arguments, as a list of what is to be written;
* `numeral`, `Out.meant`   what each of them is to look like;
* `vprintf_run`   what is written instead (`Out.wrote`);
* `vprintf_faithful_iff`   **when the two are the same**.
-/

namespace Xv6.Printf

abbrev ch (c : Char) : Byte := .ofNat 8 c.toNat

/-- `digits` -/
def digit (n : ℕ) : Byte := ("0123456789ABCDEF".toList.map ch).getD n 0

/-! ## The functions -/

/-- `buf[i++] = b` in the buffer of `printint` -/
def store (buf : List Byte) (b : Byte) : Option (List Byte) :=
  if buf.length < 16 then some (buf ++ [b]) else none

/-- the first loop of `printint` -/
def intLoop (base : ℕ) : ℕ → ℕ → List Byte → Option (List Byte)
  | 0, _, _ => none
  | f + 1, x, buf =>
    (store buf (digit (x % base))).bind fun buf =>
      if x / base ≠ 0 then intLoop base f (x / base) buf else some buf

/-- `printint`; the second loop writes the buffer from its end -/
def printint (xx : CInt) (base : ℕ) (sgn : Bool) : Option (List Byte) :=
  let neg := sgn && decide (xx.toInt < 0)
  let x := if neg then (-xx).toNat else xx.toNat
  (intLoop base 33 x []).bind fun buf =>
    (if neg then store buf (ch '-') else some buf).map List.reverse

/-- the loop of `printptr` -/
def ptrLoop : ℕ → BitVec 64 → List Byte
  | 0, _ => []
  | n + 1, x => digit (x >>> 60).toNat :: ptrLoop n (x <<< 4)

def printptr (x : BitVec 64) : List Byte := ch '0' :: ch 'x' :: ptrLoop 16 x

/-- an argument; a null pointer is no string -/
inductive Arg
  | int (x : CInt)
  | long (x : BitVec 64)
  | str (s : Option (List Byte))
  | char (c : BitVec 32)

/-- `(null)` -/
def nullText : List Byte := "(null)".toList.map ch

/-- the character after a `%`: what is written, and the arguments that are left -/
def convert (c : Byte) (args : List Arg) : Option (List Byte × List Arg) :=
  if c = ch 'd' then
    match args with
    | .int x :: args => (printint x 10 true).map (·, args)
    | _ => none
  else if c = ch 'l' then
    match args with
    | .long x :: args => (printint (x.setWidth 32) 10 false).map (·, args)
    | _ => none
  else if c = ch 'x' then
    match args with
    | .int x :: args => (printint x 16 false).map (·, args)
    | _ => none
  else if c = ch 'p' then
    match args with
    | .long x :: args => some (printptr x, args)
    | _ => none
  else if c = ch 's' then
    match args with
    | .str s :: args => some (s.getD nullText, args)
    | _ => none
  else if c = ch 'c' then
    match args with
    | .char c :: args => some ([c.setWidth 8], args)
    | _ => none
  else if c = ch '%' then some ([c], args)
  else some ([ch '%', c], args)

/-- the loop over the format; the flag says that the character before was a `%` -/
def vprintfLoop : Bool → List Byte → List Arg → Option (List Byte)
  | _, [], _ => some []
  | false, c :: fmt, args =>
    if c = ch '%' then vprintfLoop true fmt args else (vprintfLoop false fmt args).map ([c] ++ ·)
  | true, c :: fmt, args =>
    (convert c args).bind fun r => (vprintfLoop false fmt r.2).map (r.1 ++ ·)

def vprintf (fmt : List Byte) (args : List Arg) : Option (List Byte) := vprintfLoop false fmt args

/-! ## What is meant -/

/-- a part of the output -/
inductive Out
  /-- a byte of the format -/
  | lit (b : Byte)
  /-- `%d` -/
  | dec (x : CInt)
  /-- `%x` -/
  | hex (x : CInt)
  /-- `%l` -/
  | long (x : BitVec 64)
  /-- `%p` -/
  | ptr (x : BitVec 64)
  /-- `%s` -/
  | str (s : Option (List Byte))
  /-- `%c` -/
  | chr (c : BitVec 32)
  /-- a `%` at the end of the format -/
  | lone
deriving DecidableEq

/-- the character after a `%`, with its argument -/
def directive (c : Byte) (args : List Arg) : Option (List Out × List Arg) :=
  if c = ch 'd' then
    match args with
    | .int x :: args => some ([.dec x], args)
    | _ => none
  else if c = ch 'l' then
    match args with
    | .long x :: args => some ([.long x], args)
    | _ => none
  else if c = ch 'x' then
    match args with
    | .int x :: args => some ([.hex x], args)
    | _ => none
  else if c = ch 'p' then
    match args with
    | .long x :: args => some ([.ptr x], args)
    | _ => none
  else if c = ch 's' then
    match args with
    | .str s :: args => some ([.str s], args)
    | _ => none
  else if c = ch 'c' then
    match args with
    | .char c :: args => some ([.chr c], args)
    | _ => none
  else if c = ch '%' then some ([.lit c], args)
  else some ([.lit (ch '%'), .lit c], args)

/-- a format with arguments of matching types -/
def directives : List Byte → List Arg → Option (List Out)
  | [], _ => some []
  | [c], _ => if c = ch '%' then some [.lone] else some [.lit c]
  | c :: d :: fmt, args =>
    if c = ch '%' then (directive d args).bind fun r => (directives fmt r.2).map (r.1 ++ ·)
    else (directives (d :: fmt) args).map (.lit c :: ·)

/-- the digits of a number, the last one first -/
def digitsOf (base n : ℕ) : List ℕ := if n = 0 then [0] else base.digits n

/-- the numeral of a number -/
def numeral (base n : ℕ) : List Byte := ((digitsOf base n).map digit).reverse

/-- what is to be written -/
def Out.meant : Out → List Byte
  | lit b => [b]
  | dec x => if x.toInt < 0 then ch '-' :: numeral 10 x.toInt.natAbs else numeral 10 x.toInt.natAbs
  | hex x => numeral 16 x.toNat
  | long x => numeral 10 x.toNat
  | ptr x => ch '0' :: ch 'x' :: (List.range 16).map fun i => digit (x.toNat / 16 ^ (15 - i) % 16)
  | str s => s.getD nullText
  | chr c => [c.setWidth 8]
  | lone => [ch '%']

/-- what is written -/
def Out.wrote : Out → List Byte
  | long x => numeral 10 (x.toNat % 2 ^ 32)
  | lone => []
  | o => o.meant

/-! ## Numerals -/

theorem digitsOf_last {base x : ℕ} (h : x / base = 0) (hb : 0 < base) : digitsOf base x = [x % base] := by
  have hlt : x < base := (Nat.div_eq_zero_iff_lt hb).1 h
  unfold digitsOf
  rw [Nat.mod_eq_of_lt hlt]
  split
  · rename_i h0
    rw [h0]
  · rename_i h0
    exact Nat.digits_of_lt base x h0 hlt

theorem digitsOf_cons {base x : ℕ} (h : x / base ≠ 0) (hb : 1 < base) :
    digitsOf base x = x % base :: digitsOf base (x / base) := by
  have hx : x ≠ 0 := fun e => h (by rw [e, Nat.zero_div])
  unfold digitsOf
  rw [if_neg hx, if_neg h, Nat.digits_eq_cons_digits_div hb hx]

theorem digitsOf_length {base x k : ℕ} (hb : 1 < base) (hk : 0 < k) (hx : x < base ^ k) :
    (digitsOf base x).length ≤ k := by
  unfold digitsOf
  split
  · exact hk
  · exact (Nat.digits_length_le_iff hb x).2 hx

theorem digitsOf_lt {base x : ℕ} (hb : 1 < base) : ∀ d ∈ digitsOf base x, d < base := by
  intro d hd
  unfold digitsOf at hd
  split at hd
  · rw [List.mem_singleton.1 hd]
    omega
  · exact Nat.digits_lt_base hb hd

theorem digitsOf_inj {base x y : ℕ} (h : digitsOf base x = digitsOf base y) : x = y := by
  have key : ∀ n, Nat.ofDigits base (digitsOf base n) = n := fun n => by
    unfold digitsOf
    split
    · rename_i h0
      rw [h0, Nat.ofDigits_singleton]
    · exact Nat.ofDigits_digits base n
  rw [← key x, h, key y]

theorem numeral_inj {x y : ℕ} (h : numeral 10 x = numeral 10 y) : x = y := by
  have hval : ∀ n < 10, (digit n).toNat - 48 = n := by decide
  have key : ∀ n, ((digitsOf 10 n).map digit).map (fun b => b.toNat - 48) = digitsOf 10 n := fun n => by
    rw [List.map_map]
    exact (List.map_congr_left fun d hd => hval d (digitsOf_lt (by decide) d hd)).trans (List.map_id _)
  have h := List.reverse_injective h
  exact digitsOf_inj ((key x).symm.trans ((congrArg _ h).trans (key y)))

theorem numeral_length_mono {x y : ℕ} (h : x ≤ y) : (numeral 10 x).length ≤ (numeral 10 y).length := by
  unfold numeral
  rw [List.length_reverse, List.length_reverse, List.length_map, List.length_map]
  rcases Nat.eq_zero_or_pos y with rfl | hy
  · rw [Nat.le_zero.1 h]
  · have hlen : digitsOf 10 y = Nat.digits 10 y := if_neg (by omega)
    have hpos : 0 < (Nat.digits 10 y).length :=
      List.length_pos_of_ne_nil (Nat.digits_ne_nil_iff_ne_zero.2 (by omega))
    rw [hlen]
    refine digitsOf_length (by decide) hpos (Nat.lt_of_le_of_lt h ?_)
    exact (Nat.digits_length_le_iff (by decide) y).1 (Nat.le_refl _)

/-! ## `printint` and `printptr` -/

/-- the loop puts the digits into the buffer, if it has room for them -/
theorem intLoop_spec {base : ℕ} (hb : 1 < base) (f : ℕ) {x : ℕ} (hx : x < 2 ^ f) {buf : List Byte}
    (hroom : buf.length + (digitsOf base x).length ≤ 16) :
    intLoop base (f + 1) x buf = some (buf ++ (digitsOf base x).map digit) := by
  induction f generalizing x buf with
  | zero =>
    obtain rfl : x = 0 := by omega
    have h0 : 0 / base = 0 := Nat.zero_div base
    rw [digitsOf_last h0 (by omega)] at hroom ⊢
    rw [List.length_singleton] at hroom
    rw [intLoop, store, if_pos (by omega), Option.bind_some, if_neg (not_not.2 h0)]
    rfl
  | succ f ih =>
    rw [intLoop]
    by_cases h : x / base = 0
    · rw [digitsOf_last h (by omega)] at hroom ⊢
      rw [List.length_singleton] at hroom
      rw [store, if_pos (by omega), Option.bind_some, if_neg (not_not.2 h)]
      rfl
    · rw [digitsOf_cons h hb] at hroom ⊢
      rw [List.length_cons] at hroom
      have hhalf : x / base < 2 ^ f := by
        have hle : x / base ≤ x / 2 := Nat.div_le_div_left hb (by decide)
        rw [Nat.pow_succ] at hx
        omega
      rw [store, if_pos (by omega), Option.bind_some, if_pos h, ih hhalf]
      · rw [List.append_assoc, List.map_cons, List.singleton_append]
      · rw [List.length_append, List.length_singleton]
        omega

/-- **`printint`** stays in its buffer and writes the numeral, with a sign if there is one -/
theorem printint_spec {base : ℕ} (hb : base = 10 ∨ base = 16) (xx : CInt) (sgn : Bool) :
    printint xx base sgn = some (if sgn && decide (xx.toInt < 0) then
      ch '-' :: numeral base (-xx).toNat else numeral base xx.toNat) := by
  have hlen : ∀ x : BitVec 32, (digitsOf base x.toNat).length ≤ 10 := fun x => by
    have hx := x.isLt
    rcases hb with rfl | rfl
    · exact digitsOf_length (by decide) (by decide) (by omega)
    · exact digitsOf_length (by decide) (by decide) (by omega)
  have hloop : ∀ x : BitVec 32, intLoop base 33 x.toNat [] = some ((digitsOf base x.toNat).map digit) :=
    fun x => intLoop_spec (by omega) 32 x.isLt (by rw [List.length_nil]; have := hlen x; omega)
  unfold printint
  cases hneg : sgn && decide (xx.toInt < 0) with
  | true =>
    dsimp only
    rw [if_pos rfl, if_pos rfl, hloop, Option.bind_some, if_pos rfl, store, if_pos, Option.map_some,
      List.reverse_append]
    · rfl
    · rw [List.length_map]
      have := hlen (-xx)
      omega
  | false =>
    dsimp only
    rw [if_neg Bool.false_ne_true, if_neg Bool.false_ne_true, hloop, Option.bind_some,
      if_neg Bool.false_ne_true, Option.map_some]
    rfl

theorem ptrLoop_eq (n : ℕ) (x : BitVec 64) :
    ptrLoop n x = (List.range n).map fun i => digit ((x <<< (4 * i)) >>> 60).toNat := by
  induction n generalizing x with
  | zero => rfl
  | succ n ih =>
    rw [ptrLoop, ih, List.range_succ_eq_map, List.map_cons, List.map_map]
    refine congrArg₂ List.cons (by rw [Nat.mul_zero, BitVec.shiftLeft_zero]) ?_
    refine List.map_congr_left fun i _ => ?_
    show digit ((x <<< 4 <<< (4 * i)) >>> 60).toNat = digit ((x <<< (4 * (i + 1))) >>> 60).toNat
    rw [Nat.mul_add, Nat.mul_one, Nat.add_comm, BitVec.shiftLeft_add]

theorem printptr_eq (x : BitVec 64) : printptr x = Out.meant (.ptr x) := by
  unfold printptr Out.meant
  rw [ptrLoop_eq]
  refine congrArg _ (congrArg _ (List.map_congr_left fun i hi => ?_))
  have hi := List.mem_range.1 hi
  rw [BitVec.toNat_ushiftRight, BitVec.toNat_shiftLeft, Nat.shiftLeft_eq, Nat.shiftRight_eq_div_pow]
  congr 1
  have hx := x.isLt
  generalize x.toNat = n at *
  interval_cases i <;> omega

/-! ## `vprintf` -/

theorem dec_eq (x : CInt) : printint x 10 true = some (Out.meant (.dec x)) := by
  rw [printint_spec (.inl rfl)]
  have hx := x.isLt
  have hint : x.toInt = if 2 * x.toNat < 2 ^ 32 then (x.toNat : ℤ) else x.toNat - 2 ^ 32 :=
    BitVec.toInt_eq_toNat_cond x
  have hneg : (-x).toNat = (2 ^ 32 - x.toNat) % 2 ^ 32 := BitVec.toNat_neg x
  have hmeant : Out.meant (.dec x) = if x.toInt < 0 then ch '-' :: numeral 10 x.toInt.natAbs
      else numeral 10 x.toInt.natAbs := rfl
  rw [hmeant]
  by_cases h : x.toInt < 0
  · have e : (-x).toNat = x.toInt.natAbs := by
      split at hint <;> omega
    rw [if_pos (by rw [Bool.true_and, decide_eq_true_iff]; exact h), if_pos h, e]
  · have e : x.toNat = x.toInt.natAbs := by
      split at hint <;> omega
    rw [if_neg (by rw [Bool.true_and, decide_eq_true_iff]; exact h), if_neg h, ← e]

theorem unsigned_eq {base : ℕ} (hb : base = 10 ∨ base = 16) (x : CInt) :
    printint x base false = some (numeral base x.toNat) := printint_spec hb x false

theorem convert_run {c : Byte} {args rest : List Arg} {outs : List Out}
    (h : directive c args = some (outs, rest)) :
    convert c args = some (outs.flatMap Out.wrote, rest) := by
  have hone : ∀ o : Out, [o].flatMap Out.wrote = o.wrote := fun o => List.append_nil _
  unfold directive at h
  unfold convert
  split at h
  · rw [if_pos ‹_›]
    split at h
    · cases h
      rw [dec_eq, hone]
      rfl
    · cases h
  rw [if_neg ‹_›]
  split at h
  · rw [if_pos ‹_›]
    split at h
    · cases h
      rw [unsigned_eq (.inl rfl), hone, BitVec.toNat_setWidth]
      rfl
    · cases h
  rw [if_neg ‹_›]
  split at h
  · rw [if_pos ‹_›]
    split at h
    · cases h
      rw [unsigned_eq (.inr rfl), hone]
      rfl
    · cases h
  rw [if_neg ‹_›]
  split at h
  · rw [if_pos ‹_›]
    split at h
    · cases h
      rw [printptr_eq, hone]
      rfl
    · cases h
  rw [if_neg ‹_›]
  split at h
  · rw [if_pos ‹_›]
    split at h
    · cases h
      rw [hone]
      rfl
    · cases h
  rw [if_neg ‹_›]
  split at h
  · rw [if_pos ‹_›]
    split at h
    · cases h
      rfl
    · cases h
  rw [if_neg ‹_›]
  split at h
  · rw [if_pos ‹_›]
    cases h
    rfl
  · rw [if_neg ‹_›]
    cases h
    rfl

/-- **what `vprintf` writes** -/
theorem vprintf_run : ∀ (fmt : List Byte) {args : List Arg} {outs : List Out},
    directives fmt args = some outs → vprintf fmt args = some (outs.flatMap Out.wrote)
  | [], args, outs, h => by
    cases h
    rfl
  | [c], args, outs, h => by
    rw [directives] at h
    unfold vprintf vprintfLoop
    split at h
    · rw [if_pos ‹_›]
      cases h
      rfl
    · rw [if_neg ‹_›]
      cases h
      rfl
  | c :: d :: fmt, args, outs, h => by
    rw [directives] at h
    unfold vprintf vprintfLoop
    split at h
    · rw [if_pos ‹_›, vprintfLoop]
      obtain ⟨⟨o, rest⟩, hd, h⟩ := Option.bind_eq_some_iff.1 h
      obtain ⟨os, hos, rfl⟩ := Option.map_eq_some_iff.1 h
      have ih := vprintf_run fmt hos
      rw [convert_run hd, Option.bind_some]
      unfold vprintf at ih
      rw [ih, Option.map_some, List.flatMap_append]
    · rw [if_neg ‹_›]
      obtain ⟨os, hos, rfl⟩ := Option.map_eq_some_iff.1 h
      have ih := vprintf_run (d :: fmt) hos
      unfold vprintf at ih
      rw [ih, Option.map_some, List.flatMap_cons]
      rfl

/-- the parts that are written as they are meant -/
def Out.Good : Out → Prop
  | long x => x.toNat < 2 ^ 32
  | lone => False
  | _ => True

instance (o : Out) : Decidable o.Good := by
  cases o <;> unfold Out.Good <;> infer_instance

theorem Out.wrote_eq_iff (o : Out) : o.wrote = o.meant ↔ o.Good := by
  cases o with
  | long x =>
    constructor
    · intro h
      have := numeral_inj h
      show x.toNat < 2 ^ 32
      omega
    · intro h
      show numeral 10 (x.toNat % 2 ^ 32) = numeral 10 x.toNat
      rw [Nat.mod_eq_of_lt h]
  | lone => exact iff_of_false nofun id
  | lit b => exact iff_of_true rfl trivial
  | dec x => exact iff_of_true rfl trivial
  | hex x => exact iff_of_true rfl trivial
  | ptr x => exact iff_of_true rfl trivial
  | str s => exact iff_of_true rfl trivial
  | chr c => exact iff_of_true rfl trivial

theorem Out.wrote_length (o : Out) : o.wrote.length ≤ o.meant.length := by
  cases o with
  | long x => exact numeral_length_mono (Nat.mod_le ..)
  | lone => exact Nat.zero_le _
  | lit b => exact Nat.le_refl _
  | dec x => exact Nat.le_refl _
  | hex x => exact Nat.le_refl _
  | ptr x => exact Nat.le_refl _
  | str s => exact Nat.le_refl _
  | chr c => exact Nat.le_refl _

/-- as no part is longer than it is meant to be, an error in one cannot be made up for by another -/
theorem wrote_flatMap_iff (outs : List Out) :
    outs.flatMap Out.wrote = outs.flatMap Out.meant ↔ ∀ o ∈ outs, o.Good := by
  have hle : ∀ os : List Out, (os.flatMap Out.wrote).length ≤ (os.flatMap Out.meant).length := fun os => by
    induction os with
    | nil => exact Nat.le_refl _
    | cons o os ih =>
      rw [List.flatMap_cons, List.flatMap_cons, List.length_append, List.length_append]
      exact Nat.add_le_add o.wrote_length ih
  induction outs with
  | nil => exact iff_of_true rfl nofun
  | cons o os ih =>
    rw [List.forall_mem_cons, List.flatMap_cons, List.flatMap_cons]
    refine Iff.trans ?_ (and_congr o.wrote_eq_iff ih)
    constructor
    · intro h
      have hlen := congrArg List.length h
      rw [List.length_append, List.length_append] at hlen
      have h1 := o.wrote_length
      have h2 := hle os
      exact List.append_inj h (by omega)
    · rintro ⟨h1, h2⟩
      rw [h1, h2]

/-- **`vprintf` renders its arguments faithfully** exactly if no `%l` has a number of more than 32 bits and
the format does not end in a lone `%`; `printint` never leaves its buffer -/
theorem vprintf_faithful_iff (fmt : List Byte) (args : List Arg) (outs : List Out)
    (h : directives fmt args = some outs) :
    (vprintf fmt args).isSome ∧
      (vprintf fmt args = some (outs.flatMap Out.meant) ↔ ∀ o ∈ outs, o.Good) ∧
      ∀ xx sgn, (printint xx 10 sgn).isSome ∧ (printint xx 16 sgn).isSome := by
  refine ⟨by rw [vprintf_run fmt h]; rfl, ?_, fun xx sgn => ?_⟩
  · rw [vprintf_run fmt h, Option.some.injEq, wrote_flatMap_iff]
  · rw [printint_spec (.inl rfl), printint_spec (.inr rfl)]
    exact ⟨rfl, rfl⟩

theorem vprintf_faithful_sample : vprintf [ch '%', ch 'd'] [.int 0x80000000] =
    some (Out.meant (.dec 0x80000000)) := by
  have h := (vprintf_faithful_iff [ch '%', ch 'd'] [.int 0x80000000] [.dec 0x80000000] rfl).2.1
  exact (h.2 (by decide)).trans (congrArg some (List.append_nil _))

theorem vprintf_truncates : directives [ch '%', ch 'l'] [.long 0x100000000] = some [.long 0x100000000] ∧
    vprintf [ch '%', ch 'l'] [.long 0x100000000] = some [ch '0'] ∧
    Out.meant (.long 0x100000000) = "4294967296".toList.map ch := by
  refine ⟨rfl, by decide +kernel, by decide +kernel⟩

end Xv6.Printf
