import Xv6.Kernel.Copy

/-!
# `grep.c`

Strings are lists of bytes, without the NUL that ends them.

* `matchhere`, `matchstar`, `pmatch`   the matcher (`match` in the source);
* `denote`, `Accepts`   the language of a pattern, and what it is to match a text;
* `pmatch_iff`   **the matcher decides it**;
* `grep`   the loop over the buffer, for every way in which `read` cuts the
  content;
* `grep_run`   what it writes: the lines that match, up to the first line that
  does not fit in the buffer;
* `grep_filters_iff`   **when that is all of them**.
-/

namespace Xv6.Grep
open Function (update update_of_ne update_self)

abbrev ch (c : Char) : Byte := .ofNat 8 c.toNat

/-! ## The matcher -/

/-- the loop of `matchstar`, where `here` is `matchhere` for the rest of the pattern -/
def starLoop (here : List Byte → Bool) (c : Byte) : List Byte → Bool
  | [] => here []
  | b :: text =>
    if here (b :: text) then true
    else if b = c ∨ c = ch '.' then starLoop here c text
    else false

/-- search for the pattern at the beginning of the text -/
def matchhere : List Byte → List Byte → Bool
  | [], _ => true
  | [c], text =>
    if c = ch '$' then text.isEmpty
    else match text with
      | [] => false
      | b :: _ => c = ch '.' ∨ c = b
  | c :: d :: re, text =>
    if d = ch '*' then starLoop (matchhere re) c text
    else match text with
      | [] => false
      | b :: text => if c = ch '.' ∨ c = b then matchhere (d :: re) text else false

/-- search for `c*re` at the beginning of the text -/
def matchstar (c : Byte) (re text : List Byte) : Bool := starLoop (matchhere re) c text

/-- the loop of `match`, from each position of the text on -/
def matchAny (re : List Byte) : List Byte → Bool
  | [] => matchhere re []
  | b :: text => if matchhere re (b :: text) then true else matchAny re text

/-- `match` -/
def pmatch (re text : List Byte) : Bool :=
  match re with
  | [] => matchAny [] text
  | c :: re' => if c = ch '^' then matchhere re' text else matchAny (c :: re') text

/-! ## The language of a pattern -/

/-- a character of the pattern: any one byte for `.`, else itself -/
def Fits (c b : Byte) : Prop := c = ch '.' ∨ c = b

def sym (c : Byte) : Language Byte := {w | ∃ b, w = [b] ∧ Fits c b}

/-- a character followed by `*` stands for any number of its matches, any other for one -/
def denote : List Byte → Language Byte
  | [] => 1
  | [c] => sym c
  | c :: d :: re => if d = ch '*' then KStar.kstar (sym c) * denote re else sym c * denote (d :: re)

/-- the pattern has a final `$` -/
def atEnd (re : List Byte) : Prop := re.getLast? = some (ch '$')

instance (re : List Byte) : Decidable (atEnd re) := inferInstanceAs (Decidable (_ = _))

/-- the pattern without its final `$` -/
def body (re : List Byte) : List Byte := if atEnd re then re.dropLast else re

/-- the pattern without the `^` that it may begin with -/
def unanchored (re : List Byte) : List Byte := if re.head? = some (ch '^') then re.tail else re

/-- a part of the text is in the language: a prefix if the pattern begins with `^`, a suffix if it ends
with `$` -/
def Accepts (re text : List Byte) : Prop :=
  ∃ pre w post, text = pre ++ (w ++ post) ∧ w ∈ denote (body (unanchored re)) ∧
    (re.head? = some (ch '^') → pre = []) ∧ (atEnd (unanchored re) → post = [])

/-! ### Languages -/

theorem mem_star_sym {c : Byte} {w : List Byte} : w ∈ KStar.kstar (sym c) ↔ ∀ b ∈ w, Fits c b := by
  rw [Language.mem_kstar]
  constructor
  · rintro ⟨L, rfl, hL⟩ b hb
    obtain ⟨x, hx, hbx⟩ := List.mem_flatten.1 hb
    obtain ⟨b', rfl, hfit⟩ := hL x hx
    obtain rfl := List.mem_singleton.1 hbx
    exact hfit
  · intro h
    refine ⟨w.map fun b => [b], ?_, fun x hx => ?_⟩
    · rw [← List.flatMap_def]
      exact (List.flatMap_singleton' w).symm
    · obtain ⟨b, hb, rfl⟩ := List.mem_map.1 hx
      exact ⟨b, rfl, h b hb⟩

theorem mem_sym_mul {c : Byte} {L : Language Byte} {w : List Byte} :
    w ∈ sym c * L ↔ ∃ b x, w = b :: x ∧ Fits c b ∧ x ∈ L := by
  rw [Language.mem_mul]
  constructor
  · rintro ⟨_, ⟨b, rfl, hfit⟩, x, hx, rfl⟩
    exact ⟨b, x, rfl, hfit, hx⟩
  · rintro ⟨b, x, rfl, hfit, hx⟩
    exact ⟨[b], ⟨b, rfl, hfit⟩, x, hx, rfl⟩

theorem mem_star_mul {c : Byte} {L : Language Byte} {w : List Byte} :
    w ∈ KStar.kstar (sym c) * L ↔ ∃ r x, w = r ++ x ∧ (∀ b ∈ r, Fits c b) ∧ x ∈ L := by
  rw [Language.mem_mul]
  constructor
  · rintro ⟨r, hr, x, hx, rfl⟩
    exact ⟨r, x, rfl, mem_star_sym.1 hr, hx⟩
  · rintro ⟨r, x, rfl, hr, hx⟩
    exact ⟨r, mem_star_sym.2 hr, x, hx, rfl⟩

theorem denote_once {c : Byte} {re : List Byte} (h : re.head? ≠ some (ch '*')) :
    denote (c :: re) = sym c * denote re := by
  cases re with
  | nil => exact (mul_one _).symm
  | cons d re =>
    rw [denote, if_neg]
    rintro rfl
    exact h rfl

theorem atEnd_cons {c d : Byte} {re : List Byte} : atEnd (c :: d :: re) ↔ atEnd (d :: re) := by
  unfold atEnd
  rw [List.getLast?_cons_cons]

theorem body_cons (c d : Byte) (re : List Byte) : body (c :: d :: re) = c :: body (d :: re) := by
  unfold body
  rw [if_congr atEnd_cons rfl rfl]
  split <;> rfl

theorem atEnd_star {re : List Byte} : atEnd (ch '*' :: re) ↔ atEnd re := by
  cases re with
  | nil => exact ⟨fun h => absurd h (by decide), nofun⟩
  | cons d re => exact atEnd_cons

theorem body_star (re : List Byte) : body (ch '*' :: re) = ch '*' :: body re := by
  cases re with
  | nil => rfl
  | cons d re => exact body_cons ..

theorem body_head {d : Byte} {re : List Byte} (h : d ≠ ch '*') : (body (d :: re)).head? ≠ some (ch '*') := by
  unfold body
  split
  · cases re with
    | nil => nofun
    | cons e re => exact fun hd => h (Option.some.inj hd)
  · exact fun hd => h (Option.some.inj hd)

/-! ### The matcher decides the language -/

/-- the pattern matches at the beginning of the text -/
def Begins (re text : List Byte) : Prop :=
  ∃ w post, text = w ++ post ∧ w ∈ denote (body re) ∧ (atEnd re → post = [])

theorem starLoop_iff {here : List Byte → Bool} {c : Byte} (text : List Byte) :
    starLoop here c text = true ↔ ∃ r rest, text = r ++ rest ∧ (∀ b ∈ r, Fits c b) ∧ here rest = true := by
  induction text with
  | nil =>
    constructor
    · intro h
      exact ⟨[], [], rfl, nofun, h⟩
    · rintro ⟨r, rest, e, -, h⟩
      obtain ⟨-, rfl⟩ := List.append_eq_nil_iff.1 e.symm
      exact h
  | cons b text ih =>
    rw [starLoop]
    by_cases hb : here (b :: text) = true
    · rw [if_pos hb]
      exact iff_of_true rfl ⟨[], b :: text, rfl, nofun, hb⟩
    rw [if_neg hb]
    have key : (∃ r rest, b :: text = r ++ rest ∧ (∀ b ∈ r, Fits c b) ∧ here rest = true) ↔
        Fits c b ∧ ∃ r rest, text = r ++ rest ∧ (∀ b ∈ r, Fits c b) ∧ here rest = true := by
      constructor
      · rintro ⟨r, rest, e, hr, h⟩
        cases r with
        | nil =>
          rw [List.nil_append] at e
          exact absurd (e ▸ h) hb
        | cons x r =>
          obtain ⟨rfl, rfl⟩ := List.cons.inj e
          exact ⟨hr b List.mem_cons_self, r, rest, rfl, fun y hy => hr y (List.mem_cons_of_mem _ hy), h⟩
      · rintro ⟨hfit, r, rest, rfl, hr, h⟩
        exact ⟨b :: r, rest, rfl, List.forall_mem_cons.2 ⟨hfit, hr⟩, h⟩
    rw [key]
    have hfit : (b = c ∨ c = ch '.') ↔ Fits c b := by
      unfold Fits
      rw [or_comm, eq_comm (a := b)]
    by_cases hc : b = c ∨ c = ch '.'
    · rw [if_pos hc, ih]
      exact (and_iff_right (hfit.1 hc)).symm
    · rw [if_neg hc]
      exact iff_of_false Bool.false_ne_true fun h => hc (hfit.2 h.1)

theorem begins_once {c : Byte} {re text : List Byte} (hbody : body (c :: re) = c :: body re)
    (hend : atEnd (c :: re) ↔ atEnd re) (hhead : (body re).head? ≠ some (ch '*')) :
    Begins (c :: re) text ↔ ∃ b rest, text = b :: rest ∧ Fits c b ∧ Begins re rest := by
  unfold Begins
  rw [hbody, denote_once hhead, hend]
  constructor
  · rintro ⟨w, post, rfl, hw, hp⟩
    obtain ⟨b, x, rfl, hfit, hx⟩ := mem_sym_mul.1 hw
    exact ⟨b, x ++ post, rfl, hfit, x, post, rfl, hx, hp⟩
  · rintro ⟨b, _, rfl, hfit, x, post, rfl, hx, hp⟩
    exact ⟨b :: x, post, rfl, mem_sym_mul.2 ⟨b, x, rfl, hfit, hx⟩, hp⟩

theorem begins_star {c : Byte} {re text : List Byte} :
    Begins (c :: ch '*' :: re) text ↔
      ∃ r rest, text = r ++ rest ∧ (∀ b ∈ r, Fits c b) ∧ Begins re rest := by
  unfold Begins
  rw [body_cons, body_star, atEnd_cons, atEnd_star]
  have hden : denote (c :: ch '*' :: body re) = KStar.kstar (sym c) * denote (body re) := by
    rw [denote, if_pos rfl]
  rw [hden]
  constructor
  · rintro ⟨w, post, rfl, hw, hp⟩
    obtain ⟨r, x, rfl, hr, hx⟩ := mem_star_mul.1 hw
    exact ⟨r, x ++ post, List.append_assoc .., hr, x, post, rfl, hx, hp⟩
  · rintro ⟨r, _, rfl, hr, x, post, rfl, hx, hp⟩
    exact ⟨r ++ x, post, (List.append_assoc ..).symm, mem_star_mul.2 ⟨r, x, rfl, hr, hx⟩, hp⟩

theorem begins_nil (text : List Byte) : Begins [] text :=
  ⟨[], text, rfl, rfl, fun h => absurd h (by decide)⟩

theorem begins_dollar {text : List Byte} : Begins [ch '$'] text ↔ text = [] := by
  have hbody : body [ch '$'] = [] := rfl
  unfold Begins
  rw [hbody]
  constructor
  · rintro ⟨w, post, rfl, hw, hp⟩
    obtain rfl : w = [] := hw
    exact hp rfl
  · rintro rfl
    exact ⟨[], [], rfl, rfl, fun _ => rfl⟩

theorem begins_single {c : Byte} {text : List Byte} (h : c ≠ ch '$') :
    Begins [c] text ↔ ∃ b rest, text = b :: rest ∧ Fits c b := by
  have hend : ¬ atEnd [c] := fun e => h (Option.some.inj e)
  rw [@begins_once _ [] _ (if_neg hend) (iff_of_false hend (by decide)) nofun]
  simp only [begins_nil, and_true]

/-- **`matchhere`** searches at the beginning of the text -/
theorem matchhere_iff : ∀ re text : List Byte, matchhere re text = true ↔ Begins re text
  | [], text => iff_of_true rfl (begins_nil text)
  | [c], text => by
    rw [matchhere.eq_def]
    dsimp only
    by_cases hc : c = ch '$'
    · rw [if_pos hc, hc, begins_dollar, List.isEmpty_iff]
    · rw [if_neg hc, begins_single hc]
      cases text with
      | nil => exact iff_of_false Bool.false_ne_true nofun
      | cons b text =>
        rw [decide_eq_true_iff]
        constructor
        · intro hfit
          exact ⟨b, text, rfl, hfit⟩
        · rintro ⟨_, _, e, hfit⟩
          cases e
          exact hfit
  | c :: d :: re, text => by
    rw [matchhere.eq_def]
    dsimp only
    by_cases hd : d = ch '*'
    · rw [if_pos hd, hd, starLoop_iff, begins_star]
      simp only [matchhere_iff re]
    · rw [if_neg hd, begins_once (body_cons ..) atEnd_cons (body_head hd)]
      cases text with
      | nil => exact iff_of_false Bool.false_ne_true nofun
      | cons b text =>
        have key : (∃ b' rest, b :: text = b' :: rest ∧ Fits c b' ∧ Begins (d :: re) rest) ↔
            Fits c b ∧ Begins (d :: re) text := by
          constructor
          · rintro ⟨_, _, e, h⟩
            cases e
            exact h
          · intro h
            exact ⟨b, text, rfl, h⟩
        rw [key, ← matchhere_iff (d :: re) text]
        dsimp only
        by_cases hfit : c = ch '.' ∨ c = b
        · rw [if_pos hfit]
          exact (and_iff_right hfit).symm
        · rw [if_neg hfit]
          exact iff_of_false Bool.false_ne_true fun h => hfit h.1

theorem matchAny_iff (re text : List Byte) :
    matchAny re text = true ↔ ∃ pre rest, text = pre ++ rest ∧ Begins re rest := by
  induction text with
  | nil =>
    rw [matchAny, matchhere_iff]
    constructor
    · intro h
      exact ⟨[], [], rfl, h⟩
    · rintro ⟨pre, rest, e, h⟩
      obtain ⟨-, rfl⟩ := List.append_eq_nil_iff.1 e.symm
      exact h
  | cons b text ih =>
    rw [matchAny]
    by_cases hb : matchhere re (b :: text) = true
    · rw [if_pos hb]
      exact iff_of_true rfl ⟨[], b :: text, rfl, (matchhere_iff ..).1 hb⟩
    · rw [if_neg hb, ih]
      constructor
      · rintro ⟨pre, rest, rfl, h⟩
        exact ⟨b :: pre, rest, rfl, h⟩
      · rintro ⟨pre, rest, e, h⟩
        cases pre with
        | nil =>
          rw [List.nil_append] at e
          exact absurd ((matchhere_iff ..).2 (e ▸ h)) hb
        | cons x pre =>
          obtain ⟨-, rfl⟩ := List.cons.inj e
          exact ⟨pre, rest, rfl, h⟩

/-- **the matcher is correct**: it returns 1 exactly if a part of the text is in the language of the
pattern -/
theorem pmatch_iff (re text : List Byte) : pmatch re text = true ↔ Accepts re text := by
  have hany : ∀ re : List Byte, re.head? ≠ some (ch '^') →
      ((∃ pre rest, text = pre ++ rest ∧ Begins re rest) ↔ Accepts re text) := fun re hre => by
    unfold Accepts unanchored
    rw [if_neg hre]
    constructor
    · rintro ⟨pre, _, rfl, w, post, rfl, hw, hp⟩
      exact ⟨pre, w, post, rfl, hw, fun h => absurd h hre, hp⟩
    · rintro ⟨pre, w, post, rfl, hw, -, hp⟩
      exact ⟨pre, w ++ post, rfl, w, post, rfl, hw, hp⟩
  cases re with
  | nil => exact (matchAny_iff ..).trans (hany [] nofun)
  | cons c re =>
    rw [pmatch]
    by_cases hc : c = ch '^'
    · subst hc
      rw [if_pos rfl, matchhere_iff]
      have hun : unanchored (ch '^' :: re) = re := if_pos rfl
      unfold Accepts Begins
      rw [hun]
      constructor
      · rintro ⟨w, post, rfl, hw, hp⟩
        exact ⟨[], w, post, rfl, hw, fun _ => rfl, hp⟩
      · rintro ⟨pre, w, post, rfl, hw, hpre, hp⟩
        rw [hpre rfl]
        exact ⟨w, post, rfl, hw, hp⟩
    · rw [if_neg hc]
      exact (matchAny_iff ..).trans (hany _ fun h => hc (Option.some.inj h))

/-! ## `grep` -/

abbrev nl : Byte := ch '\n'

/-- `sizeof(buf)` -/
def BUFSZ : ℕ := 1024

/-- `strchr`, from byte `i` of a buffer with `f` bytes from there on -/
def strchr (s : ℕ → Byte) (c : Byte) : ℕ → ℕ → Option ℕ
  | 0, _ => none
  | f + 1, i => if s i = 0 then none else if s i = c then some i else strchr s c f (i + 1)

/-- the string at `p` -/
def cstr (buf : ℕ → Byte) (p : ℕ) : List Byte :=
  bytes (fun i => buf (p + i)) (strlen (fun i => buf (p + i)) (BUFSZ - p))

/-- the inner loop: the lines that the buffer holds from `p` on; `out` is what was written so far -/
def scanLoop (pattern : List Byte) :
    ℕ → (ℕ → Byte) → ℕ → List Byte → Option ((ℕ → Byte) × ℕ × List Byte)
  | 0, _, _, _ => none
  | f + 1, buf, p, out =>
    match strchr buf nl (BUFSZ - p) p with
    | none => some (buf, p, out)
    | some q =>
      let buf := Function.update buf q 0
      if pmatch pattern (cstr buf p) then
        let buf := Function.update buf q nl
        scanLoop pattern f buf (q + 1) (out ++ bytes (fun i => buf (p + i)) (q + 1 - p))
      else scanLoop pattern f buf (q + 1) out

/-- `read` of up to `want` bytes: at least one if there are any, and no more than the file has left; the
number is otherwise the choice `n` of the kernel -/
def read (rest : List Byte) (want n : ℕ) : List Byte := rest.take (min want (max 1 n))

/-- the outer loop; `rest` is what is left of the file, `m` bytes are in the buffer, and `cut i` is the
choice of the kernel in read number `i` -/
def grepLoop (pattern : List Byte) (cut : ℕ → ℕ) :
    ℕ → ℕ → List Byte → (ℕ → Byte) → ℕ → List Byte → Option (List Byte)
  | 0, _, _, _, _, _ => none
  | f + 1, i, rest, buf, m, out =>
    let x := read rest (BUFSZ - m - 1) (cut i)
    if x.length = 0 then some out
    else
      let buf := fun j => if m ≤ j ∧ j < m + x.length then x.getD (j - m) 0 else buf j
      let m := m + x.length
      let buf := Function.update buf m 0
      match scanLoop pattern BUFSZ buf 0 out with
      | none => none
      | some (buf, p, out) =>
        -- `m` is not 0 here; `memmove(buf, p, m)`
        let m := m - p
        let buf := fun j => if j < m then buf (p + j) else buf j
        grepLoop pattern cut f (i + 1) (rest.drop x.length) buf m out

/-- `grep` on a file with the bytes `content`; the buffer is left from the file before -/
def grep (pattern content : List Byte) (cut : ℕ → ℕ) (buf : ℕ → Byte) : Option (List Byte) :=
  grepLoop pattern cut (content.length + 1) 0 content buf 0 []

/-! ### Lines -/

/-- the lines that end in `xs`, when `cur` is the beginning of the first -/
def linesFrom : List Byte → List Byte → List (List Byte)
  | _, [] => []
  | cur, b :: xs => if b = nl then cur :: linesFrom [] xs else linesFrom (cur ++ [b]) xs

/-- the line that does not end in `xs` -/
def restFrom : List Byte → List Byte → List Byte
  | cur, [] => cur
  | cur, b :: xs => if b = nl then restFrom [] xs else restFrom (cur ++ [b]) xs

/-- the newline-terminated lines of a file, without their newlines -/
def lines (content : List Byte) : List (List Byte) := linesFrom [] content

/-- the lines that match, each with its newline -/
def emit (pattern : List Byte) (ls : List (List Byte)) : List Byte :=
  (ls.filter (pmatch pattern)).flatMap fun l => l ++ [nl]

/-- the line and its newline fit in the buffer -/
def Short (l : List Byte) : Bool := l.length + 1 < BUFSZ

theorem linesFrom_append (cur xs ys : List Byte) :
    linesFrom cur (xs ++ ys) = linesFrom cur xs ++ linesFrom (restFrom cur xs) ys := by
  induction xs generalizing cur with
  | nil => rfl
  | cons b xs ih =>
    rw [List.cons_append, linesFrom, linesFrom, restFrom]
    split
    · rw [ih, List.cons_append]
    · exact ih _

theorem restFrom_append (cur xs ys : List Byte) :
    restFrom cur (xs ++ ys) = restFrom (restFrom cur xs) ys := by
  induction xs generalizing cur with
  | nil => rfl
  | cons b xs ih =>
    rw [List.cons_append, restFrom, restFrom]
    split
    · exact ih _
    · exact ih _

theorem linesFrom_of_notMem {xs : List Byte} (h : nl ∉ xs) (cur : List Byte) :
    linesFrom cur xs = [] ∧ restFrom cur xs = cur ++ xs := by
  induction xs generalizing cur with
  | nil => exact ⟨rfl, (List.append_nil _).symm⟩
  | cons b xs ih =>
    have hb : b ≠ nl := fun e => h (e ▸ List.mem_cons_self)
    obtain ⟨h1, h2⟩ := ih (fun hx => h (List.mem_cons_of_mem _ hx)) (cur ++ [b])
    rw [linesFrom, restFrom, if_neg hb, if_neg hb, h1, h2, List.append_assoc]
    exact ⟨rfl, rfl⟩

theorem linesFrom_line {l : List Byte} (h : nl ∉ l) (ys : List Byte) :
    linesFrom [] (l ++ nl :: ys) = l :: linesFrom [] ys ∧
      restFrom [] (l ++ nl :: ys) = restFrom [] ys := by
  have key : ∀ cur, linesFrom cur (l ++ nl :: ys) = (cur ++ l) :: linesFrom [] ys ∧
      restFrom cur (l ++ nl :: ys) = restFrom [] ys := by
    induction l with
    | nil =>
      intro cur
      rw [List.nil_append, linesFrom, restFrom, if_pos rfl, if_pos rfl, List.append_nil]
      exact ⟨rfl, rfl⟩
    | cons b l ih =>
      intro cur
      have hb : b ≠ nl := fun e => h (e ▸ List.mem_cons_self)
      obtain ⟨h1, h2⟩ := ih (fun hx => h (List.mem_cons_of_mem _ hx)) (cur ++ [b])
      rw [List.cons_append, linesFrom, restFrom, if_neg hb, if_neg hb, h1, h2, List.append_assoc]
      exact ⟨rfl, rfl⟩
  exact key []

/-- the line at the end has no newline, and no more bytes than there are -/
theorem restFrom_spec (cur xs : List Byte) (h : nl ∉ cur) :
    nl ∉ restFrom cur xs ∧ (restFrom cur xs).length ≤ cur.length + xs.length ∧
      ∀ b ∈ restFrom cur xs, b ∈ cur ∨ b ∈ xs := by
  induction xs generalizing cur with
  | nil => exact ⟨h, Nat.le_refl _, fun b hb => .inl hb⟩
  | cons b xs ih =>
    rw [restFrom]
    split
    · obtain ⟨h1, h2, h3⟩ := ih [] nofun
      rw [List.length_nil] at h2
      refine ⟨h1, by rw [List.length_cons]; omega, fun c hc => .inr ?_⟩
      exact List.mem_cons_of_mem _ ((h3 c hc).resolve_left nofun)
    · rename_i hb
      have hcur : nl ∉ cur ++ [b] := fun hx => by
        rcases List.mem_append.1 hx with hx | hx
        · exact h hx
        · exact hb (List.mem_singleton.1 hx).symm
      obtain ⟨h1, h2, h3⟩ := ih _ hcur
      rw [List.length_append, List.length_singleton] at h2
      refine ⟨h1, by rw [List.length_cons]; omega, fun c hc => ?_⟩
      rcases h3 c hc with hc | hc
      · rcases List.mem_append.1 hc with hc | hc
        · exact .inl hc
        · exact .inr (List.mem_singleton.1 hc ▸ List.mem_cons_self)
      · exact .inr (List.mem_cons_of_mem _ hc)

/-- the lines and their newlines have no more bytes than there are -/
theorem linesFrom_length (cur xs : List Byte) :
    ∀ l ∈ linesFrom cur xs, l.length + 1 ≤ cur.length + xs.length := by
  induction xs generalizing cur with
  | nil => nofun
  | cons b xs ih =>
    intro l hl
    rw [linesFrom] at hl
    rw [List.length_cons]
    split at hl
    · rcases List.mem_cons.1 hl with rfl | hl
      · omega
      · have := ih [] l hl
        rw [List.length_nil] at this
        omega
    · have := ih _ l hl
      rw [List.length_append, List.length_singleton] at this
      omega

/-- after a line that fills the buffer, no line is read to its end -/
theorem takeWhile_long {cur : List Byte} (h : BUFSZ ≤ cur.length + 1) (xs : List Byte) :
    (linesFrom cur xs).takeWhile Short = [] := by
  induction xs generalizing cur with
  | nil => rfl
  | cons b xs ih =>
    rw [linesFrom]
    split
    · refine List.takeWhile_cons_of_neg ?_
      rw [Short, decide_eq_true_iff]
      omega
    · refine ih ?_
      rw [List.length_append, List.length_singleton]
      omega

/-! ### The buffer -/

/-- the buffer has the bytes `xs` from `p` on -/
def Filled (buf : ℕ → Byte) (p : ℕ) (xs : List Byte) : Prop :=
  ∀ i (h : i < xs.length), buf (p + i) = xs[i]

namespace Filled
variable {buf buf' : ℕ → Byte} {p : ℕ} {xs ys : List Byte}

theorem append_iff : Filled buf p (xs ++ ys) ↔ Filled buf p xs ∧ Filled buf (p + xs.length) ys := by
  constructor
  · intro h
    refine ⟨fun i hi => ?_, fun i hi => ?_⟩
    · rw [h i (by rw [List.length_append]; omega), List.getElem_append_left]
    · have := h (xs.length + i) (by rw [List.length_append]; omega)
      rw [List.getElem_append_right (Nat.le_add_right ..)] at this
      simpa only [Nat.add_sub_cancel_left, Nat.add_assoc] using this
  · rintro ⟨h1, h2⟩ i hi
    rw [List.getElem_append]
    split
    · exact h1 i ‹_›
    · rename_i hge
      rw [List.length_append] at hi
      have := h2 (i - xs.length) (by omega)
      rwa [Nat.add_assoc, Nat.add_sub_of_le (Nat.le_of_not_lt hge)] at this

theorem cons_iff {b : Byte} : Filled buf p (b :: xs) ↔ buf p = b ∧ Filled buf (p + 1) xs := by
  have key : Filled buf p [b] ↔ buf p = b := by
    constructor
    · intro h
      exact h 0 Nat.zero_lt_one
    · rintro h i hi
      obtain rfl : i = 0 := by rw [List.length_singleton] at hi; omega
      exact h
  rw [← key]
  exact (append_iff : Filled buf p ([b] ++ xs) ↔ _)

theorem congr (h : Filled buf p xs) (he : ∀ a, p ≤ a → a < p + xs.length → buf' a = buf a) :
    Filled buf' p xs := fun i hi => (he _ (by omega) (by omega)).trans (h i hi)

theorem bytes_eq (h : Filled buf p xs) : bytes (fun i => buf (p + i)) xs.length = xs := by
  refine List.ext_getElem (by rw [bytes, List.length_map, List.length_range]) fun i h1 h2 => ?_
  rw [bytes_get]
  exact h i h2

theorem cstr_eq (h : Filled buf p (xs ++ [0])) (hx : 0 ∉ xs) (hp : p + xs.length < BUFSZ) :
    cstr buf p = xs := by
  have hstr : BufStr (fun i => buf (p + i)) xs := by
    refine ⟨?_, fun b hb e => hx (e ▸ hb)⟩
    have := h.bytes_eq
    rwa [List.length_append, List.length_singleton] at this
  unfold cstr
  rw [strlen_str hstr (by omega)]
  exact (append_iff.1 h).1.bytes_eq

theorem strchr_some {c : Byte} (h : Filled buf p (xs ++ c :: ys)) (hc : c ∉ xs) (hx : 0 ∉ xs)
    (hc0 : c ≠ 0) {f : ℕ} (hf : xs.length < f) : strchr buf c f p = some (p + xs.length) := by
  induction xs generalizing p f with
  | nil =>
    obtain ⟨hb, -⟩ := cons_iff.1 h
    obtain ⟨f, rfl⟩ := Nat.exists_eq_succ_of_ne_zero (Nat.ne_zero_of_lt hf)
    rw [strchr, hb, if_neg hc0, if_pos rfl]
    rfl
  | cons b xs ih =>
    obtain ⟨hb, hrest⟩ := cons_iff.1 h
    obtain ⟨f, rfl⟩ := Nat.exists_eq_succ_of_ne_zero (Nat.ne_zero_of_lt hf)
    rw [List.mem_cons, not_or] at hc hx
    rw [strchr, hb, if_neg (Ne.symm hx.1), if_neg (Ne.symm hc.1), ih hrest hc.2 hx.2]
    · rw [List.length_cons, Nat.add_assoc, Nat.add_comm 1]
    · rw [List.length_cons] at hf
      omega

theorem strchr_none {c : Byte} (h : Filled buf p (xs ++ [0])) (hc : c ∉ xs) (f : ℕ) :
    strchr buf c f p = none := by
  induction xs generalizing p f with
  | nil =>
    cases f with
    | zero => rfl
    | succ f => rw [strchr, if_pos (cons_iff.1 h).1]
  | cons b xs ih =>
    obtain ⟨hb, hrest⟩ := cons_iff.1 h
    rw [List.mem_cons, not_or] at hc
    cases f with
    | zero => rfl
    | succ f =>
      rw [strchr, hb, if_neg (Ne.symm hc.1), ih hrest hc.2]
      split <;> rfl

end Filled

/-! ### The loops -/

theorem emit_cons (pattern l : List Byte) (ls : List (List Byte)) :
    emit pattern (l :: ls) = (if pmatch pattern l then l ++ [nl] else []) ++ emit pattern ls := by
  unfold emit
  rw [List.filter_cons]
  split
  · rw [List.flatMap_cons]
  · rfl

theorem emit_append (pattern : List Byte) (ls ls' : List (List Byte)) :
    emit pattern (ls ++ ls') = emit pattern ls ++ emit pattern ls' := by
  unfold emit
  rw [List.filter_append, List.flatMap_append]

/-- **the inner loop** writes the lines that match, and leaves the line that does not end -/
theorem scanLoop_spec (pattern : List Byte) (f : ℕ) {buf : ℕ → Byte} {p : ℕ} {xs : List Byte}
    (out : List Byte) (h : Filled buf p (xs ++ [0])) (hx : 0 ∉ xs) (hp : p + xs.length < BUFSZ)
    (hf : xs.length < f) :
    ∃ buf' p', scanLoop pattern f buf p out = some (buf', p', out ++ emit pattern (linesFrom [] xs)) ∧
      Filled buf' p' (restFrom [] xs) ∧ p' + (restFrom [] xs).length = p + xs.length := by
  induction f generalizing buf p xs out with
  | zero => exact absurd hf (Nat.not_lt_zero _)
  | succ f ih =>
    rw [scanLoop]
    by_cases hnl : nl ∈ xs
    · obtain ⟨l, ys, rfl, hl⟩ := List.eq_append_cons_of_mem hnl
      rw [List.mem_append, List.mem_cons, not_or, not_or] at hx
      obtain ⟨hxl, -, hxy⟩ := hx
      rw [List.length_append, List.length_cons] at hp hf ⊢
      rw [List.append_assoc, List.cons_append] at h
      obtain ⟨hfl, hrest⟩ := Filled.append_iff.1 h
      obtain ⟨hq, hys⟩ := Filled.cons_iff.1 hrest
      rw [h.strchr_some hl hxl (by decide) (by omega), (linesFrom_line hl ys).1, (linesFrom_line hl ys).2,
        emit_cons]
      dsimp only
      -- the newline is a NUL for the time of the match
      have hcstr : cstr (update buf (p + l.length) 0) p = l := by
        refine Filled.cstr_eq (Filled.append_iff.2 ⟨hfl.congr fun a _ ha => ?_, ?_⟩) hxl (by omega)
        · exact update_of_ne (by omega) _ _
        · exact Filled.cons_iff.2 ⟨update_self .., nofun⟩
      have hnext : ∀ buf', (∀ a, p + l.length < a → buf' a = buf a) →
          Filled buf' (p + l.length + 1) (ys ++ [0]) := fun buf' he =>
        hys.congr fun a ha _ => he a (by omega)
      have hlen : p + l.length + 1 + ys.length = p + (l.length + (ys.length + 1)) := by omega
      rw [hcstr]
      split
      · have hwrite : bytes (fun i => update (update buf (p + l.length) 0) (p + l.length)
            nl (p + i)) (p + l.length + 1 - p) = l ++ [nl] := by
          have hfill : Filled (update (update buf (p + l.length) 0) (p + l.length) nl) p
              (l ++ [nl]) := by
            refine Filled.append_iff.2 ⟨hfl.congr fun a _ ha => ?_, ?_⟩
            · rw [update_of_ne (by omega), update_of_ne (by omega)]
            · exact Filled.cons_iff.2 ⟨update_self .., nofun⟩
          have := hfill.bytes_eq
          rwa [List.length_append, List.length_singleton, show l.length + 1 = p + l.length + 1 - p by omega]
            at this
        obtain ⟨buf', p', e, h1, h2⟩ := @ih (update (update buf (p + l.length) 0)
          (p + l.length) nl) _ _ (out ++ (l ++ [nl])) (hnext _ fun a ha => by
            rw [update_of_ne (by omega), update_of_ne (by omega)]) hxy (by omega) (by omega)
        refine ⟨buf', p', ?_, h1, h2.trans hlen⟩
        rw [hwrite, e, List.append_assoc]
      · obtain ⟨buf', p', e, h1, h2⟩ := @ih (update buf (p + l.length) 0) _ _ out
          (hnext _ fun a ha => update_of_ne (by omega) _ _) hxy (by omega) (by omega)
        exact ⟨buf', p', e, h1, h2.trans hlen⟩
    · obtain ⟨h1, h2⟩ := linesFrom_of_notMem hnl []
      rw [h.strchr_none hnl, h1, h2]
      exact ⟨buf, p, by rw [show emit pattern [] = [] from rfl, List.append_nil], (Filled.append_iff.1 h).1,
        rfl⟩

/-- **the outer loop**, with the beginning `cur` of a line in the buffer -/
theorem grepLoop_spec (pattern : List Byte) (cut : ℕ → ℕ) (f i : ℕ) {rest cur : List Byte}
    {buf : ℕ → Byte} (out : List Byte) (h : Filled buf 0 cur) (hcur : nl ∉ cur) (hlen : cur.length < BUFSZ)
    (hc0 : 0 ∉ cur) (hr0 : 0 ∉ rest) (hf : rest.length < f) :
    grepLoop pattern cut f i rest buf cur.length out =
      some (out ++ emit pattern ((linesFrom cur rest).takeWhile Short)) := by
  induction f generalizing i rest cur buf out with
  | zero => exact absurd hf (Nat.not_lt_zero _)
  | succ f ih =>
    rw [grepLoop]
    dsimp only
    have hread : read rest (BUFSZ - cur.length - 1) (cut i) =
        rest.take (min (BUFSZ - cur.length - 1) (max 1 (cut i))) := rfl
    generalize hk : min (BUFSZ - cur.length - 1) (max 1 (cut i)) = k at hread
    have hkle : k + cur.length + 1 ≤ BUFSZ := by omega
    rw [hread]
    by_cases h0 : (rest.take k).length = 0
    · rw [if_pos h0]
      rw [List.length_take] at h0
      have hnone : (linesFrom cur rest).takeWhile Short = [] := by
        rcases Nat.eq_zero_or_pos rest.length with he | he
        · rw [List.length_eq_zero_iff.1 he]
          rfl
        · exact takeWhile_long (by omega) rest
      rw [hnone, show emit pattern [] = [] from rfl, List.append_nil]
    · rw [if_neg h0]
      have hsplit : rest = rest.take k ++ rest.drop k := (List.take_append_drop k rest).symm
      have hdrop : rest.drop (rest.take k).length = rest.drop k := by
        rw [List.length_take]
        rcases Nat.le_total k rest.length with hle | hle
        · rw [Nat.min_eq_left hle]
        · rw [Nat.min_eq_right hle, List.drop_length, List.drop_eq_nil_of_le hle]
      have hxle : (rest.take k).length ≤ k := List.length_take_le ..
      rw [hdrop]
      generalize rest.take k = x at *
      generalize rest.drop k = ys at *
      subst hsplit
      rw [List.mem_append, not_or] at hr0
      have hfill : Filled (update (fun j => if cur.length ≤ j ∧ j < cur.length + x.length then
          x.getD (j - cur.length) 0 else buf j) (cur.length + x.length) 0) 0 (cur ++ x ++ [0]) := by
        rw [List.append_assoc]
        refine Filled.append_iff.2 ⟨h.congr fun a _ ha => ?_, Filled.append_iff.2 ⟨fun j hj => ?_, ?_⟩⟩
        · rw [update_of_ne (by omega), if_neg (by omega)]
        · rw [update_of_ne (by omega), if_pos (by omega), Nat.zero_add, Nat.add_sub_cancel_left,
            List.getD_eq_getElem?_getD, List.getElem?_eq_getElem hj, Option.getD_some]
        · rw [Nat.zero_add]
          exact Filled.cons_iff.2 ⟨update_self .., nofun⟩
      obtain ⟨buf', p', e, h1, h2⟩ := scanLoop_spec pattern BUFSZ out hfill
        (by rw [List.mem_append, not_or]; exact ⟨hc0, hr0.1⟩) (by rw [List.length_append]; omega)
        (by rw [List.length_append]; omega)
      obtain ⟨hno, hrl, hmem⟩ := restFrom_spec cur x hcur
      obtain ⟨e1, e2⟩ := linesFrom_of_notMem hcur []
      have hlines : linesFrom [] (cur ++ x) = linesFrom cur x := by
        rw [linesFrom_append, e1, e2]
        rfl
      have hrest : restFrom [] (cur ++ x) = restFrom cur x := by
        rw [restFrom_append, e2]
        rfl
      rw [hrest] at h1 h2
      rw [hlines] at e
      rw [List.length_append] at h2
      rw [e]
      dsimp only
      have hm : cur.length + x.length - p' = (restFrom cur x).length := by omega
      rw [hm, linesFrom_append]
      refine (ih (i + 1) (out ++ emit pattern (linesFrom cur x)) ?_ hno (by omega) ?_ hr0.2 ?_).trans ?_
      · intro j hj
        rw [Nat.zero_add]
        exact (if_pos hj).trans (h1 j hj)
      · intro hz
        exact (hmem 0 hz).elim hc0 hr0.1
      · rw [List.length_append] at hf
        omega
      · have hshort : ∀ l ∈ linesFrom cur x, Short l = true := fun l hl => by
          have := linesFrom_length cur x l hl
          rw [Short, decide_eq_true_iff]
          omega
        rw [List.takeWhile_append_of_pos hshort, emit_append, List.append_assoc]

/-- **what `grep` writes**: the lines that match, up to the first line that does not fit in the buffer,
however the reads cut the file -/
theorem grep_run (pattern : List Byte) {content : List Byte} (h0 : 0 ∉ content) (cut : ℕ → ℕ)
    (buf : ℕ → Byte) :
    grep pattern content cut buf = some (emit pattern ((lines content).takeWhile Short)) :=
  @grepLoop_spec pattern cut (content.length + 1) 0 _ [] _ [] nofun nofun (by decide) nofun h0
    (Nat.lt_succ_self _)

theorem emit_eq_nil {pattern : List Byte} {ls : List (List Byte)} :
    emit pattern ls = [] ↔ ∀ l ∈ ls, pmatch pattern l = false := by
  unfold emit
  rw [List.flatMap_eq_nil_iff]
  constructor
  · intro h l hl
    by_contra hm
    have := h l (List.mem_filter.2 ⟨hl, Bool.eq_true_of_not_eq_false hm⟩)
    exact absurd this (by simp)
  · intro h l hl
    obtain ⟨h1, h2⟩ := List.mem_filter.1 hl
    rw [h l h1] at h2
    cases h2

/-- **`grep` is a line filter** exactly if no line that matches stands behind, or is itself, a line that
does not fit in the buffer -/
theorem grep_filters_iff (pattern : List Byte) {content : List Byte} (h0 : 0 ∉ content) (cut : ℕ → ℕ)
    (buf : ℕ → Byte) :
    grep pattern content cut buf = some (emit pattern (lines content)) ↔
      ∀ l ∈ (lines content).dropWhile Short, pmatch pattern l = false := by
  have hsplit : emit pattern (lines content) = emit pattern ((lines content).takeWhile Short) ++
      emit pattern ((lines content).dropWhile Short) := by
    rw [← emit_append, List.takeWhile_append_dropWhile]
  rw [grep_run pattern h0, hsplit, Option.some.injEq, ← emit_eq_nil]
  exact List.self_eq_append_right

theorem grep_filters_sample :
    grep [ch 'b'] [ch 'a', ch 'b', nl, ch 'c', nl] (fun _ => 2) (fun _ => 0) =
      some (emit [ch 'b'] (lines [ch 'a', ch 'b', nl, ch 'c', nl])) :=
  (grep_filters_iff [ch 'b'] (by decide) (fun _ => 2) fun _ => 0).2 (by decide)

/-- a line of 1023 bytes, and `b`: the pattern `b` finds nothing -/
theorem grep_loses_lines :
    grep [ch 'b'] (List.replicate 1023 (ch 'a') ++ nl :: [ch 'b', nl]) (fun _ => 512) (fun _ => 0) =
        some [] ∧
      emit [ch 'b'] (lines (List.replicate 1023 (ch 'a') ++ nl :: [ch 'b', nl])) = [ch 'b', nl] := by
  have hno : nl ∉ List.replicate 1023 (ch 'a') := fun h =>
    absurd (List.eq_of_mem_replicate h) (by decide)
  have h0 : (0 : Byte) ∉ List.replicate 1023 (ch 'a') ++ nl :: [ch 'b', nl] := fun h => by
    rcases List.mem_append.1 h with h | h
    · exact absurd (List.eq_of_mem_replicate h) (by decide)
    · exact absurd h (by decide)
  have hlines : lines (List.replicate 1023 (ch 'a') ++ nl :: [ch 'b', nl]) =
      [List.replicate 1023 (ch 'a'), [ch 'b']] := (linesFrom_line hno _).1
  have hlong : ¬ Short (List.replicate 1023 (ch 'a')) = true := by
    rw [Short, decide_eq_true_iff, List.length_replicate]
    decide
  have hmiss : pmatch [ch 'b'] (List.replicate 1023 (ch 'a')) = false := by decide +kernel
  rw [grep_run _ h0, hlines, List.takeWhile_cons_of_neg hlong, emit_cons, hmiss]
  exact ⟨rfl, rfl⟩

end Xv6.Grep
