import Xv6.User.Grammar

/-!
# The shell's parser accepts its grammar

The parser on the bytes of a line makes the steps of the parser on the line's tokens: a pointer into
the line stands for the tokens after it, and the bounds of a word for its text.

* `Sim Q x y`   two routines return related results, or stop in the same way;
* `Scans R W inp inp'`  two scanners with related places and words;
* `Scans.parse`   the parser on one runs as on the other;
* `pointers_scans`   the scanner of the source and the tokens of its line;
* `nulterminate_spans`  the NULs end every word and damage none;
* `parsecmd_accepts`   `parsecmd` terminates, reads no byte after the line's NUL, and returns a
  command exactly when the grammar derives one, which is then this command.
-/

namespace Xv6.Sh

/-! ## Simulation -/

section
variable {α β α' β' : Type}

def Sim (Q : α → β → Prop) (x : Except Halt α) (y : Except Halt β) : Prop :=
  match x, y with
  | .ok a, .ok b => Q a b
  | .error e, .error e' => e = e'
  | _, _ => False

theorem Sim.bind {Q : α → β → Prop} {Q' : α' → β' → Prop} {x : Except Halt α} {y : Except Halt β}
    {f : α → Except Halt α'} {g : β → Except Halt β'} (h : Sim Q x y)
    (hf : ∀ a b, Q a b → Sim Q' (f a) (g b)) : Sim Q' (x >>= f) (y >>= g) := by
  cases x with
  | error e =>
    cases y with
    | error e' => exact h
    | ok b => exact h.elim
  | ok a =>
    cases y with
    | error e' => exact h.elim
    | ok b => exact hf a b h

theorem Sim.ite {Q : α → β → Prop} {x x' : Except Halt α} {y y' : Except Halt β} (p : Prop)
    [Decidable p] (h : p → Sim Q x y) (h' : ¬ p → Sim Q x' y') :
    Sim Q (if p then x else x') (if p then y else y') := by
  by_cases hp : p
  · rw [if_pos hp, if_pos hp]
    exact h hp
  · rw [if_neg hp, if_neg hp]
    exact h' hp

end

/-- one command with the words of another replaced by related ones -/
inductive Cmd.Rel {ω ω' : Type} (W : ω → ω' → Prop) : Cmd ω → Cmd ω' → Prop
  | exec {argv : List ω} {argv' : List ω'} : List.Forall₂ W argv argv' →
      Cmd.Rel W (.exec argv) (.exec argv')
  | redir {c : Cmd ω} {c' : Cmd ω'} {f : ω} {f' : ω'} (mode : BitVec 32) (fd : ℕ) :
      Cmd.Rel W c c' → W f f' → Cmd.Rel W (.redir c f mode fd) (.redir c' f' mode fd)
  | pipe {c d : Cmd ω} {c' d' : Cmd ω'} : Cmd.Rel W c c' → Cmd.Rel W d d' →
      Cmd.Rel W (.pipe c d) (.pipe c' d')
  | list {c d : Cmd ω} {c' d' : Cmd ω'} : Cmd.Rel W c c' → Cmd.Rel W d d' →
      Cmd.Rel W (.list c d) (.list c' d')
  | back {c : Cmd ω} {c' : Cmd ω'} : Cmd.Rel W c c' → Cmd.Rel W (.back c) (.back c')

section
variable {σ ω σ' ω' : Type} {R : σ → σ' → Prop} {W : ω → ω' → Prop}
  {inp : Scanner σ ω} {inp' : Scanner σ' ω'}

theorem Cmd.Rel.pushArg {c : Cmd ω} {c' : Cmd ω'} {w : ω} {w' : ω'} (h : Cmd.Rel W c c')
    (hw : W w w') : Cmd.Rel W (c.pushArg w) (c'.pushArg w') := by
  induction h with
  | exec h => exact .exec (List.rel_append h (.cons hw .nil))
  | redir mode fd _ hf ih => exact .redir mode fd ih hf
  | pipe h1 h2 => exact .pipe h1 h2
  | list h1 h2 => exact .list h1 h2
  | back h1 => exact .back h1

theorem Cmd.Rel.redircmd {c : Cmd ω} {c' : Cmd ω'} {f : ω} {f' : ω'} (h : Cmd.Rel W c c')
    (hf : W f f') (tok : Byte) : Cmd.Rel W (redircmd tok c f) (redircmd tok c' f') := by
  unfold Sh.redircmd
  split
  · exact .redir _ _ h hf
  · split
    · exact .redir _ _ h hf
    · split
      · exact .redir _ _ h hf
      · exact h

variable (R W inp inp') in
/-- the scanners give the same answers at related places -/
structure Scans : Prop where
  peek {s : σ} {t : σ'} (h : R s t) (toks : List Byte) :
    Sim (fun a b => a.1 = b.1 ∧ R a.2 b.2) (inp.peek s toks) (inp'.peek t toks)
  gettoken {s : σ} {t : σ'} (h : R s t) :
    Sim (fun a b => a.1 = b.1 ∧ (a.1 = ch 'a' → W a.2.1 b.2.1) ∧ R a.2.2 b.2.2)
      (inp.gettoken s) (inp'.gettoken t)

variable (R W) in
/-- results of parsing: related commands and places -/
abbrev Parsed (a : Cmd ω × σ) (b : Cmd ω' × σ') : Prop := Cmd.Rel W a.1 b.1 ∧ R a.2 b.2

variable (hscan : Scans R W inp inp')
include hscan

theorem Scans.parseredirs (n : ℕ) {c : Cmd ω} {c' : Cmd ω'} (hc : Cmd.Rel W c c') {s : σ} {t : σ'}
    (h : R s t) : Sim (Parsed R W) (parseredirs inp n c s) (parseredirs inp' n c' t) := by
  induction n generalizing c c' s t with
  | zero => rfl
  | succ n ih =>
    rw [Sh.parseredirs, Sh.parseredirs]
    refine (hscan.peek h _).bind ?_
    rintro ⟨more, s⟩ ⟨_, t⟩ ⟨rfl, h⟩
    refine .ite _ (fun _ => ?_) (fun _ => ⟨hc, h⟩)
    refine (hscan.gettoken h).bind ?_
    rintro ⟨tok, _, s⟩ ⟨_, _, t⟩ ⟨rfl, _, h⟩
    refine (hscan.gettoken h).bind ?_
    rintro ⟨k, f, s⟩ ⟨_, f', t⟩ ⟨rfl, hf, h⟩
    refine .ite _ (fun _ => rfl) (fun hk => ?_)
    exact ih (hc.redircmd (hf (not_not.1 hk)) tok) h

theorem Scans.parseargs (n : ℕ) {c : Cmd ω} {c' : Cmd ω'} (hc : Cmd.Rel W c c') (argc : ℕ) {s : σ}
    {t : σ'} (h : R s t) :
    Sim (Parsed R W) (parseargs inp n c argc s) (parseargs inp' n c' argc t) := by
  induction n generalizing c c' argc s t with
  | zero => rfl
  | succ n ih =>
    rw [Sh.parseargs, Sh.parseargs]
    refine (hscan.peek h _).bind ?_
    rintro ⟨stop, s⟩ ⟨_, t⟩ ⟨rfl, h⟩
    refine .ite _ (fun _ => ⟨hc, h⟩) (fun _ => ?_)
    refine (hscan.gettoken h).bind ?_
    rintro ⟨tok, q, s⟩ ⟨_, q', t⟩ ⟨rfl, hq, h⟩
    refine .ite _ (fun _ => ⟨hc, h⟩) (fun _ => .ite _ (fun _ => rfl) (fun hk => ?_))
    refine .ite _ (fun _ => rfl) (fun _ => ?_)
    refine (hscan.parseredirs n (hc.pushArg (hq (not_not.1 hk))) h).bind ?_
    rintro ⟨c, s⟩ ⟨c', t⟩ ⟨hc, h⟩
    exact ih hc (argc + 1) h

theorem Scans.parseback (n : ℕ) {c : Cmd ω} {c' : Cmd ω'} (hc : Cmd.Rel W c c') {s : σ} {t : σ'}
    (h : R s t) : Sim (Parsed R W) (parseback inp n c s) (parseback inp' n c' t) := by
  induction n generalizing c c' s t with
  | zero => rfl
  | succ n ih =>
    rw [Sh.parseback, Sh.parseback]
    refine (hscan.peek h _).bind ?_
    rintro ⟨more, s⟩ ⟨_, t⟩ ⟨rfl, h⟩
    refine .ite _ (fun _ => ?_) (fun _ => ⟨hc, h⟩)
    refine (hscan.gettoken h).bind ?_
    rintro ⟨_, _, s⟩ ⟨_, _, t⟩ ⟨_, _, h⟩
    exact ih (.back hc) h

/-- **the parser runs alike on scanners that give the same answers** -/
theorem Scans.parse (n : ℕ) {s : σ} {t : σ'} (h : R s t) :
    Sim (Parsed R W) (parseline inp n s) (parseline inp' n t) ∧
    Sim (Parsed R W) (parsepipe inp n s) (parsepipe inp' n t) ∧
    Sim (Parsed R W) (parseblock inp n s) (parseblock inp' n t) ∧
    Sim (Parsed R W) (parseexec inp n s) (parseexec inp' n t) := by
  induction n generalizing s t with
  | zero => exact ⟨rfl, rfl, rfl, rfl⟩
  | succ n ih =>
    refine ⟨?_, ?_, ?_, ?_⟩
    · rw [parseline, parseline]
      refine (ih h).2.1.bind ?_
      rintro ⟨c, s⟩ ⟨c', t⟩ ⟨hc, h⟩
      refine (hscan.parseback n hc h).bind ?_
      rintro ⟨c, s⟩ ⟨c', t⟩ ⟨hc, h⟩
      refine (hscan.peek h _).bind ?_
      rintro ⟨more, s⟩ ⟨_, t⟩ ⟨rfl, h⟩
      refine .ite _ (fun _ => ?_) (fun _ => ⟨hc, h⟩)
      refine (hscan.gettoken h).bind ?_
      rintro ⟨_, _, s⟩ ⟨_, _, t⟩ ⟨_, _, h⟩
      refine (ih h).1.bind ?_
      rintro ⟨d, s⟩ ⟨d', t⟩ ⟨hd, h⟩
      exact ⟨.list hc hd, h⟩
    · rw [parsepipe, parsepipe]
      refine (ih h).2.2.2.bind ?_
      rintro ⟨c, s⟩ ⟨c', t⟩ ⟨hc, h⟩
      refine (hscan.peek h _).bind ?_
      rintro ⟨more, s⟩ ⟨_, t⟩ ⟨rfl, h⟩
      refine .ite _ (fun _ => ?_) (fun _ => ⟨hc, h⟩)
      refine (hscan.gettoken h).bind ?_
      rintro ⟨_, _, s⟩ ⟨_, _, t⟩ ⟨_, _, h⟩
      refine (ih h).2.1.bind ?_
      rintro ⟨d, s⟩ ⟨d', t⟩ ⟨hd, h⟩
      exact ⟨.pipe hc hd, h⟩
    · rw [parseblock, parseblock]
      refine (hscan.peek h _).bind ?_
      rintro ⟨opens, s⟩ ⟨_, t⟩ ⟨rfl, h⟩
      refine .ite _ (fun _ => rfl) (fun _ => ?_)
      refine (hscan.gettoken h).bind ?_
      rintro ⟨_, _, s⟩ ⟨_, _, t⟩ ⟨_, _, h⟩
      refine (ih h).1.bind ?_
      rintro ⟨c, s⟩ ⟨c', t⟩ ⟨hc, h⟩
      refine (hscan.peek h _).bind ?_
      rintro ⟨closes, s⟩ ⟨_, t⟩ ⟨rfl, h⟩
      refine .ite _ (fun _ => rfl) (fun _ => ?_)
      refine (hscan.gettoken h).bind ?_
      rintro ⟨_, _, s⟩ ⟨_, _, t⟩ ⟨_, _, h⟩
      exact hscan.parseredirs n hc h
    · rw [parseexec, parseexec]
      refine (hscan.peek h _).bind ?_
      rintro ⟨block, s⟩ ⟨_, t⟩ ⟨rfl, h⟩
      refine .ite _ (fun _ => (ih h).2.2.1) (fun _ => ?_)
      refine (hscan.parseredirs n (.exec .nil) h).bind ?_
      rintro ⟨c, s⟩ ⟨c', t⟩ ⟨hc, h⟩
      exact hscan.parseargs n hc 0 h

end

/-! ## The bytes and the tokens of a line -/

theorem singles_first {c : Byte} {t : Tok} (h : (c, t) ∈ singles) :
    c ∈ [ch '|', ch '(', ch ')', ch ';', ch '&', ch '<'] ∧ ¬ isSpace c ∧ t.first = c ∧ t.code = c := by
  have hall : ∀ p ∈ singles, p.1 ∈ [ch '|', ch '(', ch ')', ch ';', ch '&', ch '<'] ∧
      ¬ isSpace p.1 ∧ p.2.first = p.1 ∧ p.2.code = p.1 := by decide
  exact hall _ h

theorem isWord_not_space {c : Byte} (h : isWord c) : ¬ isSpace c := by
  simp only [isWord, isSpace, Bool.and_eq_true, Bool.not_eq_true'] at h ⊢
  simp [h.1]

theorem isWord_not_symbol {c : Byte} (h : isWord c) : c ∉ symbols := by
  simp only [isWord, strchr, Bool.and_eq_true, Bool.not_eq_true', ← Bool.not_eq_true,
    List.contains_iff_mem] at h
  exact h.2

theorem Word.cons (w : Word) : ∃ c l, w.text = c :: l ∧ isWord c := by
  obtain ⟨c, l, h⟩ := List.exists_cons_of_ne_nil w.ne
  exact ⟨c, l, h, w.chars c (by rw [h]; exact List.mem_cons_self)⟩

/-- the first token of a line that does not start with a space -/
inductive First : List Byte → List Tok → Prop
  | nil : First [] []
  | single {c : Byte} {t : Tok} {l : List Byte} {ts : List Tok} :
      (c, t) ∈ singles → Lex l ts → First (c :: l) (t :: ts)
  | gt {l : List Byte} {ts : List Tok} :
      l.head? ≠ some (ch '>') → Lex l ts → First (ch '>' :: l) (.op .gt :: ts)
  | app {l : List Byte} {ts : List Tok} : Lex l ts → First (ch '>' :: ch '>' :: l) (.op .app :: ts)
  | word (w : Word) {l : List Byte} {ts : List Tok} :
      (∀ c, l.head? = some c → ¬ isWord c) → Lex l ts → First (w.text ++ l) (.word w :: ts)

theorem First.not_space {l : List Byte} {ts : List Tok} (h : First l ts) {c : Byte}
    (hc : l.head? = some c) : ¬ isSpace c := by
  cases h with
  | nil => cases hc
  | single h =>
    cases hc
    exact (singles_first h).2.1
  | gt => cases hc; decide
  | app => cases hc; decide
  | word w =>
    obtain ⟨d, l, hw, hd⟩ := w.cons
    rw [hw] at hc
    cases hc
    exact isWord_not_space hd

theorem Lex.first {l : List Byte} {ts : List Tok} (h : Lex l ts) :
    First (l.dropWhile isSpace) ts := by
  have hkeep : ∀ {l : List Byte} {ts : List Tok}, First l ts → First (l.dropWhile isSpace) ts := by
    intro l ts h
    cases l with
    | nil => exact h
    | cons c l =>
      rw [List.dropWhile_cons_of_neg (h.not_space rfl)]
      exact h
  induction h with
  | nil => exact .nil
  | space hc _ ih =>
    rw [List.dropWhile_cons_of_pos hc]
    exact ih
  | single h hl => exact hkeep (.single h hl)
  | gt h hl => exact hkeep (.gt h hl)
  | app hl => exact hkeep (.app hl)
  | word w h hl => exact hkeep (.word w h hl)

theorem First.lex {l : List Byte} {ts : List Tok} (h : First l ts) : Lex l ts := by
  cases h with
  | nil => exact .nil
  | single h hl => exact .single h hl
  | gt h hl => exact .gt h hl
  | app hl => exact .app hl
  | word w h hl => exact .word w h hl

theorem exists_lex (l : List Byte) : ∃ ts, Lex l ts := by
  induction hn : l.length using Nat.strong_induction_on generalizing l with
  | _ n ih =>
    subst hn
    cases l with
    | nil => exact ⟨[], .nil⟩
    | cons c l =>
      obtain ⟨ts, hts⟩ := ih l.length (by simp) l rfl
      by_cases hsp : isSpace c
      · exact ⟨ts, .space hsp hts⟩
      by_cases hw : isWord c
      · have hsplit := List.takeWhile_append_dropWhile (p := isWord) (l := l)
        obtain ⟨us, hus⟩ := ih (l.dropWhile isWord).length
          (by rw [List.length_cons]; exact Nat.lt_succ_of_le (List.dropWhile_suffix _).length_le) _ rfl
        have hlex := Lex.word ⟨c :: l.takeWhile isWord, by simp, by
          intro d hd
          rcases List.mem_cons.1 hd with rfl | hd
          · exact hw
          · exact List.mem_takeWhile_imp hd⟩ (l := l.dropWhile isWord) (by
            intro d hd
            have := List.head?_dropWhile_not isWord l
            rw [hd] at this
            simpa using this) hus
        rw [List.cons_append, hsplit] at hlex
        exact ⟨_, hlex⟩
      · have hsym : ∀ c ∈ symbols, c = ch '>' ∨ ∃ p ∈ singles, p.1 = c := by decide
        have hc : c ∈ symbols := by
          simp only [isSpace, isWord, Bool.and_eq_true, Bool.not_eq_true', strchr] at hsp hw
          simp only [List.contains_iff_mem] at hsp
          simpa [hsp] using hw
        rcases hsym c hc with rfl | ⟨⟨_, t⟩, ht, rfl⟩
        · by_cases hl : l.head? = some (ch '>')
          · cases l with
            | nil => cases hl
            | cons d l =>
              cases hl
              obtain ⟨us, hus⟩ := ih l.length (by simp only [List.length_cons]; omega) l rfl
              exact ⟨_, .app hus⟩
          · exact ⟨_, .gt hl hts⟩
        · exact ⟨_, .single ht hts⟩

theorem Lex.length_le {l : List Byte} {ts : List Tok} (h : Lex l ts) : ts.length ≤ l.length := by
  induction h with
  | nil => exact le_rfl
  | word w _ _ ih =>
    have := List.length_pos_iff.2 w.ne
    rw [List.length_cons, List.length_append]
    omega
  | _ => simp only [List.length_cons]; omega

/-! ## The scanner of the source -/

section
variable {line : List Byte}

theorem rd_line {i : ℕ} (h : i ≤ line.length) :
    rd (line ++ [0]) i = .ok ((line.drop i).headD 0) := by
  unfold rd
  rcases Nat.lt_or_ge i line.length with hi | hi
  · rw [List.getElem?_append_left hi, List.getElem?_eq_getElem hi, List.drop_eq_getElem_cons hi]
    rfl
  · obtain rfl : i = line.length := by omega
    simp

theorem scanFor_line (p : Byte → Bool) (n : ℕ) {s : ℕ} (h : s + n = line.length) :
    scanFor p (line ++ [0]) line.length n s = .ok (s + ((line.drop s).takeWhile p).length) := by
  induction n generalizing s with
  | zero =>
    obtain rfl : s = line.length := by omega
    simp [scanFor]
  | succ n ih =>
    have hs : s < line.length := by omega
    rw [scanFor, if_pos hs, rd_line hs.le, ok_bind, List.drop_eq_getElem_cons hs, List.headD_cons]
    by_cases hp : p (line)[s] = true
    · rw [if_pos hp, ih (by omega), List.takeWhile_cons_of_pos hp, List.length_cons]
      congr 1
      omega
    · rw [if_neg hp, List.takeWhile_cons_of_neg hp]
      rfl

theorem scan_line (p : Byte → Bool) {s : ℕ} (h : s ≤ line.length) :
    scan p (line ++ [0]) line.length s = .ok (s + ((line.drop s).takeWhile p).length) :=
  scanFor_line p _ (by omega)

theorem drop_takeWhile (p : Byte → Bool) (s : ℕ) :
    line.drop (s + ((line.drop s).takeWhile p).length) = (line.drop s).dropWhile p := by
  have h := congrArg (List.drop ((line.drop s).takeWhile p).length)
    (List.takeWhile_append_dropWhile (p := p) (l := line.drop s))
  rw [List.drop_left, List.drop_drop] at h
  exact h.symm

theorem scan_spec (p : Byte → Bool) {s : ℕ} (h : s ≤ line.length) :
    ∃ s', scan p (line ++ [0]) line.length s = .ok s' ∧ s' ≤ line.length ∧
      line.drop s' = (line.drop s).dropWhile p ∧
      s' = s + ((line.drop s).takeWhile p).length := by
  refine ⟨_, scan_line p h, ?_, drop_takeWhile p s, rfl⟩
  have := (List.takeWhile_prefix p (l := line.drop s)).length_le
  rw [List.length_drop] at this
  omega

variable (line) in
/-- the tokens from the place `s` on -/
def At (s : ℕ) (ts : List Tok) : Prop := s ≤ line.length ∧ Lex (line.drop s) ts

variable (line) in
/-- `q` and `eq` are the bounds of the word in the line -/
structure Spans (w : ℕ × ℕ) (text : List Byte) : Prop where
  le : w.2 ≤ line.length
  drop : line.drop w.1 = text ++ line.drop w.2
  stop : w.2 = w.1 + text.length
  chars : ∀ c ∈ text, isWord c
  maximal : ∀ c, (line.drop w.2).head? = some c → ¬ isWord c

theorem peek_line (h0 : 0 ∉ line) {s : ℕ} {ts : List Tok} (h : At line s ts) (toks : List Byte) :
    ∃ s', peek (line ++ [0]) line.length s toks = .ok (starts toks ts, s') ∧ At line s' ts ∧
      line.drop s' = (line.drop s).dropWhile isSpace := by
  obtain ⟨s', hs', hle, hdrop, -⟩ := scan_spec isSpace h.1
  have hf := h.2.first
  rw [← hdrop] at hf
  refine ⟨s', ?_, ⟨hle, hf.lex⟩, hdrop⟩
  rw [peek, hs', ok_bind, rd_line hle, ok_bind]
  have hne : ∀ c l, line.drop s' = c :: l → c ≠ 0 := by
    rintro c l hc rfl
    exact h0 (List.mem_of_mem_drop (hc ▸ List.mem_cons_self))
  congr 2
  generalize hl : line.drop s' = l at hf
  cases hf with
  | nil => rfl
  | single ht =>
    rw [List.headD_cons, starts, (singles_first ht).2.2.1, bne_iff_ne.2 (hne _ _ hl), Bool.true_and]
  | gt => rfl
  | app => rfl
  | word w =>
    obtain ⟨c, l', hw, -⟩ := w.cons
    have hc : c ≠ 0 := hne c _ (by rw [hl, hw]; rfl)
    have hfirst : (Tok.word w).first = c := by simp [Tok.first, hw]
    rw [hw, List.cons_append, List.headD_cons, starts, hfirst, bne_iff_ne.2 hc, Bool.true_and]

theorem drop_succ {s : ℕ} {c : Byte} {l : List Byte} (h : line.drop s = c :: l) :
    s < line.length ∧ line.drop (s + 1) = l := by
  have hs : s < line.length := by
    by_contra hs
    rw [List.drop_eq_nil_of_le (by omega)] at h
    cases h
  rw [List.drop_eq_getElem_cons hs] at h
  exact ⟨hs, (List.cons.inj h).2⟩

variable (line) in
/-- the switch of `gettoken` takes the first token off -/
def TokenAt (q : ℕ) : List Tok → Byte × ℕ → Prop
  | [], r => r = (0, q) ∧ At line q []
  | t :: ts, r => r.1 = t.code ∧ At line r.2 ts ∧ ∀ w, t = .word w → Spans line (q, r.2) w.text

theorem token_word (w : Word) {q : ℕ} {l : List Byte} {ts : List Tok} (hl : line.drop q = w.text ++ l)
    (h0 : 0 ∉ line) (hm : ∀ c, l.head? = some c → ¬ isWord c) (hlex : Lex l ts)
    (hq : q ≤ line.length) :
    ∃ r, token (line ++ [0]) line.length q = .ok r ∧ TokenAt line q (.word w :: ts) r := by
  obtain ⟨e, he, hle, hdrop, heq⟩ := scan_spec isWord hq
  have htake : ((line.drop q).takeWhile isWord) = w.text ∧ (line.drop q).dropWhile isWord = l := by
    rw [hl, List.takeWhile_append_of_pos w.chars, List.dropWhile_append_of_pos w.chars]
    cases l with
    | nil => simp
    | cons c l => simp [hm c rfl]
  rw [htake.2] at hdrop
  rw [htake.1] at heq
  refine ⟨(ch 'a', e), ?_, rfl, ⟨hle, hdrop ▸ hlex⟩, ?_⟩
  · obtain ⟨c, l', hw, hc⟩ := w.cons
    have hc0 : c ≠ 0 := by
      rintro rfl
      exact h0 (List.mem_of_mem_drop (i := q) (by rw [hl, hw]; exact List.mem_cons_self))
    have hsym := isWord_not_symbol hc
    have hsub : ∀ d ∈ [ch '|', ch '(', ch ')', ch ';', ch '&', ch '<'], d ∈ symbols := by decide
    have hgt : c ≠ ch '>' := by
      rintro rfl
      exact hsym (by decide)
    rw [token, rd_line hq, ok_bind, hl, hw, List.cons_append, List.headD_cons, if_neg hc0,
      if_neg (fun h => hsym (hsub c h)), if_neg hgt, he, ok_bind]
  · rintro _ ⟨⟩
    exact ⟨hle, by rw [hl, hdrop], heq, w.chars, by rw [hdrop]; exact hm⟩

theorem token_line (h0 : 0 ∉ line) {q : ℕ} {ts : List Tok} (hq : q ≤ line.length)
    (h : First (line.drop q) ts) :
    ∃ r, token (line ++ [0]) line.length q = .ok r ∧ TokenAt line q ts r := by
  generalize hl : line.drop q = l at h
  cases h with
  | nil =>
    refine ⟨(0, q), ?_, rfl, hq, hl ▸ .nil⟩
    rw [token, rd_line hq, ok_bind, hl]
    rfl
  | @single c t l ts ht hlex =>
    obtain ⟨hlt, hd⟩ := drop_succ hl
    obtain ⟨hmem, -, -, hcode⟩ := singles_first ht
    have hc0 : c ≠ 0 := by
      rintro rfl
      exact absurd hmem (by decide)
    refine ⟨(c, q + 1), ?_, hcode.symm, ⟨hlt, hd ▸ hlex⟩, ?_⟩
    · rw [token, rd_line hq, ok_bind, hl, List.headD_cons, if_neg hc0, if_pos hmem]
    · rintro w rfl
      exact absurd ht (by simp [singles])
  | @gt l ts hne hlex =>
    obtain ⟨hlt, hd⟩ := drop_succ hl
    have hd0 : l.headD 0 ≠ ch '>' := by
      cases l with
      | nil => decide
      | cons d l =>
        rintro rfl
        exact hne rfl
    refine ⟨(ch '>', q + 1), ?_, rfl, ⟨hlt, hd ▸ hlex⟩, by simp⟩
    rw [token, rd_line hq, ok_bind, hl, List.headD_cons, if_neg (by decide), if_neg (by decide),
      if_pos rfl, rd_line (i := q + 1) hlt, ok_bind, hd, if_neg hd0]
  | @app l ts hlex =>
    obtain ⟨hlt, hd⟩ := drop_succ hl
    obtain ⟨hlt', hd'⟩ := drop_succ hd
    refine ⟨(ch '+', q + 2), ?_, rfl, ⟨hlt', hd' ▸ hlex⟩, by simp⟩
    rw [token, rd_line hq, ok_bind, hl, List.headD_cons, if_neg (by decide), if_neg (by decide),
      if_pos rfl, rd_line (i := q + 1) hlt, ok_bind, hd, List.headD_cons, if_pos rfl]
  | word w hm hlex => exact token_word w hl h0 hm hlex hq

theorem At.skip {s : ℕ} {ts : List Tok} (h : At line s ts) :
    ∃ s', scan isSpace (line ++ [0]) line.length s = .ok s' ∧ At line s' ts ∧
      First (line.drop s') ts := by
  obtain ⟨s', hs', hle, hdrop, -⟩ := scan_spec isSpace h.1
  have hf := h.2.first
  rw [← hdrop] at hf
  exact ⟨s', hs', ⟨hle, hf.lex⟩, hf⟩

/-- **the scanner of the source gives the tokens of its line** -/
theorem pointers_scans (h0 : 0 ∉ line) :
    Scans (At line) (Spans line) (pointers (line ++ [0]) line.length) tokens where
  peek {s ts} h toks := by
    obtain ⟨s', hs', h', -⟩ := peek_line h0 h toks
    show Sim _ (peek (line ++ [0]) line.length s toks) _
    rw [hs']
    exact ⟨rfl, h'⟩
  gettoken {s ts} h := by
    obtain ⟨q, hq, hat, hf⟩ := h.skip
    obtain ⟨⟨ret, e⟩, hr, htok⟩ := token_line h0 hat.1 hf
    show Sim _ (gettoken (line ++ [0]) line.length s) _
    rw [gettoken, bind_ok hq, bind_ok hr]
    cases ts with
    | nil =>
      obtain ⟨⟨⟩, hat'⟩ := htok
      obtain ⟨s', hs', h', -⟩ := hat'.skip
      show Sim _ (scan isSpace _ _ q >>= _) _
      rw [bind_ok hs']
      exact ⟨rfl, fun h => absurd (show (0 : Byte) = ch 'a' from h) (by decide), h'⟩
    | cons t ts =>
      obtain ⟨hcode, hat', hspan⟩ := htok
      obtain ⟨s', hs', h', -⟩ := hat'.skip
      show Sim _ (scan isSpace _ _ e >>= _) _
      rw [bind_ok hs']
      refine ⟨hcode, ?_, h'⟩
      intro ha
      obtain ⟨w, rfl⟩ := Tok.word_of_code (hcode ▸ ha)
      exact hspan w rfl

end

/-! ## The NULs after the words -/

/-- the words of a command, in the order in which they are ended -/
def Cmd.words {ω : Type} : Cmd ω → List ω
  | .exec argv => argv
  | .redir c f _ _ => c.words ++ [f]
  | .pipe l r => l.words ++ r.words
  | .list l r => l.words ++ r.words
  | .back c => c.words

theorem Cmd.Rel.words {ω ω' : Type} {W : ω → ω' → Prop} {c : Cmd ω} {c' : Cmd ω'}
    (h : Cmd.Rel W c c') : ∀ w ∈ c.words, ∃ w', W w w' := by
  induction h with
  | exec h =>
    intro w hw
    obtain ⟨i, hi, rfl⟩ := List.getElem_of_mem hw
    exact ⟨_, h.get hi (h.length_eq ▸ hi)⟩
  | redir mode fd _ hf ih =>
    intro w hw
    rcases List.mem_append.1 hw with hw | hw
    · exact ih w hw
    · rw [List.mem_singleton.1 hw]
      exact ⟨_, hf⟩
  | pipe _ _ ih ih' => exact fun w hw => (List.mem_append.1 hw).elim (ih w) (ih' w)
  | list _ _ ih ih' => exact fun w hw => (List.mem_append.1 hw).elim (ih w) (ih' w)
  | back _ ih => exact ih

theorem Cmd.Rel.map {ω ω' : Type} {W : ω → ω' → Prop} {c : Cmd ω} {c' : Cmd ω'}
    (h : Cmd.Rel W c c') {f : ω → ω'} (hf : ∀ w ∈ c.words, ∀ w', W w w' → f w = w') :
    c.map f = c' := by
  induction h with
  | exec h =>
    refine congrArg Cmd.exec ?_
    induction h with
    | nil => rfl
    | @cons w w' ws ws' hw _ ih =>
      rw [List.map_cons, hf w List.mem_cons_self w' hw,
        ih fun v hv => hf v (List.mem_cons_of_mem w hv)]
  | redir mode fd _ hw ih =>
    rw [Cmd.map, ih fun w hm => hf w (List.mem_append_left _ hm),
      hf _ (List.mem_append_right _ (List.mem_singleton_self _)) _ hw]
  | pipe _ _ ih ih' =>
    rw [Cmd.map, ih fun w hm => hf w (List.mem_append_left _ hm),
      ih' fun w hm => hf w (List.mem_append_right _ hm)]
  | list _ _ ih ih' =>
    rw [Cmd.map, ih fun w hm => hf w (List.mem_append_left _ hm),
      ih' fun w hm => hf w (List.mem_append_right _ hm)]
  | back _ ih => rw [Cmd.map, ih hf]

/-- the line with a NUL at the end of each of the words -/
def puts (buf : List Byte) (ws : List (ℕ × ℕ)) : List Byte := ws.foldl (fun b w => b.set w.2 0) buf

theorem puts_append (buf : List Byte) (ws ws' : List (ℕ × ℕ)) :
    puts buf (ws ++ ws') = puts (puts buf ws) ws' := List.foldl_append

theorem length_puts (buf : List Byte) (ws : List (ℕ × ℕ)) : (puts buf ws).length = buf.length := by
  induction ws generalizing buf with
  | nil => rfl
  | cons w ws ih => exact (ih _).trans (List.length_set ..)

theorem puts_keeps (buf : List Byte) {ws : List (ℕ × ℕ)} {i : ℕ} (h : ∀ w ∈ ws, w.2 ≠ i) :
    (puts buf ws)[i]? = buf[i]? := by
  induction ws generalizing buf with
  | nil => rfl
  | cons w ws ih =>
    refine (ih _ fun v hv => h v (List.mem_cons_of_mem w hv)).trans ?_
    exact List.getElem?_set_ne (h w List.mem_cons_self)

theorem puts_ends (buf : List Byte) {ws : List (ℕ × ℕ)} {i : ℕ} (hw : ∃ w ∈ ws, w.2 = i)
    (h : i < buf.length) : (puts buf ws)[i]? = some 0 := by
  induction ws generalizing buf with
  | nil =>
    obtain ⟨w, hw, -⟩ := hw
    cases hw
  | cons v ws ih =>
    show (puts (buf.set v.2 0) ws)[i]? = some 0
    by_cases hmem : ∃ w ∈ ws, w.2 = i
    · exact ih _ hmem (by rwa [List.length_set])
    · obtain ⟨w, hw, rfl⟩ := hw
      have hv : w = v := by
        rcases List.mem_cons.1 hw with hv | hw
        · exact hv
        · exact absurd ⟨w, hw, rfl⟩ hmem
      rw [puts_keeps _ fun u hu he => hmem ⟨u, hu, he⟩, ← hv, List.getElem?_set_self h]

theorem putNul_eq {buf : List Byte} {i : ℕ} (h : i < buf.length) :
    putNul buf i = .ok (buf.set i 0) := if_pos h

theorem nulterminate_exec (ws : List (ℕ × ℕ)) (buf : List Byte) (h : ∀ w ∈ ws, w.2 < buf.length) :
    ws.foldlM (fun buf w => putNul buf w.2) buf = .ok (puts buf ws) := by
  induction ws generalizing buf with
  | nil => rfl
  | cons w ws ih =>
    rw [List.foldlM_cons, putNul_eq (h w List.mem_cons_self), ok_bind]
    exact ih _ fun v hv => by
      rw [List.length_set]
      exact h v (List.mem_cons_of_mem w hv)

theorem nulterminate_puts (cmd : Cmd (ℕ × ℕ)) (buf : List Byte)
    (h : ∀ w ∈ cmd.words, w.2 < buf.length) : nulterminate cmd buf = .ok (puts buf cmd.words) := by
  have hboth : ∀ (l r : Cmd (ℕ × ℕ)) (buf : List Byte),
      (∀ buf, (∀ w ∈ l.words, w.2 < buf.length) → nulterminate l buf = .ok (puts buf l.words)) →
      (∀ buf, (∀ w ∈ r.words, w.2 < buf.length) → nulterminate r buf = .ok (puts buf r.words)) →
      (∀ w ∈ l.words ++ r.words, w.2 < buf.length) →
      (nulterminate l buf >>= fun buf => nulterminate r buf) =
        .ok (puts buf (l.words ++ r.words)) := by
    intro l r buf hl hr h
    rw [bind_ok (hl buf fun w hw => h w (List.mem_append_left _ hw)), puts_append]
    refine hr _ fun w hw => ?_
    rw [length_puts]
    exact h w (List.mem_append_right _ hw)
  induction cmd generalizing buf with
  | exec argv => exact nulterminate_exec argv buf h
  | redir c f mode fd ih =>
    have hc : ∀ w ∈ c.words, w.2 < buf.length := fun w hw => h w (List.mem_append_left _ hw)
    have hf : f.2 < buf.length := h f (List.mem_append_right _ (List.mem_singleton_self _))
    rw [nulterminate, bind_ok (ih buf hc), putNul_eq (by rw [length_puts]; exact hf)]
    rw [Cmd.words, puts_append]
    rfl
  | pipe l r ihl ihr => exact hboth l r buf ihl ihr h
  | list l r ihl ihr => exact hboth l r buf ihl ihr h
  | back c ih => exact ih buf h

theorem takeWhile_text {l t : List Byte} (h : ∀ i < t.length, l[i]? = t[i]?)
    (hend : l[t.length]? = some 0) (h0 : 0 ∉ t) : l.takeWhile (· != 0) = t := by
  induction t generalizing l with
  | nil =>
    cases l with
    | nil => rfl
    | cons c l =>
      obtain rfl : c = 0 := by simpa using hend
      rfl
  | cons d t ih =>
    cases l with
    | nil => cases h 0 (by simp)
    | cons c l =>
      obtain rfl : c = d := by simpa using h 0 (by simp)
      simp only [List.mem_cons, not_or] at h0
      rw [List.takeWhile_cons_of_pos (by simpa using Ne.symm h0.1)]
      rw [ih (fun i hi => by simpa using h (i + 1) (by simpa using hi)) (by simpa using hend) h0.2]

section
variable {line : List Byte}

theorem Spans.get {w : ℕ × ℕ} {text : List Byte} (h : Spans line w text) {i : ℕ}
    (hi : i < text.length) : (line)[w.1 + i]? = text[i]? := by
  rw [← List.getElem?_drop, h.drop, List.getElem?_append_left hi]

theorem Spans.ends {w v : ℕ × ℕ} {text text' : List Byte} (h : Spans line w text)
    (hv : Spans line v text') {i : ℕ} (hi : i < text.length) : v.2 ≠ w.1 + i := by
  intro he
  have hget := h.get hi
  rw [List.getElem?_eq_getElem hi, ← he] at hget
  refine hv.maximal (text[i]) ?_ (h.chars _ (List.getElem_mem hi))
  rw [List.head?_drop, hget]

theorem Spans.cstr {ws : List (ℕ × ℕ)} (hws : ∀ v ∈ ws, ∃ t, Spans line v t) (h0 : 0 ∉ line)
    {w : ℕ × ℕ} (hw : w ∈ ws) {text : List Byte} (h : Spans line w text) :
    cstr (puts (line ++ [0]) ws) w.1 = text := by
  have hlen := congrArg List.length h.drop
  rw [List.length_append, List.length_drop, List.length_drop] at hlen
  have hle := h.le
  have hstop := h.stop
  refine takeWhile_text ?_ ?_ ?_
  · intro i hi
    rw [List.getElem?_drop, puts_keeps, List.getElem?_append_left (by omega), h.get hi]
    intro v hv
    obtain ⟨t, ht⟩ := hws v hv
    exact h.ends ht hi
  · rw [List.getElem?_drop, ← h.stop]
    exact puts_ends _ ⟨w, hw, rfl⟩ (by simp; omega)
  · intro hmem
    refine h0 (List.mem_of_mem_drop (i := w.1) ?_)
    rw [h.drop]
    exact List.mem_append_left _ hmem

/-- **the NULs end every word of the command and damage none** -/
theorem nulterminate_spans (h0 : 0 ∉ line) {cmd : Cmd (ℕ × ℕ)} {c : Cmd (List Byte)}
    (h : Cmd.Rel (Spans line) cmd c) :
    ∃ buf, nulterminate cmd (line ++ [0]) = .ok buf ∧ cmd.strings buf = c := by
  refine ⟨puts (line ++ [0]) cmd.words, nulterminate_puts cmd _ ?_, h.map ?_⟩
  · intro w hw
    obtain ⟨t, ht⟩ := h.words w hw
    have := ht.le
    rw [List.length_append, List.length_singleton]
    omega
  · intro w hw t ht
    exact ht.cstr h.words h0 hw

/-! ## `parsecmd` -/

theorem strlen_line (h0 : 0 ∉ line) : strlen (line ++ [0]) = .ok line.length := by
  induction line with
  | nil => rfl
  | cons c l ih =>
    simp only [List.mem_cons, not_or] at h0
    rw [List.cons_append, strlen, if_neg (Ne.symm h0.1), ih h0.2]
    rfl

/-- the command of a line, by the grammar -/
def Accepts (line : List Byte) (c : Cmd (List Byte)) : Prop :=
  ∃ ts, Lex line ts ∧ Derives .line ts c

theorem At.end_iff {s : ℕ} {ts : List Tok} (h : At line s ts) (hf : First (line.drop s) ts) :
    s = line.length ↔ ts = [] := by
  constructor
  · rintro rfl
    rw [List.drop_length] at hf
    generalize hl : ([] : List Byte) = l at hf
    cases hf with
    | nil => rfl
    | word w =>
      have := congrArg List.length hl
      have := List.length_pos_iff.2 w.ne
      simp at *
      omega
    | _ => cases hl
  · rintro rfl
    generalize hl : line.drop s = l at hf
    cases hf
    have := List.drop_eq_nil_iff.1 hl
    have := h.1
    omega

/-- the rest of `parsecmd`, when `parseline` has left the tokens `rest` -/
theorem parsecmd_rest (h0 : 0 ∉ line) {fuel s : ℕ} {cmd : Cmd (ℕ × ℕ)} {c : Cmd (List Byte)}
    {rest : List Tok} (hrun : parseline (pointers (line ++ [0]) line.length) fuel 0 = .ok (cmd, s))
    (hc : Cmd.Rel (Spans line) cmd c) (hs : At line s rest) :
    (rest = [] → ∃ buf, parsecmd fuel (line ++ [0]) = .ok (cmd, buf) ∧ cmd.strings buf = c) ∧
    (rest ≠ [] → ∃ t, parsecmd fuel (line ++ [0]) = .error (.leftovers t)) := by
  obtain ⟨s', hpeek, hs', hdrop⟩ := peek_line h0 hs []
  have hf := hs.2.first
  rw [← hdrop] at hf
  rw [parsecmd, strlen_line h0, ok_bind, bind_ok hrun]
  show (rest = [] → ∃ buf, (peek (line ++ [0]) line.length s [] >>= _) = _ ∧ _) ∧
    (rest ≠ [] → ∃ t, (peek (line ++ [0]) line.length s [] >>= _) = _)
  rw [bind_ok hpeek]
  have hend := hs'.end_iff hf
  constructor
  · intro hr
    obtain ⟨buf, hbuf, hstr⟩ := nulterminate_spans h0 hc
    refine ⟨buf, ?_, hstr⟩
    show (if s' ≠ line.length then _ else _) = _
    rw [if_neg (not_not.2 (hend.2 hr)), bind_ok hbuf]
  · intro hr
    refine ⟨cstr (line ++ [0]) s', ?_⟩
    show (if s' ≠ line.length then _ else _) = _
    rw [if_pos fun h => hr (hend.1 h)]

section
variable (h0 : 0 ∉ line) {fuel : ℕ} (hfuel : 4 * line.length + 4 ≤ fuel) {ts : List Tok}
  (hts : Lex line ts)
include h0 hfuel hts

theorem parsecmd_of_derives {c : Cmd (List Byte)} (hc : Derives .line ts c) :
    ∃ cmd buf, parsecmd fuel (line ++ [0]) = .ok (cmd, buf) ∧ cmd.strings buf = c := by
  have hlen := hts.length_le
  have hparse : parseline tokens fuel ts = .ok (c, []) := by
    have h := @Derives.parse _ _ _ hc fuel (by simp only [Nonterm.enough, Nonterm.calls]; omega) []
      (by rintro _ _ ⟨⟩)
    rwa [List.append_nil] at h
  have hsim := ((pointers_scans h0).parse fuel (s := 0) (t := ts) ⟨Nat.zero_le _, hts⟩).1
  rw [hparse] at hsim
  cases hrun : parseline (pointers (line ++ [0]) line.length) fuel 0 with
  | error e =>
    rw [hrun] at hsim
    exact hsim.elim
  | ok r =>
    rw [hrun] at hsim
    obtain ⟨buf, h⟩ := (parsecmd_rest h0 hrun hsim.1 hsim.2).1 rfl
    exact ⟨r.1, buf, h⟩

theorem parsecmd_derives :
    (∃ cmd buf, parsecmd fuel (line ++ [0]) = .ok (cmd, buf) ∧ Derives .line ts (cmd.strings buf)) ∨
    (∃ e, parsecmd fuel (line ++ [0]) = .error e ∧
      ((∃ msg, e = .panic msg) ∨ ∃ s, e = .leftovers s)) := by
  have hlen := hts.length_le
  have hgives := parse_gives fuel .line ts (by simp only [Nonterm.enough, Nonterm.calls]; omega)
  have hsim := ((pointers_scans h0).parse fuel (s := 0) (t := ts) ⟨Nat.zero_le _, hts⟩).1
  change Gives (parseline tokens fuel ts) _ at hgives
  cases hrun : parseline (pointers (line ++ [0]) line.length) fuel 0 with
  | error e =>
    right
    refine ⟨e, by rw [parsecmd, strlen_line h0, ok_bind, hrun]; rfl, .inl ?_⟩
    rw [hrun] at hsim
    cases hparse : parseline tokens fuel ts with
    | error e' =>
      rw [hparse] at hsim hgives
      obtain ⟨msg, rfl⟩ := hgives
      exact ⟨msg, hsim⟩
    | ok r =>
      rw [hparse] at hsim
      exact hsim.elim
  | ok r =>
    rw [hrun] at hsim
    cases hparse : parseline tokens fuel ts with
    | error e =>
      rw [hparse] at hsim
      exact hsim.elim
    | ok r' =>
      rw [hparse] at hsim hgives
      obtain ⟨us, hus, hd⟩ := hgives
      have hrest := parsecmd_rest h0 hrun hsim.1 hsim.2
      by_cases hr : r'.2 = []
      · obtain ⟨buf, hok, hstr⟩ := hrest.1 hr
        rw [hr, List.append_nil] at hus
        exact .inl ⟨r.1, buf, hok, by rw [hstr, hus]; exact hd⟩
      · obtain ⟨t, ht⟩ := hrest.2 hr
        exact .inr ⟨_, ht, .inr ⟨t, rfl⟩⟩

end

end

/-- **`parsecmd` on every NUL-terminated line**: it returns a command, the only one that the grammar
derives from the line, with each word's text at its pointer, or it panics and the grammar derives
none -/
theorem parsecmd_accepts (line : List Byte) (h0 : 0 ∉ line) (fuel : ℕ)
    (hfuel : 4 * line.length + 4 ≤ fuel) :
    (∃ cmd buf, parsecmd fuel (line ++ [0]) = .ok (cmd, buf) ∧
      ∀ c, Accepts line c ↔ c = cmd.strings buf) ∨
    (∃ e, parsecmd fuel (line ++ [0]) = .error e ∧
      ((∃ msg, e = .panic msg) ∨ ∃ s, e = .leftovers s) ∧ ∀ c, ¬ Accepts line c) := by
  obtain ⟨ts, hts⟩ := exists_lex line
  rcases parsecmd_derives h0 hfuel hts with ⟨cmd, buf, hok, hd⟩ | ⟨e, herr, hkind⟩
  · refine .inl ⟨cmd, buf, hok, ?_⟩
    intro c
    constructor
    · rintro ⟨ts', hts', hd'⟩
      obtain ⟨cmd', buf', hok', hstr⟩ := parsecmd_of_derives h0 hfuel hts' hd'
      rw [hok] at hok'
      cases hok'
      exact hstr.symm
    · rintro rfl
      exact ⟨ts, hts, hd⟩
  · refine .inr ⟨e, herr, hkind, ?_⟩
    rintro c ⟨ts', hts', hd'⟩
    obtain ⟨cmd', buf', hok', -⟩ := parsecmd_of_derives h0 hfuel hts' hd'
    rw [herr] at hok'
    cases hok'

/-- `(ls a;b)>o|wc&` -/
def sampleLine : List Byte :=
  ['(', 'l', 's', ' ', 'a', ';', 'b', ')', '>', 'o', '|', 'w', 'c', '&'].map ch

theorem parsecmd_sample : Accepts sampleLine (.back (.pipe
    (.redir (.list (.exec [[ch 'l', ch 's'], [ch 'a']]) (.exec [[ch 'b']])) [ch 'o'] 0x601 1)
    (.exec [[ch 'w', ch 'c']]))) := by
  have hval : (parsecmd 60 (sampleLine ++ [0])).toOption.map (fun r => r.1.strings r.2) =
      some (.back (.pipe (.redir (.list (.exec [[ch 'l', ch 's'], [ch 'a']]) (.exec [[ch 'b']]))
        [ch 'o'] 0x601 1) (.exec [[ch 'w', ch 'c']]))) := by decide +kernel
  rcases parsecmd_accepts sampleLine (by decide) 60 (by decide) with ⟨cmd, buf, h, hc⟩ | ⟨e, h, -⟩
  · rw [h] at hval
    exact (hc _).2 (Option.some.inj hval).symm
  · rw [h] at hval
    cases hval

end Xv6.Sh
