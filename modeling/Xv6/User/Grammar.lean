import Xv6.User.Parse

/-!
# The shell's grammar, and the parser on tokens

* `Lex line ts`   the line cut into tokens, with maximal munch, spaces between them dropped;
* `Derives N ts c`   the tokens derived from the nonterminal, with the command they stand for;
* `Gives x Q`   a parser routine returns with `Q`, or panics; it does not run out of fuel;
* `tokens`   the parser's scanner on a list of tokens;
* `parse_gives`   what the parser takes is derived from its nonterminal;
* `Derives.parse`   what is derived, before a token that may follow, is taken as a whole.
-/

namespace Xv6.Sh
open FileSys (O_RDONLY O_WRONLY O_CREATE O_TRUNC)

/-! ## Tokens -/

/-- the operators of a redirection: `<`, `>` and `>>` -/
inductive Op
  | lt
  | gt
  | app
deriving DecidableEq

structure Word where
  text : List Byte
  ne : text ≠ []
  chars : ∀ c ∈ text, isWord c
deriving DecidableEq

inductive Tok
  | pipe
  | lparen
  | rparen
  | semi
  | amp
  | op (o : Op)
  | word (w : Word)
deriving DecidableEq

/-- the symbols that are tokens by themselves, whatever stands after them -/
def singles : List (Byte × Tok) :=
  [(ch '|', .pipe), (ch '(', .lparen), (ch ')', .rparen), (ch ';', .semi), (ch '&', .amp),
    (ch '<', .op .lt)]

/-- **the tokens of a line** -/
inductive Lex : List Byte → List Tok → Prop
  | nil : Lex [] []
  | space {c : Byte} {l : List Byte} {ts : List Tok} : isSpace c → Lex l ts → Lex (c :: l) ts
  | single {c : Byte} {t : Tok} {l : List Byte} {ts : List Tok} :
      (c, t) ∈ singles → Lex l ts → Lex (c :: l) (t :: ts)
  | gt {l : List Byte} {ts : List Tok} :
      l.head? ≠ some (ch '>') → Lex l ts → Lex (ch '>' :: l) (.op .gt :: ts)
  | app {l : List Byte} {ts : List Tok} : Lex l ts → Lex (ch '>' :: ch '>' :: l) (.op .app :: ts)
  | word (w : Word) {l : List Byte} {ts : List Tok} :
      (∀ c, l.head? = some c → ¬ isWord c) → Lex l ts → Lex (w.text ++ l) (.word w :: ts)

/-! ## The grammar -/

def Op.mode : Op → BitVec 32
  | .lt => O_RDONLY
  | .gt => O_WRONLY ||| O_CREATE ||| O_TRUNC
  | .app => O_WRONLY ||| O_CREATE

def Op.fd : Op → ℕ
  | .lt => 0
  | _ => 1

/-- the command under its redirections, the first one innermost -/
def Cmd.redirs {ω : Type} (c : Cmd ω) (rs : List (Op × ω)) : Cmd ω :=
  rs.foldl (fun c r => .redir c r.2 r.1.mode r.1.fd) c

theorem Cmd.redirs_append {ω : Type} (c : Cmd ω) (rs rs' : List (Op × ω)) :
    (c.redirs rs).redirs rs' = c.redirs (rs ++ rs') := by
  rw [Cmd.redirs, Cmd.redirs, Cmd.redirs, List.foldl_append]

theorem Cmd.pushArg_redirs {ω : Type} (w : ω) (c : Cmd ω) (rs : List (Op × ω)) :
    (c.redirs rs).pushArg w = (c.pushArg w).redirs rs := by
  induction rs generalizing c with
  | nil => rfl
  | cons r rs ih => exact ih _

/-- `redir*`, where `redir ::= ('<' | '>' | '>>') word` -/
inductive Redirs : List Tok → List (Op × List Byte) → Prop
  | nil : Redirs [] []
  | cons (o : Op) (w : Word) {ts : List Tok} {rs : List (Op × List Byte)} :
      Redirs ts rs → Redirs (.op o :: .word w :: ts) ((o, w.text) :: rs)

/-- `(word redir*)*` -/
inductive Args : List Tok → List (List Byte) → List (Op × List Byte) → Prop
  | nil : Args [] [] []
  | cons (w : Word) {ts us : List Tok} {rs rs' : List (Op × List Byte)} {ws : List (List Byte)} :
      Redirs ts rs → Args us ws rs' → Args (.word w :: ts ++ us) (w.text :: ws) (rs ++ rs')

inductive Nonterm
  | line
  | pipe
  | exec

/-- **the grammar**:
`line ::= pipe '&'* [';' line]`, `pipe ::= exec ['|' pipe]`,
`exec ::= '(' line ')' redir* | redir* (word redir*)*` with fewer than `MAXARGS` words -/
inductive Derives : Nonterm → List Tok → Cmd (List Byte) → Prop
  | line (k : ℕ) {ts : List Tok} {c : Cmd (List Byte)} :
      Derives .pipe ts c → Derives .line (ts ++ List.replicate k .amp) (Cmd.back^[k] c)
  | seq (k : ℕ) {ts us : List Tok} {c d : Cmd (List Byte)} :
      Derives .pipe ts c → Derives .line us d →
      Derives .line (ts ++ List.replicate k .amp ++ .semi :: us) (.list (Cmd.back^[k] c) d)
  | exec {ts : List Tok} {c : Cmd (List Byte)} : Derives .exec ts c → Derives .pipe ts c
  | pipe {ts us : List Tok} {c d : Cmd (List Byte)} :
      Derives .exec ts c → Derives .pipe us d → Derives .pipe (ts ++ .pipe :: us) (.pipe c d)
  | block {ts us : List Tok} {c : Cmd (List Byte)} {rs : List (Op × List Byte)} :
      Derives .line ts c → Redirs us rs →
      Derives .exec (.lparen :: ts ++ .rparen :: us) (c.redirs rs)
  | simple {ts us : List Tok} {ws : List (List Byte)} {rs rs' : List (Op × List Byte)} :
      Redirs ts rs → Args us ws rs' → ws.length < MAXARGS →
      Derives .exec (ts ++ us) ((Cmd.exec ws).redirs (rs ++ rs'))

/-! ## Routines that return or panic -/

section
variable {α β : Type}

/-- the routine returns with `Q`, or it panics -/
def Gives (x : Except Halt α) (Q : α → Prop) : Prop :=
  match x with
  | .ok a => Q a
  | .error e => ∃ msg, e = .panic msg

theorem Gives.bind {x : Except Halt α} {f : α → Except Halt β} {P : α → Prop} {Q : β → Prop}
    (hx : Gives x P) (hf : ∀ a, P a → Gives (f a) Q) : Gives (x >>= f) Q := by
  cases x with
  | error e => exact hx
  | ok a => exact hf a hx

theorem Gives.panic {Q : α → Prop} (msg : String) :
    Gives (.error (.panic msg)) Q := ⟨msg, rfl⟩

theorem Gives.mono {x : Except Halt α} {P Q : α → Prop} (hx : Gives x P)
    (h : ∀ a, P a → Q a) : Gives x Q := by
  cases x with
  | error e => exact hx
  | ok a => exact h a hx

theorem ok_bind (a : α) (f : α → Except Halt β) : (Except.ok a >>= f) = f a := rfl

theorem bind_ok {x : Except Halt α} {a : α} (h : x = .ok a) (f : α → Except Halt β) :
    (x >>= f) = f a := by rw [h, ok_bind]

end

/-! ## The scanner on tokens -/

/-- the first character of a token -/
def Tok.first : Tok → Byte
  | .pipe => ch '|'
  | .lparen => ch '('
  | .rparen => ch ')'
  | .semi => ch ';'
  | .amp => ch '&'
  | .op .lt => ch '<'
  | .op _ => ch '>'
  | .word w => w.text.head w.ne

def Op.code : Op → Byte
  | .lt => ch '<'
  | .gt => ch '>'
  | .app => ch '+'

/-- what `gettoken` returns for the token -/
def Tok.code : Tok → Byte
  | .op o => o.code
  | .word _ => ch 'a'
  | t => t.first

def Tok.text : Tok → List Byte
  | .word w => w.text
  | _ => []

/-- the list starts with a token whose first character is one of `toks` -/
def starts (toks : List Byte) : List Tok → Bool
  | [] => false
  | t :: _ => strchr toks t.first

def tokens : Scanner (List Tok) (List Byte) where
  peek ts toks := .ok (starts toks ts, ts)
  gettoken
    | [] => .ok (0, [], [])
    | t :: ts => .ok (t.code, t.text, ts)

theorem Word.first_not_symbol (w : Word) : ¬ strchr symbols (Tok.word w).first := by
  have h := w.chars _ (List.head_mem w.ne)
  simp only [isWord, Bool.and_eq_true, Bool.not_eq_true'] at h
  simp [Tok.first, h.2]

theorem Word.not_starts (w : Word) (ts : List Tok) {toks : List Byte}
    (h : ∀ c ∈ toks, c ∈ symbols) : starts toks (.word w :: ts) = false := by
  have hs := w.first_not_symbol
  simp only [strchr, List.contains_iff_mem] at hs
  simp only [starts, strchr]
  rw [Bool.eq_false_iff]
  intro hc
  exact hs (h _ (List.contains_iff_mem.1 hc))

theorem Tok.word_of_code {t : Tok} (h : t.code = ch 'a') : ∃ w, t = .word w := by
  cases t with
  | word w => exact ⟨w, rfl⟩
  | op o => cases o <;> exact absurd h (by decide)
  | _ => exact absurd h (by decide)

theorem redircmd_code {ω : Type} (o : Op) (c : Cmd ω) (f : ω) :
    redircmd o.code c f = .redir c f o.mode o.fd := by
  cases o <;> rfl

/-- which lists start with one of a few symbols, from the tokens that do -/
theorem starts_iff {toks : List Byte} {ts : List Tok} (P : Tok → Prop)
    (hs : ∀ c ∈ toks, c ∈ symbols) (hw : ∀ w, ¬ P (.word w))
    (h : ∀ t, (∀ w, t ≠ .word w) → (strchr toks t.first = true ↔ P t)) :
    starts toks ts = true ↔ ∃ t us, ts = t :: us ∧ P t := by
  cases ts with
  | nil => simp [starts]
  | cons t us =>
    have ht : starts toks (t :: us) = true ↔ P t := by
      cases t with
      | word w => simp [w.not_starts us hs, hw w]
      | _ => exact h _ (by simp)
    rw [ht]
    constructor
    · intro hp
      exact ⟨t, us, rfl, hp⟩
    · rintro ⟨t', us', heq, hp⟩
      cases heq
      exact hp

theorem starts_one {c : Byte} {t : Tok} {ts : List Tok} (hc : (c, t) ∈ singles)
    (ho : t ≠ .op .lt) : starts [c] ts = true ↔ ∃ us, ts = t :: us := by
  have h : c ∈ symbols ∧ (∀ w, Tok.word w ≠ t) ∧
      ∀ t', (∀ w, t' ≠ .word w) → (strchr [c] t'.first = true ↔ t' = t) := by
    simp only [singles, List.mem_cons, List.not_mem_nil, or_false, Prod.mk.injEq] at hc
    rcases hc with ⟨rfl, rfl⟩ | ⟨rfl, rfl⟩ | ⟨rfl, rfl⟩ | ⟨rfl, rfl⟩ | ⟨rfl, rfl⟩ | ⟨rfl, rfl⟩
    case inr.inr.inr.inr.inr => exact absurd rfl ho
    all_goals
      refine ⟨by decide, by simp, ?_⟩
      intro t' hw
      cases t' with
      | word w => exact absurd rfl (hw w)
      | op o => cases o <;> decide
      | _ => decide
  rw [starts_iff (· = t) (by simpa using h.1) h.2.1 h.2.2]
  simp

theorem starts_redir {ts : List Tok} :
    starts [ch '<', ch '>'] ts = true ↔ ∃ o us, ts = .op o :: us := by
  rw [starts_iff (fun t => ∃ o, t = .op o) (by decide) (by simp)]
  · constructor
    · rintro ⟨_, us, rfl, o, rfl⟩
      exact ⟨o, us, rfl⟩
    · rintro ⟨o, us, rfl⟩
      exact ⟨_, us, rfl, o, rfl⟩
  · intro t hw
    cases t with
    | word w => exact absurd rfl (hw w)
    | op o => cases o <;> simp [strchr, Tok.first]
    | _ => simp [strchr, Tok.first]; decide

/-- the tokens that end the words of a command -/
def Tok.stops (t : Tok) : Prop := t ∈ [Tok.pipe, .rparen, .amp, .semi]

/-! ## The parser takes what the grammar derives -/

theorem parseredirs_gives (n : ℕ) (c : Cmd (List Byte)) (ts : List Tok) (hn : ts.length < n) :
    Gives (parseredirs tokens n c ts) fun r =>
      ∃ us rs, ts = us ++ r.2 ∧ Redirs us rs ∧ r.1 = c.redirs rs := by
  induction n generalizing c ts with
  | zero => omega
  | succ n ih =>
    rw [parseredirs]
    show Gives (if starts _ ts = true then _ else _) _
    by_cases hs : starts [ch '<', ch '>'] ts = true
    · rw [if_pos hs]
      obtain ⟨o, us, rfl⟩ := starts_redir.1 hs
      show Gives (do
        let (t, file, ps) ← tokens.gettoken us
        _) _
      cases us with
      | nil => exact .panic _
      | cons t us =>
        show Gives (if t.code ≠ ch 'a' then _ else _) _
        by_cases ht : t.code = ch 'a'
        · rw [if_neg (not_not.2 ht)]
          obtain ⟨w, rfl⟩ := Tok.word_of_code ht
          refine (ih _ us (by simp at hn; omega)).mono ?_
          rintro r ⟨us', rs, rfl, hr, h1⟩
          refine ⟨.op o :: .word w :: us', (o, w.text) :: rs, rfl, .cons o w hr, ?_⟩
          rw [h1]
          show (redircmd o.code c w.text).redirs rs = _
          rw [redircmd_code]
          rfl
        · rw [if_pos ht]
          exact .panic _
    · rw [if_neg hs]
      exact ⟨[], [], rfl, .nil, rfl⟩

theorem parseargs_gives (n : ℕ) (ws : List (List Byte)) (rs : List (Op × List Byte))
    (ts : List Tok) (hn : ts.length < n) (hws : ws.length < MAXARGS) :
    Gives (parseargs tokens n ((Cmd.exec ws).redirs rs) ws.length ts) fun r =>
      ∃ us ws' rs', ts = us ++ r.2 ∧ Args us ws' rs' ∧ (ws ++ ws').length < MAXARGS ∧
        r.1 = (Cmd.exec (ws ++ ws')).redirs (rs ++ rs') := by
  induction n generalizing ws rs ts with
  | zero => omega
  | succ n ih =>
    have hdone : ∃ us ws' rs', ts = us ++ ts ∧ Args us ws' rs' ∧ (ws ++ ws').length < MAXARGS ∧
        (Cmd.exec ws).redirs rs = (Cmd.exec (ws ++ ws')).redirs (rs ++ rs') :=
      ⟨[], [], [], rfl, .nil, by simpa using hws, by simp⟩
    rw [parseargs]
    show Gives (if starts _ ts = true then _ else _) _
    by_cases hs : starts [ch '|', ch ')', ch '&', ch ';'] ts = true
    · rw [if_pos hs]
      exact hdone
    · rw [if_neg hs]
      cases ts with
      | nil => exact hdone
      | cons t ts =>
        show Gives (if t.code = 0 then _ else if t.code ≠ ch 'a' then _ else
          if ws.length + 1 ≥ MAXARGS then _ else _) _
        by_cases ht : t.code = ch 'a'
        · obtain ⟨w, rfl⟩ := Tok.word_of_code ht
          rw [if_neg (by rw [ht]; decide), if_neg (not_not.2 ht)]
          by_cases ha : ws.length + 1 ≥ MAXARGS
          · rw [if_pos ha]
            exact .panic _
          · rw [if_neg ha]
            have hlen : ts.length < n := by simpa using hn
            refine (parseredirs_gives n _ ts hlen).bind ?_
            rintro ⟨_, ps⟩ ⟨us, rs', rfl, hr, rfl⟩
            have hpush : (((Cmd.exec ws).redirs rs).pushArg w.text).redirs rs' =
                (Cmd.exec (ws ++ [w.text])).redirs (rs ++ rs') := by
              rw [Cmd.pushArg_redirs, Cmd.redirs_append]
              rfl
            have hps : ps.length < n := by
              simp only [List.length_append] at hlen
              omega
            have hih := ih (ws ++ [w.text]) (rs ++ rs') ps hps (by simp; omega)
            rw [List.length_append, List.length_singleton] at hih
            show Gives (parseargs tokens n ((((Cmd.exec ws).redirs rs).pushArg w.text).redirs rs')
              (ws.length + 1) ps) _
            rw [hpush]
            refine hih.mono ?_
            rintro r ⟨us', ws', rs'', rfl, harg, hlt, h1⟩
            refine ⟨.word w :: us ++ us', w.text :: ws', rs' ++ rs'', by simp, .cons w hr harg, ?_,
              ?_⟩
            · simpa using hlt
            · simpa using h1
        · have h0 : t.code ≠ 0 := by
            cases t with
            | op o => cases o <;> decide
            | _ => first | decide | exact absurd rfl ht
          rw [if_neg h0, if_pos ht]
          exact .panic _

theorem parseback_gives (n : ℕ) (c : Cmd (List Byte)) (ts : List Tok) (hn : ts.length < n) :
    Gives (parseback tokens n c ts) fun r =>
      ∃ k, ts = List.replicate k .amp ++ r.2 ∧ r.1 = Cmd.back^[k] c := by
  induction n generalizing c ts with
  | zero => omega
  | succ n ih =>
    rw [parseback]
    show Gives (if starts _ ts = true then _ else _) _
    by_cases hs : starts [ch '&'] ts = true
    · rw [if_pos hs]
      obtain ⟨us, rfl⟩ := (starts_one (t := .amp) (by decide) (by decide)).1 hs
      refine (ih (.back c) us (by simpa using hn)).mono ?_
      rintro r ⟨k, rfl, h1⟩
      exact ⟨k + 1, rfl, h1⟩
    · rw [if_neg hs]
      exact ⟨0, rfl, rfl⟩

def Nonterm.parse {σ ω : Type} (inp : Scanner σ ω) :
    Nonterm → ℕ → σ → Except Halt (Cmd ω × σ)
  | .line => parseline inp
  | .pipe => parsepipe inp
  | .exec => parseexec inp

/-- a bound on the calls that are made before a token is taken -/
def Nonterm.calls : Nonterm → ℕ
  | .line => 4
  | .pipe => 3
  | .exec => 2

/-- what a routine for the nonterminal takes off the tokens -/
def Takes (N : Nonterm) (ts : List Tok) (r : Cmd (List Byte) × List Tok) : Prop :=
  ∃ us, ts = us ++ r.2 ∧ Derives N us r.1

/-- enough for a routine that starts with `m` tokens, and for those it calls -/
def Nonterm.enough (N : Nonterm) (m : ℕ) : ℕ := 4 * m + N.calls

section
variable {n : ℕ}
  (ih : ∀ m ≤ n, ∀ (N : Nonterm) (ts : List Tok), N.enough ts.length ≤ m →
    Gives (N.parse tokens m ts) (Takes N ts))
include ih

theorem parseline_gives (ts : List Tok) (hn : Nonterm.line.enough ts.length ≤ n + 1) :
    Gives (parseline tokens (n + 1) ts) (Takes .line ts) := by
  rw [parseline]
  simp only [Nonterm.enough, Nonterm.calls] at hn
  refine (ih n le_rfl .pipe ts (by simp only [Nonterm.enough, Nonterm.calls]; omega)).bind ?_
  rintro ⟨c, ps⟩ ⟨us, rfl, hc⟩
  simp only [List.length_append] at hn
  refine (parseback_gives n c ps (by omega)).bind ?_
  rintro ⟨_, ps⟩ ⟨k, rfl, rfl⟩
  show Gives (if starts _ ps = true then _ else _) _
  by_cases hs : starts [ch ';'] ps = true
  · rw [if_pos hs]
    obtain ⟨ps, rfl⟩ := (starts_one (t := .semi) (by decide) (by decide)).1 hs
    simp only [List.length_append, List.length_cons] at hn
    refine (ih n le_rfl .line ps (by simp only [Nonterm.enough, Nonterm.calls]; omega)).bind ?_
    rintro ⟨d, rest⟩ ⟨us', rfl, hd⟩
    exact ⟨us ++ List.replicate k .amp ++ .semi :: us', by simp, .seq k hc hd⟩
  · rw [if_neg hs]
    exact ⟨us ++ List.replicate k .amp, by simp, .line k hc⟩

theorem parsepipe_gives (ts : List Tok) (hn : Nonterm.pipe.enough ts.length ≤ n + 1) :
    Gives (parsepipe tokens (n + 1) ts) (Takes .pipe ts) := by
  rw [parsepipe]
  simp only [Nonterm.enough, Nonterm.calls] at hn
  refine (ih n le_rfl .exec ts (by simp only [Nonterm.enough, Nonterm.calls]; omega)).bind ?_
  rintro ⟨c, ps⟩ ⟨us, rfl, hc⟩
  show Gives (if starts _ ps = true then _ else _) _
  by_cases hs : starts [ch '|'] ps = true
  · rw [if_pos hs]
    obtain ⟨ps, rfl⟩ := (starts_one (t := .pipe) (by decide) (by decide)).1 hs
    simp only [List.length_append, List.length_cons] at hn
    refine (ih n le_rfl .pipe ps (by simp only [Nonterm.enough, Nonterm.calls]; omega)).bind ?_
    rintro ⟨d, rest⟩ ⟨us', rfl, hd⟩
    exact ⟨us ++ .pipe :: us', by simp, .pipe hc hd⟩
  · rw [if_neg hs]
    exact ⟨us, rfl, .exec hc⟩

theorem parseblock_gives (ts : List Tok) (hn : 4 * ts.length + 5 ≤ n + 1) :
    Gives (parseblock tokens (n + 1) (.lparen :: ts)) (Takes .exec (.lparen :: ts)) := by
  rw [parseblock]
  refine (ih n le_rfl .line ts (by simp only [Nonterm.enough, Nonterm.calls]; omega)).bind ?_
  rintro ⟨c, ps⟩ ⟨us, rfl, hc⟩
  show Gives (if (!starts _ ps) = true then _ else _) _
  by_cases hs : starts [ch ')'] ps = true
  · rw [if_neg (by simp [hs])]
    obtain ⟨ps, rfl⟩ := (starts_one (t := .rparen) (by decide) (by decide)).1 hs
    simp only [List.length_append, List.length_cons] at hn
    refine (parseredirs_gives n c ps (by omega)).mono ?_
    rintro ⟨_, rest⟩ ⟨us', rs, rfl, hr, rfl⟩
    exact ⟨.lparen :: us ++ .rparen :: us', by simp, .block hc hr⟩
  · rw [if_pos (by simpa using hs)]
    exact .panic _

theorem parseexec_gives (ts : List Tok) (hn : Nonterm.exec.enough ts.length ≤ n + 1) :
    Gives (parseexec tokens (n + 1) ts) (Takes .exec ts) := by
  rw [parseexec]
  simp only [Nonterm.enough, Nonterm.calls] at hn
  show Gives (if starts _ ts = true then _ else _) _
  by_cases hs : starts [ch '('] ts = true
  · rw [if_pos hs]
    obtain ⟨us, rfl⟩ := (starts_one (t := .lparen) (by decide) (by decide)).1 hs
    simp only [List.length_cons] at hn
    obtain ⟨n, rfl⟩ : ∃ m, n = m + 1 := ⟨n - 1, by omega⟩
    exact parseblock_gives (fun m hm => ih m (by omega)) us (by omega)
  · rw [if_neg hs]
    refine (parseredirs_gives n _ ts (by omega)).bind ?_
    rintro ⟨_, ps⟩ ⟨us, rs, rfl, hr, rfl⟩
    simp only [List.length_append] at hn
    refine (parseargs_gives n [] rs ps (by omega) (by decide)).mono ?_
    rintro ⟨_, rest⟩ ⟨us', ws, rs', rfl, ha, hws, rfl⟩
    exact ⟨us ++ us', by simp, .simple hr ha hws⟩

end

/-- **the parser, with fuel enough for its tokens, panics or takes tokens that its nonterminal
derives** -/
theorem parse_gives (n : ℕ) (N : Nonterm) (ts : List Tok) (hn : N.enough ts.length ≤ n) :
    Gives (N.parse tokens n ts) (Takes N ts) := by
  induction n using Nat.strong_induction_on generalizing N ts with
  | _ n ih =>
    cases n with
    | zero => cases N <;> simp [Nonterm.enough, Nonterm.calls] at hn
    | succ n =>
      have ih' : ∀ m ≤ n, ∀ (N : Nonterm) (ts : List Tok), N.enough ts.length ≤ m →
          Gives (N.parse tokens m ts) (Takes N ts) := fun m hm N ts h => ih m (by omega) N ts h
      cases N with
      | line => exact parseline_gives ih' ts hn
      | pipe => exact parsepipe_gives ih' ts hn
      | exec => exact parseexec_gives ih' ts hn

/-! ## What the grammar derives, the parser takes -/

/-- the tokens that may stand after the nonterminal -/
def Nonterm.follow : Nonterm → List Tok
  | .line => [.rparen]
  | .pipe => [.rparen, .amp, .semi]
  | .exec => [.rparen, .amp, .semi, .pipe]

def Nonterm.Ends (N : Nonterm) (rest : List Tok) : Prop := ∀ t us, rest = t :: us → t ∈ N.follow

theorem Nonterm.ends_cons {N : Nonterm} {t : Tok} {rest : List Tok} :
    N.Ends (t :: rest) ↔ t ∈ N.follow := by
  constructor
  · intro h
    exact h t rest rfl
  · rintro h _ _ ⟨⟩
    exact h

theorem Nonterm.Ends.mono {N N' : Nonterm} {rest : List Tok} (h : N.Ends rest)
    (hs : ∀ t ∈ N.follow, t ∈ N'.follow) : N'.Ends rest :=
  fun t us ht => hs t (h t us ht)

theorem Nonterm.Ends.not_starts {N : Nonterm} {rest : List Tok} (h : N.Ends rest)
    {toks : List Byte} (hs : ∀ t ∈ N.follow, strchr toks t.first = false) :
    starts toks rest = false := by
  cases rest with
  | nil => rfl
  | cons t us => exact hs t (h t us rfl)

theorem Nonterm.Ends.stops {rest : List Tok} (h : Nonterm.exec.Ends rest) :
    rest = [] ∨ starts [ch '|', ch ')', ch '&', ch ';'] rest = true := by
  cases rest with
  | nil => exact .inl rfl
  | cons t us =>
    have hs : ∀ t ∈ Nonterm.exec.follow, strchr [ch '|', ch ')', ch '&', ch ';'] t.first = true := by
      decide
    exact .inr (hs t (h t us rfl))

theorem Redirs.parseredirs {us : List Tok} {rs : List (Op × List Byte)} (h : Redirs us rs) {n : ℕ}
    (hn : us.length < n) (c : Cmd (List Byte)) {rest : List Tok}
    (hr : starts [ch '<', ch '>'] rest = false) :
    parseredirs tokens n c (us ++ rest) = .ok (c.redirs rs, rest) := by
  induction h generalizing n c with
  | nil =>
    obtain ⟨n, rfl⟩ : ∃ m, n = m + 1 := ⟨n - 1, by simp at hn; omega⟩
    rw [Sh.parseredirs]
    show (if starts _ rest = true then _ else _) = _
    rw [if_neg (by simp [hr])]
    rfl
  | @cons o w ts rs _ ih =>
    simp only [List.length_cons] at hn
    obtain ⟨n, rfl⟩ : ∃ m, n = m + 1 := ⟨n - 1, by omega⟩
    rw [Sh.parseredirs]
    show (if starts _ (.op o :: _) = true then _ else _) = _
    rw [if_pos (starts_redir.2 ⟨o, _, rfl⟩)]
    show Sh.parseredirs tokens n (redircmd o.code c w.text) (ts ++ rest) = _
    rw [redircmd_code]
    exact ih (by omega) _

theorem Args.not_redir {us : List Tok} {ws : List (List Byte)} {rs : List (Op × List Byte)}
    (h : Args us ws rs) {rest : List Tok} (hr : starts [ch '<', ch '>'] rest = false) :
    starts [ch '<', ch '>'] (us ++ rest) = false := by
  cases h with
  | nil => exact hr
  | cons w => exact w.not_starts _ (by decide)

theorem parseargs_word (n : ℕ) (ret : Cmd (List Byte)) (argc : ℕ) (w : Word) (ts : List Tok)
    (h : argc + 1 < MAXARGS) :
    parseargs tokens (n + 1) ret argc (.word w :: ts) =
      (parseredirs tokens n (ret.pushArg w.text) ts >>= fun r =>
        parseargs tokens n r.1 (argc + 1) r.2) := by
  have hs : starts [ch '|', ch ')', ch '&', ch ';'] (.word w :: ts) = false :=
    w.not_starts ts (by decide)
  have ha : ¬ argc + 1 ≥ MAXARGS := by omega
  rw [parseargs]
  simp only [tokens, ok_bind, hs, Bool.false_eq_true, if_false, if_neg ha, Tok.code, Tok.text]
  rfl

theorem Args.parseargs {us : List Tok} {ws : List (List Byte)} {rs : List (Op × List Byte)}
    (h : Args us ws rs) {n : ℕ} (hn : us.length < n) (ws' : List (List Byte))
    (rs' : List (Op × List Byte)) {rest : List Tok} (hr : Nonterm.exec.Ends rest)
    (hws : (ws' ++ ws).length < MAXARGS) :
    parseargs tokens n ((Cmd.exec ws').redirs rs') ws'.length (us ++ rest) =
      .ok ((Cmd.exec (ws' ++ ws)).redirs (rs' ++ rs), rest) := by
  induction h generalizing n ws' rs' with
  | nil =>
    obtain ⟨n, rfl⟩ : ∃ m, n = m + 1 := ⟨n - 1, by simp at hn; omega⟩
    rw [Sh.parseargs, List.append_nil, List.append_nil]
    show (if starts _ rest = true then _ else _) = _
    rcases hr.stops with rfl | hs
    · rfl
    · rw [if_pos hs]
      rfl
  | @cons w ts us rs rs'' ws hrs _ ih =>
    rename_i hargs
    simp only [List.cons_append, List.length_cons, List.length_append] at hn
    obtain ⟨n, rfl⟩ : ∃ m, n = m + 1 := ⟨n - 1, by omega⟩
    simp only [List.length_append, List.length_cons] at hws
    rw [List.cons_append, List.cons_append, List.append_assoc, parseargs_word _ _ _ _ _ (by omega)]
    have hred := hrs.parseredirs (n := n) (by omega)
      (((Cmd.exec ws').redirs rs').pushArg w.text)
      (hargs.not_redir (@Nonterm.Ends.not_starts _ _ hr [ch '<', ch '>'] (by decide)))
    rw [bind_ok hred]
    show Sh.parseargs tokens n ((((Cmd.exec ws').redirs rs').pushArg w.text).redirs rs)
      (ws'.length + 1) (us ++ rest) = _
    rw [Cmd.pushArg_redirs, Cmd.redirs_append]
    have hih := ih (n := n) (by omega) (ws' ++ [w.text]) (rs' ++ rs) (by simp; omega)
    rw [List.length_append, List.length_singleton] at hih
    simpa [Cmd.pushArg] using hih

theorem parseback_takes (k n : ℕ) (c : Cmd (List Byte)) (rest : List Tok) (hn : k < n)
    (hr : starts [ch '&'] rest = false) :
    parseback tokens n c (List.replicate k .amp ++ rest) = .ok (Cmd.back^[k] c, rest) := by
  induction k generalizing n c with
  | zero =>
    obtain ⟨n, rfl⟩ : ∃ m, n = m + 1 := ⟨n - 1, by omega⟩
    rw [parseback]
    show (if starts _ rest = true then _ else _) = _
    rw [if_neg (by simp [hr])]
    rfl
  | succ k ih =>
    obtain ⟨n, rfl⟩ : ∃ m, n = m + 1 := ⟨n - 1, by omega⟩
    rw [parseback]
    exact ih n _ (by omega)

theorem simple_not_block {ts us : List Tok} {ws : List (List Byte)} {rs rs' : List (Op × List Byte)}
    (hr : Redirs ts rs) (ha : Args us ws rs') {rest : List Tok} (hrest : Nonterm.exec.Ends rest) :
    starts [ch '('] (ts ++ us ++ rest) = false := by
  cases hr with
  | nil =>
    cases ha with
    | nil => exact hrest.not_starts (by decide)
    | cons w => exact w.not_starts _ (by decide)
  | cons o w => cases o <;> rfl

theorem parseblock_takes {n : ℕ} {ts us : List Tok} {c : Cmd (List Byte)}
    {rs : List (Op × List Byte)} {rest : List Tok} (hk : us.length < n)
    (hline : parseline tokens n (ts ++ .rparen :: (us ++ rest)) = .ok (c, .rparen :: (us ++ rest)))
    (hr : Redirs us rs) (hrest : starts [ch '<', ch '>'] rest = false) :
    parseblock tokens (n + 1) (.lparen :: (ts ++ .rparen :: (us ++ rest))) =
      .ok (c.redirs rs, rest) := by
  rw [parseblock]
  show (parseline tokens n (ts ++ .rparen :: (us ++ rest)) >>= _) = _
  rw [bind_ok hline]
  exact hr.parseredirs hk c hrest

/-- **what the nonterminal derives is taken by its routine**, before a token that may follow -/
theorem Derives.parse {N : Nonterm} {ts : List Tok} {c : Cmd (List Byte)} (h : Derives N ts c)
    {n : ℕ} (hn : N.enough ts.length ≤ n) {rest : List Tok} (hr : N.Ends rest) :
    N.parse tokens n (ts ++ rest) = .ok (c, rest) := by
  induction h generalizing n rest with
  | @line k ts c _ ih =>
    simp only [Nonterm.enough, Nonterm.calls, List.length_append, List.length_replicate] at hn ih
    obtain ⟨n, rfl⟩ : ∃ m, n = m + 1 := ⟨n - 1, by omega⟩
    show parseline tokens (n + 1) _ = _
    rw [parseline, List.append_assoc]
    have hpipe : parsepipe tokens n (ts ++ (List.replicate k .amp ++ rest)) =
        .ok (c, List.replicate k .amp ++ rest) := by
      refine ih (by omega) ?_
      cases k with
      | zero => exact hr.mono (by decide)
      | succ k => exact Nonterm.ends_cons.2 (by decide)
    rw [bind_ok hpipe]
    show (parseback tokens n c _ >>= _) = _
    rw [bind_ok (parseback_takes k n c rest (by omega) (hr.not_starts (by decide)))]
    show (if starts _ rest = true then _ else _) = _
    rw [if_neg (by simp [@Nonterm.Ends.not_starts _ _ hr [ch ';'] (by decide)])]
  | @seq k ts us c d _ _ ihc ihd =>
    simp only [Nonterm.enough, Nonterm.calls, List.length_append, List.length_replicate,
      List.length_cons] at hn ihc ihd
    obtain ⟨n, rfl⟩ : ∃ m, n = m + 1 := ⟨n - 1, by omega⟩
    show parseline tokens (n + 1) _ = _
    rw [parseline, List.append_assoc, List.append_assoc]
    have hpipe : parsepipe tokens n (ts ++ (List.replicate k .amp ++ (.semi :: us ++ rest))) =
        .ok (c, List.replicate k .amp ++ (.semi :: us ++ rest)) := by
      refine ihc (by omega) ?_
      cases k with
      | zero => exact Nonterm.ends_cons.2 (by decide)
      | succ k => exact Nonterm.ends_cons.2 (by decide)
    rw [bind_ok hpipe]
    show (parseback tokens n c _ >>= _) = _
    rw [bind_ok (parseback_takes k n c (.semi :: us ++ rest) (by omega) rfl)]
    have hline : parseline tokens n (us ++ rest) = .ok (d, rest) := ihd (by omega) hr
    show (parseline tokens n (us ++ rest) >>= _) = _
    rw [bind_ok hline]
  | @exec ts c _ ih =>
    simp only [Nonterm.enough, Nonterm.calls] at hn ih
    obtain ⟨n, rfl⟩ : ∃ m, n = m + 1 := ⟨n - 1, by omega⟩
    show parsepipe tokens (n + 1) _ = _
    have hexec : parseexec tokens n (ts ++ rest) = .ok (c, rest) :=
      ih (by omega) (hr.mono (by decide))
    rw [parsepipe, bind_ok hexec]
    show (if starts _ rest = true then _ else _) = _
    rw [if_neg (by simp [@Nonterm.Ends.not_starts _ _ hr [ch '|'] (by decide)])]
  | @pipe ts us c d _ _ ihc ihd =>
    simp only [Nonterm.enough, Nonterm.calls, List.length_append, List.length_cons] at hn ihc ihd
    obtain ⟨n, rfl⟩ : ∃ m, n = m + 1 := ⟨n - 1, by omega⟩
    show parsepipe tokens (n + 1) _ = _
    have hexec : parseexec tokens n (ts ++ (.pipe :: us ++ rest)) = .ok (c, .pipe :: us ++ rest) :=
      ihc (by omega) (Nonterm.ends_cons.2 (by decide))
    rw [parsepipe, List.append_assoc, bind_ok hexec]
    have hpipe : parsepipe tokens n (us ++ rest) = .ok (d, rest) := ihd (by omega) hr
    show (parsepipe tokens n (us ++ rest) >>= _) = _
    rw [bind_ok hpipe]
  | @block ts us c rs _ hrs ih =>
    simp only [Nonterm.enough, Nonterm.calls, List.cons_append, List.length_cons,
      List.length_append] at hn ih
    obtain ⟨n, rfl⟩ : ∃ m, n = m + 2 := ⟨n - 2, by omega⟩
    show parseexec tokens (n + 2) _ = _
    have hline : parseline tokens n (ts ++ .rparen :: (us ++ rest)) =
        .ok (c, .rparen :: (us ++ rest)) := ih (by omega) (Nonterm.ends_cons.2 (by decide))
    rw [parseexec, List.cons_append, List.cons_append, List.append_assoc, List.cons_append]
    exact parseblock_takes (by omega) hline hrs (hr.not_starts (by decide))
  | @simple ts us ws rs rs' hrs ha hws =>
    simp only [Nonterm.enough, Nonterm.calls, List.length_append] at hn
    obtain ⟨n, rfl⟩ : ∃ m, n = m + 1 := ⟨n - 1, by omega⟩
    show parseexec tokens (n + 1) _ = _
    rw [parseexec]
    show (if starts _ (ts ++ us ++ rest) = true then _ else _) = _
    rw [if_neg (by rw [simple_not_block hrs ha hr]; decide), List.append_assoc]
    rw [bind_ok (hrs.parseredirs (n := n) (by omega) (.exec [])
      (ha.not_redir (hr.not_starts (by decide))))]
    exact ha.parseargs (by omega) [] rs hr hws

end Xv6.Sh
