import Xv6.Kernel.Defs
import Xv6.User.Shell

/-!
# Redirections, from the line to the descriptors (`parseredirs`, `runcmd`)

`parseredirs` wraps the command in a REDIR node for every redirection it reads, so the textually last
one is outermost; `runcmd` unwinds the nodes from outside, closes the descriptor of each and opens its
file at the lowest free one.

* `Written ts c rs`   the tokens of a simple command or of a block, the inner command, and the
  redirections in the order of the text;
* `unwind`   `runcmd` on as many REDIR nodes;
* `unwind_redirs`   **the textually first redirection of a descriptor is the one that stays**;
* `LastWins`   the descriptor refers to the file of its last redirection.
-/

namespace Xv6.Sh

/-! ## The descriptors of the process -/

/-- an open file: which file, and how it was opened -/
structure OpenFile (ι : Type) where
  file : ι
  mode : BitVec 32
deriving DecidableEq

abbrev Fds (ι : Type) := Fin NOFILE → Option (OpenFile ι)

section fds
variable {ι ω : Type} (names : ω → ι)

/-- `close`; a number that is no descriptor is refused and nothing changes -/
def Fds.close (t : Fds ι) (fd : ℕ) : Fds ι :=
  if h : fd < NOFILE then Function.update t ⟨fd, h⟩ none else t

/-- `open` of a file that can be opened, which `fdalloc` puts at the lowest free descriptor -/
def Fds.openFile (t : Fds ι) (file : ω) (mode : BitVec 32) : Option (Fds ι) :=
  ((List.finRange NOFILE).find? fun fd => (t fd).isNone).map fun fd =>
    Function.update t fd (some ⟨names file, mode⟩)

/-- `runcmd` on `n` REDIR nodes, up to the command below them -/
def unwind : ℕ → Cmd ω → Fds ι → Option (Cmd ω × Fds ι)
  | 0, cmd, t => some (cmd, t)
  | n + 1, .redir cmd file mode fd, t =>
    ((t.close fd).openFile names file mode).bind fun t => unwind n cmd t
  | _ + 1, _, _ => none

/-- descriptors 0, 1 and 2 are open -/
def Fds.Std (t : Fds ι) : Prop := ∀ fd : Fin NOFILE, fd.val < 3 → (t fd).isSome

def Op.slot (o : Op) : Fin NOFILE := ⟨o.fd, by cases o <;> decide⟩

/-- the lowest free descriptor after a close of 0 or 1 is the one that was closed -/
theorem Fds.Std.reopen {t : Fds ι} (ht : t.Std) (o : Op) (file : ω) :
    (t.close o.fd).openFile names file o.mode =
      some (Function.update t o.slot (some ⟨names file, o.mode⟩)) := by
  have hclose : t.close o.fd = Function.update t o.slot none := dif_pos o.slot.isLt
  have hfind : (List.finRange NOFILE).find?
      (fun fd => (Function.update t o.slot none fd).isNone) = some o.slot := by
    have h0 := ht ⟨0, by decide⟩ (by decide)
    have hlist : List.finRange NOFILE = ⟨0, by decide⟩ :: ⟨1, by decide⟩ ::
        (List.finRange NOFILE).drop 2 := by decide
    rw [hlist]
    cases o with
    | lt => rfl
    | gt | app =>
      rw [List.find?_cons_of_neg, List.find?_cons_of_pos]
      · rfl
      · rfl
      · rw [Function.update_of_ne (by decide), Option.isNone_iff_eq_none,
          ← Option.not_isSome_iff_eq_none]
        exact not_not.2 h0
  rw [hclose, Fds.openFile, hfind, Option.map_some, Function.update_idem]

theorem Fds.Std.set {t : Fds ι} (ht : t.Std) (fd : Fin NOFILE) (f : OpenFile ι) :
    Fds.Std (Function.update t fd (some f)) := by
  intro i hi
  by_cases he : i = fd
  · rw [he, Function.update_self]
    rfl
  · rw [Function.update_of_ne he]
    exact ht i hi

/-! ## Unwinding -/

/-- the first redirection of the list for the descriptor -/
def redirOf (fd : Fin NOFILE) (rs : List (Op × ω)) : Option (Op × ω) :=
  rs.find? fun r => r.1.slot == fd

/-- **the nodes of a sequence of redirections**: the command below is reached, and each descriptor has
the textually first file that the sequence gives it -/
theorem unwind_redirs (c : Cmd ω) (rs : List (Op × ω)) {t : Fds ι} (ht : t.Std) :
    ∃ t' : Fds ι, unwind names rs.length (c.redirs rs) t = some (c, t') ∧
      ∀ fd, t' fd = match redirOf fd rs with
        | some r => some ⟨names r.2, r.1.mode⟩
        | none => t fd := by
  -- the last redirection is the outermost node, so the induction is from the end
  induction rs using List.reverseRecOn generalizing t with
  | nil => exact ⟨t, rfl, fun fd => rfl⟩
  | append_singleton rs r ih =>
    obtain ⟨t', hrun, hfds⟩ := ih (ht.set r.1.slot ⟨names r.2, r.1.mode⟩)
    refine ⟨t', ?_, ?_⟩
    · rw [List.length_append, List.length_singleton, ← Cmd.redirs_append]
      show ((t.close r.1.fd).openFile names r.2 r.1.mode).bind _ = _
      rw [ht.reopen names, Option.bind_some]
      exact hrun
    · intro fd
      rw [hfds fd, redirOf, redirOf, List.find?_append]
      cases hr : rs.find? fun r => r.1.slot == fd with
      | some r' => rfl
      | none =>
        by_cases he : fd = r.1.slot
        · rw [he]
          simp
        · have hb : (r.1.slot == fd) = false := by simpa using Ne.symm he
          simp [hb, Function.update_of_ne he]

/-- the descriptor refers to the file of its textually last redirection, and is unchanged without one -/
def LastWins (rs : List (Op × ω)) (t t' : Fds ι) (fd : Fin NOFILE) : Prop :=
  match redirOf fd rs.reverse with
  | some r => (t' fd).map OpenFile.file = some (names r.2)
  | none => t' fd = t fd

/-- the first and the last redirection of the descriptor are of one file, if there are any -/
def OneFile (rs : List (Op × ω)) (fd : Fin NOFILE) : Prop :=
  (redirOf fd rs).map (names ·.2) = (redirOf fd rs.reverse).map (names ·.2)

theorem redirOf_reverse_eq_none {fd : Fin NOFILE} {rs : List (Op × ω)} :
    redirOf fd rs.reverse = none ↔ redirOf fd rs = none := by
  simp [redirOf, List.find?_eq_none]

theorem lastWins_iff {rs : List (Op × ω)} {t t' : Fds ι} {fd : Fin NOFILE}
    (h : t' fd = match redirOf fd rs with
        | some r => some ⟨names r.2, r.1.mode⟩
        | none => t fd) : LastWins names rs t t' fd ↔ OneFile names rs fd := by
  unfold LastWins OneFile
  rw [h]
  cases hl : redirOf fd rs.reverse with
  | none => simp [redirOf_reverse_eq_none.1 hl]
  | some l =>
    cases hf : redirOf fd rs with
    | none =>
      rw [redirOf_reverse_eq_none.2 hf] at hl
      cases hl
    | some f => rfl

end fds

/-! ## The text of a command -/

/-- **a simple command or a block** in tokens, with its inner command and its redirections in the order
of the text -/
inductive Written : List Tok → Cmd (List Byte) → List (Op × List Byte) → Prop
  | simple {ts us : List Tok} {ws : List (List Byte)} {rs rs' : List (Op × List Byte)} :
      Redirs ts rs → Args us ws rs' → ws.length < MAXARGS →
      Written (ts ++ us) (.exec ws) (rs ++ rs')
  | block {ts us : List Tok} {c : Cmd (List Byte)} {rs : List (Op × List Byte)} :
      Derives .line ts c → Redirs us rs → Written (.lparen :: ts ++ .rparen :: us) c rs

section
variable {ts : List Tok} {c : Cmd (List Byte)} {rs : List (Op × List Byte)}

theorem Written.derives (h : Written ts c rs) : Derives .exec ts (c.redirs rs) := by
  cases h with
  | simple hr ha hws => exact .simple hr ha hws
  | block hc hr => exact .block hc hr

theorem Written.line (h : Written ts c rs) : Derives .line ts (c.redirs rs) := by
  have hl := Derives.line 0 (.exec h.derives)
  rwa [List.replicate_zero, List.append_nil] at hl

end

/-- **the redirections of a command, parsed and run**: `parseexec` takes the command wherever it stands,
and a line of its own parses to it; `runcmd` then reaches the inner command, and descriptors 0 and 1 have
the files of their last redirections exactly when for each the first names the same file -/
theorem last_redirection_iff {ι : Type} (names : List Byte → ι) {ts : List Tok} {c : Cmd (List Byte)}
    {rs : List (Op × List Byte)} (h : Written ts c rs) {t : Fds ι} (ht : t.Std) :
    (∀ fuel rest, Nonterm.exec.enough ts.length ≤ fuel → Nonterm.exec.Ends rest →
      parseexec tokens fuel (ts ++ rest) = .ok (c.redirs rs, rest)) ∧
    (∀ line fuel, 0 ∉ line → Lex line ts → 4 * line.length + 4 ≤ fuel →
      ∃ cmd buf, parsecmd fuel (line ++ [0]) = .ok (cmd, buf) ∧ cmd.strings buf = c.redirs rs) ∧
    ∃ t' : Fds ι, unwind names rs.length (c.redirs rs) t = some (c, t') ∧
      (LastWins names rs t t' Op.lt.slot ∧ LastWins names rs t t' Op.gt.slot ↔
        OneFile names rs Op.lt.slot ∧ OneFile names rs Op.gt.slot) := by
  refine ⟨?_, ?_, ?_⟩
  · intro fuel rest hfuel hrest
    exact h.derives.parse hfuel hrest
  · intro line fuel h0 hlex hfuel
    exact parsecmd_of_derives h0 hfuel hlex h.line
  · obtain ⟨t', hrun, hfds⟩ := unwind_redirs names c rs ht
    exact ⟨t', hrun, and_congr (lastWins_iff names (hfds _)) (lastWins_iff names (hfds _))⟩

/-- descriptors 0, 1 and 2 on the console -/
def console : Fds (List Byte) := fun fd => if fd.val < 3 then some ⟨[], 0x002⟩ else none

theorem console_std : console.Std := by
  intro fd hfd
  rw [console, if_pos hfd]
  rfl

theorem last_redirection_sample : ∃ t',
    unwind id 2 ((Cmd.exec [[ch 'a']]).redirs [(.lt, [ch 'i']), (.gt, [ch 'o'])]) console =
      some (.exec [[ch 'a']], t') ∧
    LastWins id [(.lt, [ch 'i']), (.gt, [ch 'o'])] console t' Op.lt.slot ∧
    LastWins id [(.lt, [ch 'i']), (.gt, [ch 'o'])] console t' Op.gt.slot := by
  have hw : Written _ (.exec [[ch 'a']]) ([(.lt, [ch 'i'])] ++ [(.gt, [ch 'o'])]) :=
    .simple (.cons .lt ⟨[ch 'i'], by decide, by decide⟩ .nil)
      (.cons ⟨[ch 'a'], by decide, by decide⟩ (.cons .gt ⟨[ch 'o'], by decide, by decide⟩ .nil) .nil)
      (by decide)
  obtain ⟨-, -, t', hrun, hiff⟩ := last_redirection_iff id hw console_std
  exact ⟨t', hrun, hiff.2 ⟨rfl, rfl⟩⟩

theorem last_redirection_loses : ∃ cmd buf t',
    parsecmd 24 (['a', '>', 'b', '>', 'c'].map ch ++ [0]) = .ok (cmd, buf) ∧
    unwind id 2 (cmd.strings buf) console = some (.exec [[ch 'a']], t') ∧
    (t' Op.gt.slot).map OpenFile.file = some [ch 'b'] ∧
    ¬ LastWins id [(.gt, [ch 'b']), (.gt, [ch 'c'])] console t' Op.gt.slot := by
  have hlex : Lex (['a', '>', 'b', '>', 'c'].map ch) _ :=
    .word ⟨[ch 'a'], by decide, by decide⟩ (by decide) (.gt (by decide)
      (.word ⟨[ch 'b'], by decide, by decide⟩ (by decide) (.gt (by decide)
        (.word ⟨[ch 'c'], by decide, by decide⟩ nofun .nil))))
  have hw : Written _ (.exec [[ch 'a']]) ([] ++ ([(.gt, [ch 'b']), (.gt, [ch 'c'])] ++ [])) :=
    .simple .nil (.cons ⟨[ch 'a'], by decide, by decide⟩
      (.cons .gt ⟨[ch 'b'], by decide, by decide⟩ (.cons .gt ⟨[ch 'c'], by decide, by decide⟩ .nil))
      .nil) (by decide)
  obtain ⟨cmd, buf, hparse, hcmd⟩ := parsecmd_of_derives (by decide)
    (show _ ≤ 24 by decide) hlex hw.line
  obtain ⟨t', hrun, hfds⟩ := unwind_redirs id (.exec [[ch 'a']])
    [(.gt, [ch 'b']), (.gt, [ch 'c'])] console_std
  have hb : (t' Op.gt.slot).map OpenFile.file = some [ch 'b'] := by
    rw [hfds]
    rfl
  refine ⟨cmd, buf, t', hparse, by rw [hcmd]; exact hrun, hb, ?_⟩
  intro hlast
  exact absurd (hb.symm.trans hlast) (by decide)

end Xv6.Sh
