import Packrat.Pattern
import Packrat.Proofs.Regex.Anchoring
import Packrat.Proofs.Regex.Groups

/-! Patterns and the expressions that their sources are.

A source that is an expression by itself is held to the start of the text, unless the pattern is
refused: where the source ends in a comment, which takes the closing parenthesis in, and where it
nests too deep for two more levels (`Pattern.held_to_start`). Other sources are refused too, unless
a closing parenthesis in them ends the group. What stands before it is an expression then, and what
stands behind it is not held to anything (`Pattern.matches_behind_start`). -/
namespace Packrat
open Regex Regex.Reader

/-- The state at the beginning of a text. -/
def Regex.Reader.State.begin (text : List Char) : State := { rest := text }

namespace Regex.Expr
variable {classes : ClassTable} {text : List Char} {p : Piece} {e : Expr}

theorem reading?_eq_some : reading? classes text = some p ↔
    ∃ s, (group classes (text.length + 1) [] []).run (.begin text) = some (p, s) ∧ s.rest = [] := by
  unfold reading?
  change ((group classes (text.length + 1) [] []).run (.begin text)).bind _ = _ ↔ _
  rw [Option.bind_eq_some_iff]
  constructor
  · rintro ⟨⟨q, s⟩, hrun, h⟩
    dsimp only at h
    cases hrest : s.rest with
    | nil =>
      rw [hrest] at h
      cases h
      exact ⟨s, hrun, hrest⟩
    | cons c rest =>
      rw [hrest] at h
      cases h
  · rintro ⟨s, hrun, hrest⟩
    refine ⟨(p, s), hrun, ?_⟩
    dsimp only
    rw [hrest]
    rfl

theorem read?_of_reading (h : reading? classes text = some p) :
    read? classes text = if p.depth ≤ maxDepth then some p.expr else none := by
  rw [read?, h]
  by_cases hdepth : p.depth ≤ maxDepth
  · rw [Option.bind_eq_bind, Option.bind_some, guard, if_pos hdepth, if_pos hdepth]
    rfl
  · rw [Option.bind_eq_bind, Option.bind_some, guard, if_neg hdepth, if_neg hdepth]
    rfl

theorem read?_of_reading_none (h : reading? classes text = none) : read? classes text = none := by
  rw [read?, h]
  rfl

theorem read?_eq_some : read? classes text = some e ↔ ∃ p, reading? classes text = some p ∧
    p.depth ≤ maxDepth ∧ p.expr = e := by
  cases h : reading? classes text with
  | none => simp [read?_of_reading_none h]
  | some p => simp [read?_of_reading h]

end Regex.Expr

namespace Pattern
variable {classes : ClassTable}

theorem run_caret (n : Nat) (text : List Char) :
    (group classes (n + 1) [] []).run
      (.begin ('^' :: text)) = (group classes n [] [⟨.assert .textStart, 0, true⟩]).run
        (.begin text) := rfl

/-- A plain group is read as its contents are, up to the closing parenthesis. -/
theorem run_plain {n : Nat} {parts : List Piece} {text : List Char} {q : Piece} {s' : State} :
    (group classes (n + 1) [] parts).run (.begin ('(' :: '?' :: ':' :: text)) = some (q, s') ↔
      ∃ p s rest, (group classes n [] []).run (.begin text) = some (p, s) ∧ s.rest = ')' :: rest ∧
        (group classes n [] (⟨p.expr, p.depth + 1, true⟩ :: parts)).run
        { s with rest, flags := {} } = some (q, s') := by
  change ((group classes n [] []).run (.begin text)).bind _ = _ ↔ _
  rw [Option.bind_eq_some_iff]
  constructor
  · rintro ⟨⟨p, s⟩, hrun, h⟩
    obtain ⟨c, s₁, hnext, h⟩ := run_bind_eq_some.mp h
    dsimp only at h
    by_cases hc : c = ')'
    · rw [if_neg (not_not_intro hc)] at h
      cases hrest : s.rest with
      | nil => rw [run_next_nil hrest] at hnext; cases hnext
      | cons d rest =>
        rw [run_next_cons hrest] at hnext
        cases hnext
        exact ⟨p, s, rest, hrun, by rw [hrest, hc], h⟩
    · rw [if_pos hc] at h
      cases h
  · rintro ⟨p, s, rest, hrun, hrest, h⟩
    refine ⟨(p, s), hrun, run_bind_eq_some.mpr ⟨')', _, run_next_cons hrest, ?_⟩⟩
    dsimp only
    rw [if_neg (by simp)]
    exact h

/-- More rounds than there are characters come to the same. -/
theorem run_group_of_lt {n : Nat} {text : List Char} (h : text.length < n) :
    (group classes n [] []).run (.begin text) = (group classes (text.length + 1) [] []).run
      (.begin text) :=
  (Agree.of_le (fun n => group_agree classes n [] []) h (.begin text) (Nat.lt_succ_self _)).symm

theorem reading?_wrap {source : List Char} {q : Piece} :
    Expr.reading? classes (wrap source) = some q ↔
    ∃ p s rest, (group classes ((source ++ [')']).length + 1) [] []).run
      (.begin (source ++ [')'])) = some (p, s) ∧ s.rest = ')' :: rest ∧
      ∃ s', (group classes (source.length + 4) [] [⟨p.expr, p.depth + 1, true⟩,
        ⟨.assert .textStart, 0, true⟩]).run { s with rest, flags := {} } = some (q, s') ∧
        s'.rest = [] := by
  have hlength : (wrap source).length + 1 = source.length + 4 + 1 + 1 := by simp [wrap]
  have htext : wrap source = '^' :: '(' :: '?' :: ':' :: (source ++ [')']) := rfl
  rw [Expr.reading?_eq_some, hlength, htext, run_caret]
  constructor
  · rintro ⟨s', hrun, hend⟩
    obtain ⟨p, s, rest, hcontents, hrest, h⟩ := run_plain.mp hrun
    rw [run_group_of_lt (by simp)] at hcontents
    exact ⟨p, s, rest, hcontents, hrest, s', h, hend⟩
  · rintro ⟨p, s, rest, hcontents, hrest, s', h, hend⟩
    rw [← run_group_of_lt (n := source.length + 4) (by simp)] at hcontents
    exact ⟨s', run_plain.mpr ⟨p, s, rest, hcontents, hrest, h⟩, hend⟩

/-- What a text is read as and what it is read as if it is enclosed. -/
theorem group_parallel (classes : ClassTable) (source after : List Char) :
    Parallel (fun _ _ => False) after
    ((group classes (source.length + 1) [] []).run (.begin source))
    ((group classes ((source ++ ')' :: after).length + 1) [] []).run
        (.begin (source ++ ')' :: after))) := by
  have hlength : source.length < (source ++ ')' :: after).length + 1 := by
    rw [List.length_append]
    omega
  rw [← run_group_of_lt hlength]
  exact (group_local classes _ [] []).parallel after (.begin source)

variable {source : List Char} {p q : Piece}

/-- The start of the text and a group make a run. -/
theorem choice_run_pair (p : Piece) :
    choice [run [⟨p.expr, p.depth + 1, true⟩, ⟨.assert .textStart, 0, true⟩]] =
    ⟨.append (.assert .textStart) p.expr, p.depth + 2, true⟩ := by
  have hexpr : Expr.concat [.assert .textStart, p.expr] = .append (.assert .textStart) p.expr :=
    congrArg (Expr.append _) (Expr.append_empty p.expr)
  simp [choice, run, combined, hexpr]

/-- A text that is read by itself is read as the contents of the group, unless it ends in a
comment. -/
theorem reading?_close (h : Expr.reading? classes source = some p) :
    Expr.reading? classes (source ++ [')']) = some p ∧ Expr.reading? classes (wrap source) = none ∨
    Expr.reading? classes (source ++ [')']) = none ∧
      Expr.reading? classes (wrap source) = some ⟨.append (.assert .textStart) p.expr, p.depth +
      2, true⟩ := by
  obtain ⟨s, hrun, hrest⟩ := Expr.reading?_eq_some.mp h
  have hpar := group_parallel classes source []
  rw [hrun] at hpar
  generalize hrun' : (group classes ((source ++ [')']).length + 1) [] []).run
    (.begin (source ++ [')'])) = y at hpar
  cases hpar with
  | same _ _ =>
    have hend : (s.enclosed []).rest = [')'] := by rw [State.enclosed, hrest]; rfl
    refine .inr ⟨Option.eq_none_iff_forall_ne_some.mpr fun q hq => ?_, ?_⟩
    · obtain ⟨s', hq, hempty⟩ := Expr.reading?_eq_some.mp hq
      cases hrun'.symm.trans hq
      cases hend.symm.trans hempty
    · rw [← choice_run_pair]
      exact reading?_wrap.mpr ⟨p, _, [], hrun', hend, _, rfl, rfl⟩
  | swallowed _ hempty hafter =>
    refine .inl ⟨Expr.reading?_eq_some.mpr ⟨s, hrun', hrest⟩, Option.eq_none_iff_forall_ne_some.mpr
      fun q hq => ?_⟩
    obtain ⟨p', s', rest, hq, hparen, -⟩ := reading?_wrap.mp hq
    cases hrun'.symm.trans hq
    cases hrest.symm.trans hparen
  | apart _ hnone => cases hnone rfl

/-- A text that is read as the contents of the group goes up to a closing parenthesis that is its
own or that of the group. -/
theorem reading?_of_wrap (h : Expr.reading? classes (wrap source) = some q) :
    ∃ before after, source ++ [')'] = before ++ ')' :: after ∧
    (Expr.reading? classes before).isSome := by
  obtain ⟨p, s, after, hrun, hrest, -⟩ := reading?_wrap.mp h
  obtain ⟨before, hbefore⟩ : s.rest <:+ source ++ [')'] := (group_local classes _ [] []).suffix hrun
  rw [hrest] at hbefore
  refine ⟨before, after, hbefore.symm, ?_⟩
  have hpar := group_parallel classes before after
  rw [hbefore, hrun] at hpar
  generalize hrun' : (group classes (before.length + 1) [] []).run (.begin before) = y at hpar
  cases hpar with
  | same _ s =>
    have hempty : s.rest = [] := List.append_left_eq_self.mp hrest
    rw [Expr.reading?_eq_some.mpr ⟨s, hrun', hempty⟩]
    rfl
  | swallowed _ hempty _ => cases hempty.symm.trans hrest
  | apart hend _ =>
    have hle := (hend p s rfl).resolve_right id
    rw [hrest] at hle
    exact absurd hle (Nat.not_succ_le_self _)

/-! ### Patterns -/

theorem compile_eq_error_iff {source : String} {err : PatternError} :
    compile classes source = .error err ↔ Matcher.ofSource classes source = .error err := by
  unfold compile
  split
  next m hm => simp [hm]
  next e he => rw [he]; exact Iff.intro (fun h => by cases h; rfl) (fun h => by cases h; rfl)

theorem matcher_of_compile {source : String} {p : Pattern} (h : compile classes source = .ok p) :
    Matcher.ofSource classes source = .ok p.toMatcher := by
  unfold compile at h
  split at h
  next m hm =>
    cases h
    exact hm
  next => cases h

theorem compile_invalid_iff {source : String} : compile classes source = .error (.invalid source) ↔
    Expr.read? classes (wrap source.toList) = none := by
  rw [compile_eq_error_iff, Matcher.ofSource]
  cases Expr.read? classes (wrap source.toList) with
  | none => simp
  | some e =>
    dsimp only
    split <;> simp

theorem search_of_compile {source : String} {p : Pattern} (h : compile classes source = .ok p) :
    ∃ e, Expr.read? classes (wrap source.toList) = some e ∧
    p.matchLength = (Automaton.ofExpr e).search := by
  have hm := matcher_of_compile h
  rw [Matcher.ofSource] at hm
  cases he : Expr.read? classes (wrap source.toList) with
  | none =>
    rw [he] at hm
    cases hm
  | some e =>
    refine ⟨e, rfl, ?_⟩
    rw [he] at hm
    dsimp only at hm
    split at hm
    · exact congrArg Matcher.matchLength (Except.ok.inj hm).symm
    · cases hm

/-- **A pattern is held to the start of the text as far as its source is an expression by
itself.** -/
theorem held_to_start (classes : ClassTable) (source : String) :
    (∀ e, Expr.read? classes source.toList = some e →
      (compile classes source = .error (.invalid source) ↔
        (Expr.read? classes (source.toList ++ [')'])).isSome ∨
          ∃ p, Expr.reading? classes source.toList = some p ∧ maxDepth < p.depth + 2) ∧
      ∀ p, compile classes source = .ok p →
        ∀ text, p.matchLength text = (Automaton.ofExpr e).atStart text) ∧
    (Expr.read? classes source.toList = none → compile classes source = .error (.invalid source) ∨
      ∃ before after, source.toList = before ++ ')' :: after ∧
      (Expr.reading? classes before).isSome) := by
  rw [compile_invalid_iff]
  refine ⟨fun e he => ?_, fun hnone => ?_⟩
  · obtain ⟨p, hp, hdepth, rfl⟩ := Expr.read?_eq_some.mp he
    rcases reading?_close hp with ⟨hclose, hwrap⟩ | ⟨hclose, hwrap⟩
    · have hrefused := Expr.read?_of_reading_none hwrap
      refine ⟨iff_of_true hrefused (.inl ?_), fun q hq => ?_⟩
      · rw [Expr.read?_of_reading hclose, if_pos hdepth]
        rfl
      · obtain ⟨e, he, -⟩ := search_of_compile hq
        cases hrefused.symm.trans he
    · have hread := Expr.read?_of_reading hwrap
      refine ⟨?_, fun q hq text => ?_⟩
      · rw [hread, Expr.read?_of_reading_none hclose, hp]
        simp
      · obtain ⟨e, he, hsearch⟩ := search_of_compile hq
        rw [hread] at he
        split at he
        · cases he
          rw [hsearch, Automaton.search_textStart]
        · cases he
  · rw [or_iff_not_imp_left]
    intro hread
    obtain ⟨e, he⟩ := Option.ne_none_iff_exists'.mp hread
    obtain ⟨q, hq, hdepth, -⟩ := Expr.read?_eq_some.mp he
    obtain ⟨before, after, htext, hbefore⟩ := reading?_of_wrap hq
    rcases List.eq_nil_or_concat after with rfl | ⟨more, c, rfl⟩
    · -- The group is closed at its end, so the source is read by itself, and too deep.
      obtain rfl : source.toList = before := List.append_cancel_right htext
      obtain ⟨p, hp⟩ := Option.isSome_iff_exists.mp hbefore
      rw [Expr.read?_of_reading hp] at hnone
      rcases reading?_close hp with ⟨-, hwrap⟩ | ⟨-, hwrap⟩
      · cases hwrap.symm.trans hq
      · cases hwrap.symm.trans hq
        have hless : p.depth ≤ maxDepth := Nat.le_of_add_right_le hdepth
        simp [hless] at hnone
    · rw [List.concat_eq_append, ← List.cons_append, ← List.append_assoc] at htext
      exact ⟨before, more, (List.append_inj' htext rfl).1, hbefore⟩

/-- A branch that is held to the start, a comment that takes the closing parenthesis in, and a group
that is closed early. -/
theorem held_to_start_sources :
    (∃ e p, Expr.read? .standard "a|bc".toList = some e ∧ compile .standard "a|bc" = .ok p ∧
      p.matchLength "bcd".toList = (Automaton.ofExpr e).atStart "bcd".toList ∧
      p.matchLength "bcd".toList = some 2) ∧
    compile .standard "(?x)a # c" = .error (.invalid "(?x)a # c") ∧
    ∃ before after, "a)|(?:b".toList = before ++ ')' :: after ∧
      (Expr.reading? .standard before).isSome := by
  refine ⟨?_, ?_, ?_⟩
  · obtain ⟨e, he⟩ := Option.isSome_iff_exists.mp
      (by decide +kernel : (Expr.read? .standard "a|bc".toList).isSome)
    have hlength : ((compile .standard "a|bc").toOption.map fun p => p.matchLength "bcd".toList) =
        some (some 2) := by
      decide +kernel
    cases hp : compile .standard "a|bc" with
    | error err =>
      rw [hp] at hlength
      cases hlength
    | ok p =>
      rw [hp] at hlength
      exact ⟨e, p, he, rfl, ((held_to_start .standard "a|bc").1 e he).2 p hp "bcd".toList,
        Option.some.inj hlength⟩
  · obtain ⟨e, he⟩ := Option.isSome_iff_exists.mp
      (by decide +kernel : (Expr.read? .standard "(?x)a # c".toList).isSome)
    exact ((held_to_start .standard "(?x)a # c").1 e he).1.mpr (.inl (by decide +kernel))
  · have hnone : Expr.read? .standard "a)|(?:b".toList = none := by decide +kernel
    have hread : Expr.read? .standard (wrap "a)|(?:b".toList) ≠ none := by decide +kernel
    exact ((held_to_start .standard "a)|(?:b").2 hnone).resolve_left
      (mt compile_invalid_iff.mp hread)

/-- A source that closes the group early matches behind the start of the text. -/
theorem matches_behind_start : Expr.read? .standard "a)|(?:b".toList = none ∧
    ((ofSource "a)|(?:b").toOption.map fun p => p.matchLength "xb".toList) = some (some 2) := by
  decide +kernel

end Pattern

end Packrat
