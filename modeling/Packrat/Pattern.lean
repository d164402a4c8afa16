import Packrat.Regex.Reader
import Packrat.Regex.Search

/-! Patterns: regular expressions that match at the start of a text.

What uses a pattern sees its matcher only, a function on texts whose matches take whole
characters. The search for a regular expression is such a matcher.

The source of a pattern is set into `^(?:` and `)` as text, and the whole is read as
one expression. So a source may close the group early and begin another branch,
which is then not held to the start of the text. A source whose expression matches
the empty text is refused; a pattern may still match nothing at the start of a
longer text. -/
namespace Packrat

/-- What finds a match in a text. -/
structure Matcher where
  /-- The length in bytes of the match at the start of a text. -/
  matchLength : List Char → Option Nat
  boundary : ∀ {text : List Char} {n : Nat}, matchLength text = some n → Boundary text n

def Regex.Automaton.matcher (m : Automaton) : Matcher := ⟨m.search, m.search_boundary⟩

inductive PatternError where
  /-- The source is not a regular expression. -/
  | invalid (source : String)
  /-- The expression matches the empty text. -/
  | acceptsEmpty (source : String)
deriving DecidableEq, Repr

def PatternError.message : PatternError → String
  | invalid source => s!"invalid pattern `{source}`"
  | acceptsEmpty source => s!"pattern `{source}` matches the empty string"

/-- The text that is read for a source. -/
def Pattern.wrap (source : List Char) : List Char := ['^', '(', '?', ':'] ++ source ++ [')']

/-- The matcher of a source, with the classes that it can name. -/
def Matcher.ofSource (classes : Regex.ClassTable) (source : String) : Except PatternError Matcher :=
  match Regex.Expr.read? classes (Pattern.wrap source.toList) with
  | none => .error (.invalid source)
  | some e =>
    let m := (Regex.Automaton.ofExpr e).matcher
    if m.matchLength [] = none then .ok m else .error (.acceptsEmpty source)

structure Pattern extends Matcher where
  source : String
  classes : Regex.ClassTable
  compiled : Matcher.ofSource classes source = .ok toMatcher

namespace Pattern

/-- A pattern is determined by its source and the classes that it can name. -/
theorem eq_of_source_eq {p q : Pattern} (h : p.source = q.source ∧ p.classes = q.classes) : p = q := by
  obtain ⟨m, source, classes, hp⟩ := p
  obtain ⟨n, source', classes', hq⟩ := q
  obtain ⟨rfl, rfl⟩ := h
  cases hp.symm.trans hq
  rfl

instance : DecidableEq Pattern := fun p q =>
  decidable_of_iff (p.source = q.source ∧ p.classes = q.classes)
    ⟨eq_of_source_eq, fun h => h ▸ ⟨rfl, rfl⟩⟩

def compile (classes : Regex.ClassTable) (source : String) : Except PatternError Pattern :=
  match h : Matcher.ofSource classes source with
  | .ok m => .ok ⟨m, source, classes, h⟩
  | .error e => .error e

def ofSource (source : String) : Except PatternError Pattern := compile .standard source

end Pattern

end Packrat
