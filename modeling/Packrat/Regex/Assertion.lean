import Packrat.Text.Word

/-! Conditions on a place in a text that consume nothing.

A place is known by the character before it and the character after it; either is
missing at an end of the text. The words of a condition are made of Unicode's word
characters, or of the ASCII ones only. -/
namespace Packrat.Regex

/-- What is asked about the word characters on both sides of a place. -/
inductive WordCondition where
  | boundary
  | notBoundary
  | start
  | stop
  /-- No word character comes before. -/
  | startHalf
  /-- No word character comes after. -/
  | stopHalf
deriving DecidableEq, Repr

inductive Assertion where
  | textStart
  | textEnd
  /-- The start of the text, or just past a line feed. -/
  | lineStart
  /-- The end of the text, or just before a line feed. -/
  | lineEnd
  /-- As `lineStart`, where a line may also end in a carriage return, or in that and a line feed. -/
  | lineStartAny
  /-- As `lineEnd`, where a line may also end in a carriage return, or in that and a line feed. -/
  | lineEndAny
  | word (condition : WordCondition) (unicode : Bool)
deriving DecidableEq, Repr

/-- Whether there is a word character on one side and on the other. -/
def WordCondition.holds (before after : Bool) : WordCondition → Bool
  | boundary => before != after
  | notBoundary => before == after
  | start => !before && after
  | stop => before && !after
  | startHalf => !before
  | stopHalf => !after

/-- Whether there is a word character on that side. -/
def isWord (unicode : Bool) (c : Option Char) : Bool :=
  c.any (if unicode then CharSet.word else CharSet.asciiWord).contains

def Assertion.holds (before after : Option Char) : Assertion → Bool
  | textStart => before.isNone
  | textEnd => after.isNone
  | lineStart => before.isNone || before == some '\n'
  | lineEnd => after.isNone || after == some '\n'
  | lineStartAny =>
    before.isNone || before == some '\n' || (before == some '\r' && after != some '\n')
  | lineEndAny =>
    after.isNone || after == some '\r' || (after == some '\n' && before != some '\r')
  | word condition unicode => condition.holds (isWord unicode before) (isWord unicode after)

end Packrat.Regex
