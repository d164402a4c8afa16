import Packrat.Text.Alphabetic
import Packrat.Text.Numeric

/-! Named classes of characters.

What a name such as `Letter` or `script=Greek` stands for is data of its own, so the
reader takes it as a table. A name is all that stands in the braces, or the one letter
without braces. The library's own table has the properties that it needs elsewhere. -/
namespace Packrat.Regex

/-- The sets that names of classes stand for, each name as it is looked up. -/
structure ClassTable where
  entries : List (String × CharSet)
deriving DecidableEq

namespace ClassTable

/-- Whether a character counts in a name: ASCII, and neither a space nor a dash or underscore. -/
def isNameChar (c : Char) : Bool := c.toNat < 128 && c != ' ' && c != '-' && c != '_'

/-- A name as it is looked up: without regard to case, and without a leading `is`, which counts only
in front of a lone `c`. -/
def plainName (name : String) : String :=
  match name.toList.map Char.toLower with
  | 'i' :: 's' :: rest =>
    let rest := rest.filter isNameChar
    .ofList (if rest = ['c'] then ['i', 's', 'c'] else rest)
  | text => .ofList (text.filter isNameChar)

def find? (t : ClassTable) (name : String) : Option CharSet := t.entries.lookup (plainName name)

/-- The classes of which the library has the members. -/
def standard : ClassTable where
  entries :=
    [("any", .range 0 CharSet.lastCode), ("ascii", .range 0 0x7F),
     ("alphabetic", .alphabetic), ("alpha", .alphabetic),
     ("whitespace", .blank), ("wspace", .blank), ("space", .blank),
     ("letter", .letter), ("l", .letter), ("number", .numeric), ("n", .numeric),
     ("decimalnumber", .decimalDigit), ("digit", .decimalDigit), ("nd", .decimalDigit)]

end ClassTable

end Packrat.Regex
