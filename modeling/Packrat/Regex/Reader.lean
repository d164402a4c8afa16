import Packrat.Text.CaseFolding
import Packrat.Regex.ClassTable
import Packrat.Regex.Expr

/-! Reading a regular expression from its text.

The reader goes through the text once. What a flag such as `(?i)` changes holds from
there to the end of the group that encloses it, over later branches too, so flags are
part of the reader's state and a group puts the old ones back. Look-around and
references to groups are not part of the language, and which classes `\p` can name is
up to a table. A text has to match whole characters: where `(?-u)` takes characters
for bytes, whatever could match a byte that is not ASCII is refused. Nesting is
limited, where each group, repetition, run of several parts, choice and bracketed set
is one level. -/
namespace Packrat.Regex

structure Flags where
  /-- `i`: letters match regardless of case. -/
  caseless : Bool := false
  /-- `m`: `^` and `$` match at lines. -/
  multiLine : Bool := false
  /-- `s`: `.` matches line feeds. -/
  dotAll : Bool := false
  /-- `U`: repetitions are lazy, and greedy with a `?`. -/
  swapGreed : Bool := false
  /-- `R`: lines end in carriage returns too. -/
  anyLineEnd : Bool := false
  /-- `x`: blanks and comments do not count. -/
  verbose : Bool := false
  /-- `u`: sets, letters and words are those of Unicode, not of ASCII. -/
  unicode : Bool := true

/-- Switches one flag. -/
def Flags.set (f : Flags) (flag : Char) (on : Bool) : Option Flags :=
  match flag with
  | 'i' => some { f with caseless := on }
  | 'm' => some { f with multiLine := on }
  | 's' => some { f with dotAll := on }
  | 'U' => some { f with swapGreed := on }
  | 'R' => some { f with anyLineEnd := on }
  | 'x' => some { f with verbose := on }
  | 'u' => some { f with unicode := on }
  | _ => none

namespace Reader

structure State where
  rest : List Char
  flags : Flags := {}
  /-- How many capturing groups have begun. -/
  groups : Nat := 0
  /-- The names of the groups that have one. -/
  names : List (List Char) := []

/-- A step of the reader; it fails where the text is no regular expression. -/
abbrev Read := StateT State Option

/-- The deepest nesting that is read. -/
def maxDepth : Nat := 250

/-! ### Characters -/

def peek : Read (Option Char) := return (← get).rest.head?

def next : Read Char := do
  let c :: rest := (← get).rest | failure
  modify ({ · with rest })
  return c

/-- Takes the next character if it is this one. -/
def accept (c : Char) : Read Bool := do
  if (← peek) = some c then
    discard next
    return true
  else return false

/-- The text past blanks and comments; a comment goes from `#` to the end of its line. -/
def dropBlanks (inComment : Bool) : List Char → List Char
  | [] => []
  | c :: rest =>
    if inComment then dropBlanks (c != '\n') rest
    else if CharSet.blank.contains c then dropBlanks false rest
    else if c = '#' then dropBlanks true rest
    else c :: rest

/-- Passes over blanks and comments where they do not count. -/
def skipBlanks : Read Unit := modify fun s =>
  if s.flags.verbose then { s with rest := dropBlanks false s.rest } else s

/-- Takes what is found at the front of the text. -/
def takeFront {α : Type} (find : Flags → List Char → Option (α × List Char)) : Read α := do
  let s ← get
  let (a, rest) ← find s.flags s.rest
  set { s with rest }
  return a

/-! ### Numbers -/

def hexValue? (c : Char) : Option Nat :=
  if '0' ≤ c ∧ c ≤ '9' then some (c.toNat - '0'.toNat)
  else if 'a' ≤ c ∧ c ≤ 'f' then some (c.toNat - 'a'.toNat + 10)
  else if 'A' ≤ c ∧ c ≤ 'F' then some (c.toNat - 'A'.toNat + 10)
  else none

/-- The character with a code point, which must not be a surrogate. -/
def charOfCode? (n : Nat) : Option Char := if n.isValidChar then some (Char.ofNat n) else none

/-- A fixed number of hexadecimal digits. -/
def hexDigits : Nat → Nat → Read Nat
  | 0, value => return value
  | n + 1, value => do
    let digit ← hexValue? (← next)
    skipBlanks
    hexDigits n (value * 16 + digit)

/-- Hexadecimal digits up to the closing brace; `some` once there was one. -/
def hexBraced : Nat → Option Nat → Read Nat
  | 0, _ => failure
  | n + 1, value => do
    skipBlanks
    let c ← next
    if c = '}' then
      skipBlanks
      value
    else
      let digit ← hexValue? c
      hexBraced n (some (value.getD 0 * 16 + digit))

/-- The character after `\x`, `\u` or `\U`, given as so many digits or in braces. Two digits are a
byte where characters are bytes. -/
def hexChar (digits : Nat) : Read Char := do
  let f := (← get).flags
  skipBlanks
  if (← accept '{') then charOfCode? (← hexBraced ((← get).rest.length + 1) none)
  else
    let value ← hexDigits digits 0
    guard (f.unicode ∨ digits ≠ 2 ∨ value < 128)
    charOfCode? value

def decimalDigits : Nat → Option Nat → Read Nat
  | 0, _ => failure
  | n + 1, value => do
    match ← peek with
    | some c =>
      if '0' ≤ c ∧ c ≤ '9' then
        discard next
        skipBlanks
        decimalDigits n (some (value.getD 0 * 10 + (c.toNat - '0'.toNat)))
      else value
    | none => value

/-- Passes over blanks whether they count or not. -/
def dropSpace : Read Unit := modify fun s => { s with rest := s.rest.dropWhile CharSet.blank.contains }

/-- A number of repetitions, which takes at most 32 bits and may stand between blanks. -/
def count : Read Nat := do
  dropSpace
  let n ← decimalDigits ((← get).rest.length + 1) none
  dropSpace
  skipBlanks
  guard (n < UInt32.size)
  return n

/-! ### Single characters, sets and assertions -/

/-- What one escape or one plain character stands for. -/
inductive Atom where
  | char (c : Char)
  | set (s : CharSet)
  | assertion (a : Assertion)

/-- A character that means itself after a backslash: punctuation, but not `<` and `>`. -/
def isEscapable (c : Char) : Bool := c.toNat < 128 && !c.isAlphanum && c != '<' && c != '>'

/-- A set as the flags have it: closed under case. -/
def folded (f : Flags) (s : CharSet) : CharSet :=
  if f.caseless then s.closeUnder (if f.unicode then CharSet.foldings else CharSet.asciiFoldings)
  else s

/-- A set or all that is not in it, which is no set of characters where characters are bytes. -/
def complemented? (f : Flags) (negated : Bool) (s : CharSet) : Option CharSet :=
  if negated then if f.unicode then some s.complement else none else some s

/-- A set as the flags have it: closed under case, and then complemented if it is negated. -/
def adjusted? (f : Flags) (negated : Bool) (s : CharSet) : Option CharSet :=
  complemented? f negated (folded f s)

/-- A set that has a name of one letter, or its complement. -/
def shorthand? (f : Flags) (negated : Bool) (all ascii : CharSet) : Option CharSet :=
  complemented? f negated (if f.unicode then all else ascii)

def lineBreaks (f : Flags) : CharSet :=
  if f.dotAll then ∅
  else if f.anyLineEnd then CharSet.ofRanges [(0x0A, 0x0A), (0x0D, 0x0D)]
  else CharSet.singleton '\n'

def lineStart (f : Flags) : Assertion :=
  if f.multiLine then if f.anyLineEnd then .lineStartAny else .lineStart else .textStart

def lineEnd (f : Flags) : Assertion :=
  if f.multiLine then if f.anyLineEnd then .lineEndAny else .lineEnd else .textEnd

/-- The kinds of word boundary that are named in braces. -/
def wordCondition? (name : String) : Option WordCondition :=
  match name with
  | "start" => some .start
  | "end" => some .stop
  | "start-half" => some .startHalf
  | "end-half" => some .stopHalf
  | _ => none

def isBoundaryName (c : Char) : Bool := c.isAlpha || c == '-'

/-- The letters of a boundary's name, up to the first other character. -/
def boundaryName : Nat → List Char → Read (List Char)
  | 0, _ => failure
  | n + 1, name => do
    match ← peek with
    | some c =>
      if isBoundaryName c then
        discard next
        skipBlanks
        boundaryName n (c :: name)
      else return name.reverse
    | none => failure

/-- The kind of boundary that is named next, up to and with the closing brace. -/
def namedBoundary : Read WordCondition := do
  let name ← boundaryName ((← get).rest.length + 1) []
  if (← next) ≠ '}' then failure
  wordCondition? (String.ofList name)

/-- The condition of `\b`. A brace after it names a kind of boundary if a letter or dash follows the
brace; otherwise it is left to be read as a count. -/
def wordBoundary : Read WordCondition := do
  if (← peek) ≠ some '{' then return .boundary
  let before ← get
  discard next
  skipBlanks
  if isBoundaryName (← (← peek)) then namedBoundary
  else
    set before
    return .boundary

/-- The characters of a class's name, up to and with the closing brace. -/
def bracedName : Nat → List Char → Read (List Char)
  | 0, _ => failure
  | n + 1, name => do
    skipBlanks
    let c ← next
    if c = '}' then return name.reverse else bracedName n (c :: name)

/-- The name of a class, one letter or what stands in braces. -/
def className : Read String := do
  skipBlanks
  if (← accept '{') then
    let name ← bracedName ((← get).rest.length + 1) []
    return .ofList name
  else
    let c ← next
    if c = '\\' then failure
    return .singleton c

section Classes
variable (classes : ClassTable)

/-- The set that is named after `\p` or `\P`. -/
def namedClass (negated : Bool) : Read CharSet := do
  let f := (← get).flags
  let s ← classes.find? (← className)
  guard f.unicode
  adjusted? f negated s

/-- What follows a backslash. -/
def escape : Read Atom := do
  let f := (← get).flags
  let c ← next
  if isEscapable c then return .char c
  match c with
  | 'x' => .char <$> hexChar 2
  | 'u' => .char <$> hexChar 4
  | 'U' => .char <$> hexChar 8
  | 'p' => .set <$> namedClass classes false
  | 'P' => .set <$> namedClass classes true
  | 'd' => .set <$> shorthand? f false .decimalDigit .asciiDigit
  | 'D' => .set <$> shorthand? f true .decimalDigit .asciiDigit
  | 's' => .set <$> shorthand? f false .blank .asciiBlank
  | 'S' => .set <$> shorthand? f true .blank .asciiBlank
  | 'w' => .set <$> shorthand? f false .word .asciiWord
  | 'W' => .set <$> shorthand? f true .word .asciiWord
  | 'a' => return .char '\x07'
  | 'f' => return .char '\x0C'
  | 't' => return .char '\t'
  | 'n' => return .char '\n'
  | 'r' => return .char '\r'
  | 'v' => return .char '\x0B'
  | 'A' => return .assertion .textStart
  | 'z' => return .assertion .textEnd
  | 'b' => return .assertion (.word (← wordBoundary) f.unicode)
  | 'B' => return .assertion (.word .notBoundary f.unicode)
  | '<' => return .assertion (.word .start f.unicode)
  | '>' => return .assertion (.word .stop f.unicode)
  | _ => failure

def Atom.toExpr (f : Flags) : Atom → Expr
  | char c => .ofSet (folded f (.singleton c)) (!f.unicode)
  | set s => .ofSet s (!f.unicode)
  | assertion a => .assert a

/-- A single character, escaped or plain, outside of brackets. -/
def atom : Read Expr := do
  let f := (← get).flags
  let c ← next
  let a ← match c with
    | '\\' => escape classes
    | '.' => .set <$> complemented? f true (lineBreaks f)
    | '^' => pure (.assertion (lineStart f))
    | '$' => pure (.assertion (lineEnd f))
    | c => pure (.char c)
  return a.toExpr f

end Classes

/-- A part of a run, with its nesting. A flag directive is a part too, and the only one that cannot
be repeated. -/
structure Piece where
  expr : Expr
  depth : Nat := 0
  repeatable : Bool := true

/-! ### Bracketed sets -/

/-- A set and how deep its brackets and operations nest. -/
structure SetPiece where
  set : CharSet
  depth : Nat := 0

inductive SetOp where
  | intersection
  | difference
  | symmetricDifference

def SetOp.apply : SetOp → CharSet → CharSet → CharSet
  | intersection, s, t => s ∩ t
  | difference, s, t => s \ t
  | symmetricDifference, s, t => s.symmetricDiff t

/-- The named sets that are written `[:name:]` inside of brackets. -/
def namedSet? (name : String) : Option CharSet :=
  match name with
  | "alnum" => some (.ofRanges [(0x30, 0x39), (0x41, 0x5A), (0x61, 0x7A)])
  | "alpha" => some (.ofRanges [(0x41, 0x5A), (0x61, 0x7A)])
  | "ascii" => some (.range 0x00 0x7F)
  | "blank" => some (.ofRanges [(0x09, 0x09), (0x20, 0x20)])
  | "cntrl" => some (.ofRanges [(0x00, 0x1F), (0x7F, 0x7F)])
  | "digit" => some (.range 0x30 0x39)
  | "graph" => some (.range 0x21 0x7E)
  | "lower" => some (.range 0x61 0x7A)
  | "print" => some (.range 0x20 0x7E)
  | "punct" => some (.ofRanges [(0x21, 0x2F), (0x3A, 0x40), (0x5B, 0x60), (0x7B, 0x7E)])
  | "space" => some (.ofRanges [(0x09, 0x0D), (0x20, 0x20)])
  | "upper" => some (.range 0x41 0x5A)
  | "word" => some (.ofRanges [(0x30, 0x39), (0x41, 0x5A), (0x5F, 0x5F), (0x61, 0x7A)])
  | "xdigit" => some (.ofRanges [(0x30, 0x39), (0x41, 0x46), (0x61, 0x66)])
  | _ => none

/-- A named set at the front of a text, with whether it is negated and with the text after it. -/
def named? (text : List Char) : Option (CharSet × Bool × List Char) := do
  let '[' :: ':' :: text := text | none
  let negated := text.head? = some '^'
  let text := if negated then text.drop 1 else text
  let (name, ':' :: ']' :: rest) := text.span (· ≠ ':') | none
  return (← namedSet? (String.ofList name), negated, rest)

/-- The union of the items of a set. -/
def unionOf (items : List SetPiece) : SetPiece :=
  match items with
  | [] => ⟨∅, 0⟩
  | [item] => item
  | items => ⟨items.foldl (· ∪ ·.set) ∅, (items.map (·.depth)).foldl max 0 + 1⟩

/-- Applies the operation that waits for its right operand, if there is one. -/
def operate (f : Flags) (left : Option (SetOp × SetPiece)) (right : SetPiece) : SetPiece :=
  match left with
  | none => right
  | some (op, left) =>
    ⟨op.apply (folded f left.set) (folded f right.set), max left.depth right.depth + 1⟩

/-- A character or set between brackets. -/
def setAtom (classes : ClassTable) : Read Atom := do
  match ← next with
  | '\\' => escape classes
  | c => return .char c

/-- The first character after a dash that counts. Where blanks do not count, the sign that begins a
comment is passed over, but not the comment. -/
def afterDash (f : Flags) (rest : List Char) : Option Char :=
  if f.verbose then
    let rest := rest.dropWhile CharSet.blank.contains
    let rest := if rest.head? = some '#' then rest.drop 1 else rest
    (rest.dropWhile CharSet.blank.contains).head?
  else rest.head?

/-- Whether an item is the first end of a range: a dash makes a range unless a bracket or another dash
follows it. -/
def isRange (f : Flags) : List Char → Bool
  | '-' :: rest => afterDash f rest != some ']' && afterDash f rest != some '-'
  | _ => false

/-- The range between two characters, which are ASCII where characters are bytes. -/
def rangeItem? (f : Flags) (lo hi : Char) : Option SetPiece := do
  guard (lo ≤ hi)
  guard (f.unicode ∨ hi.toNat < 128)
  return ⟨.range lo.toNat hi.toNat, 0⟩

/-- The item that begins like this. -/
def itemFrom (classes : ClassTable) (first : Atom) : Read SetPiece := do
  let s ← get
  if isRange s.flags s.rest then
    discard next
    skipBlanks
    let .char lo := first | failure
    let .char hi ← setAtom classes | failure
    rangeItem? s.flags lo hi
  else
    match first with
    | .char c => rangeItem? s.flags c c
    | .set s => return ⟨s, 0⟩
    | .assertion _ => failure

/-- An item of a set: a single character, a range, or a set that an escape names. -/
def setItem (classes : ClassTable) : Read SetPiece := do
  let first ← setAtom classes
  skipBlanks
  itemFrom classes first

/-- Dashes at the front of a set stand for themselves. -/
def leadingDashes : Nat → List SetPiece → Read (List SetPiece)
  | 0, _ => failure
  | n + 1, items => do
    if (← accept '-') then
      skipBlanks
      leadingDashes n (⟨.singleton '-', 0⟩ :: items)
    else return items

/-- What comes after an opening bracket: whether the set is negated, and the items whose meaning
hangs on their being first. -/
def setStart : Read (Bool × List SetPiece) := do
  skipBlanks
  let negated ← accept '^'
  skipBlanks
  let items ← leadingDashes ((← get).rest.length + 1) []
  if items.isEmpty then
    if (← accept ']') then
      skipBlanks
      return (negated, [⟨.singleton ']', 0⟩])
  return (negated, items)

/-- What comes next in a set. -/
inductive SetToken where
  | opening
  | closing
  | operation (op : SetOp)
  /-- A named set, as the flags have it. -/
  | named (s : CharSet)
  | item

/-- What comes next in a set, with the text past it. An item is still to be read. -/
def nextInSet? (f : Flags) (text : List Char) : Option (SetToken × List Char) :=
  match text with
  | '[' :: rest =>
    match named? text with
    | some (named, negated, rest) => (adjusted? f negated named).map fun s => (.named s, rest)
    | none => some (.opening, rest)
  | ']' :: rest => some (.closing, rest)
  | '&' :: '&' :: rest => some (.operation .intersection, rest)
  | '-' :: '-' :: rest => some (.operation .difference, rest)
  | '~' :: '~' :: rest => some (.operation .symmetricDifference, rest)
  | text => some (.item, text)

def setToken : Read SetToken := takeFront nextInSet?

/-- The rest of a set, up to and with its closing bracket, given the operation that waits and the
items read so far. -/
def setRest (classes : ClassTable) : Nat → Option (SetOp × SetPiece) → List SetPiece → Read SetPiece
  | 0, _, _ => failure
  | n + 1, left, items => do
    skipBlanks
    let f := (← get).flags
    match ← setToken with
    | .named named => setRest classes n left (⟨named, 0⟩ :: items)
    | .opening =>
      let (negated, inner) ← setStart
      let inner ← setRest classes n none inner
      let set ← adjusted? f negated inner.set
      setRest classes n left (⟨set, inner.depth + 1⟩ :: items)
    | .operation op => setRest classes n (some (op, operate f left (unionOf items))) []
    | .closing => return operate f left (unionOf items)
    | .item => setRest classes n left ((← setItem classes) :: items)

/-- A bracketed set, past its opening bracket, and how deep it nests. -/
def bracketed (classes : ClassTable) : Read Piece := do
  let f := (← get).flags
  let (negated, items) ← setStart
  let inner ← setRest classes ((← get).rest.length + 1) none items
  let set ← adjusted? f negated inner.set
  return ⟨.ofSet set (!f.unicode), inner.depth + 1, true⟩

/-! ### Groups and repetitions -/

/-- How a group begins. -/
inductive GroupStart where
  /-- Flags that hold from here on. -/
  | directive (flags : Flags)
  /-- A group, numbered if it captures, whose contents are read under these flags. -/
  | group (index : Option Nat) (flags : Flags)

/-- The flags after `(?`, up to a colon or closing parenthesis, with the flags and dashes that were
read and that last character. -/
def flagList (f : Flags) (seen : List Char) (on : Bool) :
    List Char → Option (Flags × List Char × Char × List Char)
  | [] => none
  | c :: rest =>
    if c = ':' ∨ c = ')' then
      if seen.head? = some '-' then none else some (f, seen, c, rest)
    else if c ∈ seen then none
    else if c = '-' then flagList f (c :: seen) false rest
    else (f.set c on).bind fun f => flagList f (c :: seen) on rest

def isNameStart (c : Char) : Bool := c == '_' || CharSet.alphabetic.contains c

def isNameRest (c : Char) : Bool :=
  c == '_' || c == '.' || c == '[' || c == ']' || CharSet.alphabetic.contains c ||
    CharSet.numeric.contains c

/-- A group's name at the front of a text, with the text past the closing angle. -/
def groupName? (text : List Char) : Option (List Char × List Char) := do
  let (first :: more, _ :: rest) := text.span (· ≠ '>') | none
  guard (isNameStart first && more.all isNameRest)
  return (first :: more, rest)

/-- What follows an opening parenthesis. -/
inductive GroupHead where
  /-- Nothing, or the name of the group. -/
  | capture (name : Option (List Char))
  /-- Flags up to a colon. -/
  | plain (flags : Flags)
  /-- Flags up to the closing parenthesis. -/
  | directive (flags : Flags)

/-- The flags of a group or a directive, with the text past it. -/
def flagHead? (f : Flags) (text : List Char) : Option (GroupHead × List Char) := do
  let (flags, seen, stop, rest) ← flagList f [] true text
  if stop = ':' then return (.plain flags, rest)
  guard !seen.isEmpty
  return (.directive flags, rest)

/-- The name of a group, with the text past it. -/
def nameHead? (text : List Char) : Option (GroupHead × List Char) :=
  (groupName? text).map fun (name, rest) => (.capture (some name), rest)

/-- What follows an opening parenthesis, with the text past it. -/
def groupHead? (f : Flags) (text : List Char) : Option (GroupHead × List Char) :=
  match text with
  | '?' :: 'P' :: '<' :: text => nameHead? text
  | '?' :: '<' :: text => nameHead? text
  | '?' :: text => flagHead? f text
  | text => some (.capture none, text)

/-- Numbers a new capturing group. -/
def newGroup (name : Option (List Char)) : Read GroupStart := do
  let s ← get
  guard (name.all (· ∉ s.names))
  set { s with groups := s.groups + 1, names := name.toList ++ s.names }
  return .group (some s.groups) s.flags

def groupStart : Read GroupStart := do
  skipBlanks
  match ← takeFront groupHead? with
  | .capture name => newGroup name
  | .plain flags => return .group none flags
  | .directive flags => return .directive flags

/-- The bounds in a counted repetition past the lower one, up to and with the closing brace. -/
def boundsFrom (lo : Nat) : Read (Nat × Option Nat) := do
  let hi ←
    if (← accept ',') then
      skipBlanks
      if (← peek) = some '}' then pure none else some <$> count
    else pure (some lo)
  if (← next) ≠ '}' then failure
  guard (hi.all (lo ≤ ·))
  return (lo, hi)

/-- The bounds in a counted repetition, past its opening brace. -/
def bounds : Read (Nat × Option Nat) := do
  skipBlanks
  let lo ← count
  boundsFrom lo

/-- How often the repetition repeats that begins with this character. -/
def timesOf (op : Char) : Read (Nat × Option Nat) :=
  match op with
  | '?' => return (0, some 1)
  | '*' => return (0, none)
  | '+' => return (1, none)
  | _ => do
    let b ← bounds
    skipBlanks
    return b

/-- A repetition of `p`, past the character that begins it. -/
def repetition (op : Char) (p : Piece) : Read Piece := do
  guard p.repeatable
  let (lo, hi) ← timesOf op
  let short ← accept '?'
  return ⟨.repeated lo hi (short == (← get).flags.swapGreed) p.expr, p.depth + 1, true⟩

/-- One piece out of several, a level deeper unless there is only one. -/
def combined (build : List Expr → Expr) (pieces : List Piece) : Piece :=
  match pieces with
  | [p] => { p with repeatable := true }
  | _ => ⟨build (pieces.map (·.expr)), (pieces.map fun p => p.depth + 1).foldl max 0, true⟩

/-- The run made of these parts, the last one first. -/
def run (parts : List Piece) : Piece := combined .concat parts.reverse

/-- The choice between these branches, the last one first. -/
def choice (branches : List Piece) : Piece := combined .choose branches.reverse

/-- Reads up to the end of the enclosing group, given the branches and then the parts of the current
branch that were read so far, the last one first. -/
def group (classes : ClassTable) : Nat → List Piece → List Piece → Read Piece
  | 0, _, _ => failure
  | n + 1, branches, parts => do
    skipBlanks
    let some c ← peek | return choice (run parts :: branches)
    match c with
    | ')' => return choice (run parts :: branches)
    | '|' =>
      discard next
      group classes n (run parts :: branches) []
    | '(' =>
      discard next
      match ← groupStart with
      | .directive flags =>
        modify ({ · with flags })
        group classes n branches (⟨.empty, 0, false⟩ :: parts)
      | .group index inside =>
        let outside := (← get).flags
        modify ({ · with flags := inside })
        let p ← group classes n [] []
        if (← next) ≠ ')' then failure
        modify ({ · with flags := outside })
        let e := match index with
          | some i => .capture i p.expr
          | none => p.expr
        group classes n branches (⟨e, p.depth + 1, true⟩ :: parts)
    | '[' =>
      discard next
      group classes n branches ((← bracketed classes) :: parts)
    | _ =>
      if c = '?' ∨ c = '*' ∨ c = '+' ∨ c = '{' then
        discard next
        let p :: parts := parts | failure
        group classes n branches ((← repetition c p) :: parts)
      else
        let e ← atom classes
        group classes n branches (⟨e, 0, true⟩ :: parts)

end Reader

/-- What a text is read as, however deep it nests. -/
def Expr.reading? (classes : ClassTable) (text : List Char) : Option Reader.Piece := do
  let (p, s) ← (Reader.group classes (text.length + 1) [] []).run { rest := text }
  guard s.rest.isEmpty
  return p

/-- The regular expression that a text describes. -/
def Expr.read? (classes : ClassTable) (text : List Char) : Option Expr := do
  let p ← reading? classes text
  guard (p.depth ≤ Reader.maxDepth)
  return p.expr

end Packrat.Regex
