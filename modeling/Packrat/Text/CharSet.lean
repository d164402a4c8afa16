/-! Sets of characters, as the code point ranges that make them up.

The ranges of a set built here ascend, and no two of them overlap or touch, so
two sets with the same members have the same ranges and equality is decided by
comparing lists. Touching means that nothing lies between: the code points
U+D7FF and U+E000 touch, since those between them are not characters. -/
namespace Packrat

structure CharSet where
  ranges : List (Nat × Nat)
deriving DecidableEq, Repr

namespace CharSet

/-- The greatest code point. -/
def lastCode : Nat := 0x10FFFF

/-- The code point of the next character. -/
def nextCode (n : Nat) : Nat := if n = 0xD7FF then 0xE000 else n + 1

/-- The code point of the previous character. -/
def prevCode (n : Nat) : Nat := if n = 0xE000 then 0xD7FF else n - 1

instance : EmptyCollection CharSet := ⟨⟨[]⟩⟩

/-- The characters with code points from `lo` to `hi`, both included. -/
def range (lo hi : Nat) : CharSet := ⟨if lo ≤ hi then [(lo, hi)] else []⟩

def singleton (c : Char) : CharSet := ⟨[(c.toNat, c.toNat)]⟩

/-- Looks a code point up in ascending ranges, stopping at the first one past it. -/
def hasCode (n : Nat) : List (Nat × Nat) → Bool
  | [] => false
  | (lo, hi) :: rest => if n < lo then false else n ≤ hi || hasCode n rest

def contains (s : CharSet) (c : Char) : Bool := hasCode c.toNat s.ranges

instance : Membership Char CharSet where
  mem s c := s.contains c = true

instance (c : Char) (s : CharSet) : Decidable (c ∈ s) :=
  inferInstanceAs (Decidable (s.contains c = true))

/-- Puts one range into ascending ranges, merging it with those that it meets. -/
def insertRange (lo hi : Nat) : List (Nat × Nat) → List (Nat × Nat)
  | [] => [(lo, hi)]
  | (a, b) :: rest =>
    if nextCode hi < a then (lo, hi) :: (a, b) :: rest
    else if nextCode b < lo then (a, b) :: insertRange lo hi rest
    else insertRange (min lo a) (max hi b) rest

/-- The set of the listed ranges, in any order. -/
def ofRanges (l : List (Nat × Nat)) : CharSet :=
  ⟨l.foldl (fun acc r => insertRange r.1 r.2 acc) []⟩

instance : Union CharSet where
  union s t := ⟨t.ranges.foldl (fun acc r => insertRange r.1 r.2 acc) s.ranges⟩

/-- The ranges between the given ones, from `lo` up to the last code point. -/
def gaps (lo : Nat) : List (Nat × Nat) → List (Nat × Nat)
  | [] => if lo ≤ lastCode then [(lo, lastCode)] else []
  | (a, b) :: rest =>
    if lo < a then (lo, prevCode a) :: gaps (nextCode b) rest else gaps (nextCode b) rest

/-- The characters that are not in the set. -/
def complement (s : CharSet) : CharSet := ⟨gaps 0 s.ranges⟩

instance : Inter CharSet where
  inter s t := (s.complement ∪ t.complement).complement

instance : SDiff CharSet where
  sdiff s t := (s.complement ∪ t).complement

/-- The characters in exactly one of the two sets. -/
def symmetricDiff (s t : CharSet) : CharSet := (s ∪ t) \ (s ∩ t)

/-- Whether the set has exactly one member. -/
def isSingleton (s : CharSet) : Bool :=
  match s.ranges with
  | [(lo, hi)] => lo == hi
  | _ => false

/-- The characters with the Unicode property White_Space. -/
def blank : CharSet := CharSet.mk
  [(0x9, 0xD), (0x20, 0x20), (0x85, 0x85), (0xA0, 0xA0), (0x1680, 0x1680), (0x2000, 0x200A),
   (0x2028, 0x2029), (0x202F, 0x202F), (0x205F, 0x205F), (0x3000, 0x3000)]

/-! ### The sets of bytes that are named most often -/

def asciiDigit : CharSet := .range 0x30 0x39

def asciiBlank : CharSet := .ofRanges [(0x09, 0x0D), (0x20, 0x20)]

def asciiWord : CharSet := .ofRanges [(0x30, 0x39), (0x41, 0x5A), (0x5F, 0x5F), (0x61, 0x7A)]

end CharSet

end Packrat
