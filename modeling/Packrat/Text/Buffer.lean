/-! A text addressed by byte offsets.

Offsets count bytes of the UTF-8 form. An offset is a character boundary when it lies
between two characters or at an end, and only from a boundary can the text be read
on. The rests of the text are kept in a table by offset, so that reading on takes
no walk from the start. -/
namespace Packrat

/-- The number of bytes in the UTF-8 form. -/
def utf8Length : List Char → Nat
  | [] => 0
  | c :: rest => c.utf8Size + utf8Length rest

@[simp] theorem utf8Length_nil : utf8Length [] = 0 := rfl

@[simp] theorem utf8Length_cons (c : Char) (rest : List Char) :
    utf8Length (c :: rest) = c.utf8Size + utf8Length rest := rfl

theorem utf8Length_append (front rest : List Char) :
    utf8Length (front ++ rest) = utf8Length front + utf8Length rest := by
  induction front with
  | nil => rw [List.nil_append, utf8Length_nil, Nat.zero_add]
  | cons c front ih => rw [List.cons_append, utf8Length_cons, utf8Length_cons, ih, Nat.add_assoc]

/-- So many bytes are whole characters that the text begins with. -/
def Boundary (text : List Char) (pos : Nat) : Prop :=
  ∃ front rest, text = front ++ rest ∧ utf8Length front = pos

theorem Boundary.le {text : List Char} {pos : Nat} (h : Boundary text pos) : pos ≤ utf8Length text := by
  obtain ⟨front, rest, rfl, rfl⟩ := h
  rw [utf8Length_append]
  exact Nat.le_add_right ..

/-- What is left after so many bytes, if they are whole characters of the text. -/
def dropBytes? (n : Nat) : List Char → Option (List Char)
  | [] => if n = 0 then some [] else none
  | c :: rest =>
    if n = 0 then some (c :: rest)
    else if c.utf8Size ≤ n then dropBytes? (n - c.utf8Size) rest
    else none

/-- The first so many bytes, if they are whole characters of the text. -/
def takeBytes? (n : Nat) : List Char → Option (List Char)
  | [] => if n = 0 then some [] else none
  | c :: rest =>
    if n = 0 then some []
    else if c.utf8Size ≤ n then (takeBytes? (n - c.utf8Size) rest).map (c :: ·)
    else none

/-- The rest of a text by offset, with nothing where there is no boundary. -/
def suffixTable : List Char → List (Option (List Char))
  | [] => [some []]
  | c :: rest => some (c :: rest) :: (List.replicate (c.utf8Size - 1) none ++ suffixTable rest)

structure Buffer where
  text : List Char
  suffixes : Array (Option (List Char))
  suffixes_eq : suffixes = (suffixTable text).toArray

namespace Buffer

def ofList (text : List Char) : Buffer := ⟨text, _, rfl⟩

def ofString (text : String) : Buffer := ofList text.toList

/-- The length in bytes. -/
def size (b : Buffer) : Nat := b.suffixes.size - 1

/-- The text from an offset on, if the offset is a boundary. -/
def suffix? (b : Buffer) (pos : Nat) : Option (List Char) := b.suffixes[pos]?.join

/-- The text between two offsets, if both are boundaries. -/
def slice? (b : Buffer) (start stop : Nat) : Option (List Char) :=
  if start ≤ stop then (b.suffix? start).bind (takeBytes? (stop - start)) else none

/-- At most so many characters from an offset on; none where there is no boundary. -/
def preview (b : Buffer) (chars pos : Nat) : List Char := ((b.suffix? pos).getD []).take chars

end Buffer

theorem length_suffixTable (text : List Char) :
    (suffixTable text).length = utf8Length text + 1 := by
  induction text with
  | nil => rfl
  | cons c rest ih =>
    have := c.utf8Size_pos
    simp only [suffixTable, utf8Length, List.length_cons, List.length_append, List.length_replicate, ih]
    omega

/-- The table holds at each offset what is left after that many bytes. -/
theorem getElem?_suffixTable (text : List Char) (pos : Nat) :
    (suffixTable text)[pos]?.join = dropBytes? pos text := by
  induction text generalizing pos with
  | nil => cases pos <;> simp [suffixTable, dropBytes?]
  | cons c rest ih =>
    have := c.utf8Size_pos
    cases pos with
    | zero => simp [suffixTable, dropBytes?]
    | succ n =>
      rw [suffixTable, List.getElem?_cons_succ, dropBytes?, if_neg (by omega)]
      split
      · rw [List.getElem?_append_right (by simp; omega), ← ih]
        congr 2
        simp; omega
      · rw [List.getElem?_append_left (by simp; omega), List.getElem?_replicate, if_pos (by omega)]
        rfl

theorem Buffer.size_eq (b : Buffer) : b.size = utf8Length b.text := by
  simp [size, b.suffixes_eq, length_suffixTable]

theorem Buffer.suffix?_eq (b : Buffer) (pos : Nat) : b.suffix? pos = dropBytes? pos b.text := by
  rw [suffix?, b.suffixes_eq, List.getElem?_toArray, getElem?_suffixTable]

end Packrat
