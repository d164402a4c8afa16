import Packrat.Text.Buffer

/-! Bytes and characters.

The rest of a buffer from a boundary on takes up the bytes that are left there
(`Buffer.suffix?_length`), and a text in front of the rest is what lies between the two
offsets (`Buffer.slice?_of_append`). -/
namespace Packrat

theorem utf8ByteSize_eq (text : String) : text.utf8ByteSize = utf8Length text.toList := by
  suffices h : ∀ l : List Char, (String.ofList l).utf8ByteSize = utf8Length l by
    simpa using h text.toList
  intro l
  induction l with
  | nil => simp
  | cons c rest ih =>
    rw [← List.singleton_append, String.ofList_append, String.utf8ByteSize_append, ih]
    simp

theorem dropBytes?_length {n : Nat} {text rest : List Char} (h : dropBytes? n text = some rest) :
    n + utf8Length rest = utf8Length text := by
  induction text generalizing n with
  | nil =>
    by_cases hn : n = 0
    · simp_all [dropBytes?]
    · simp [dropBytes?, hn] at h
  | cons c text ih =>
    rw [dropBytes?] at h
    split at h
    · simp_all
    · split at h
      · have := ih h
        rw [utf8Length_cons]
        omega
      · cases h

theorem takeBytes?_append (text rest : List Char) :
    takeBytes? (utf8Length text) (text ++ rest) = some text := by
  induction text with
  | nil => cases rest <;> rfl
  | cons c text ih =>
    have := c.utf8Size_pos
    rw [utf8Length_cons, List.cons_append, takeBytes?, if_neg (by omega), if_pos (by omega),
      Nat.add_sub_cancel_left, ih]
    rfl

theorem takeBytes?_le {n : Nat} {text front : List Char} (h : takeBytes? n text = some front) :
    n ≤ utf8Length text := by
  induction text generalizing n front with
  | nil =>
    rw [takeBytes?] at h
    split at h
    · simp_all
    · cases h
  | cons c text ih =>
    rw [takeBytes?] at h
    split at h
    · omega
    · split at h
      · obtain ⟨front, hfront, _⟩ := Option.map_eq_some_iff.mp h
        have := ih hfront
        rw [utf8Length_cons]
        omega
      · cases h

namespace Buffer

theorem suffix?_length {b : Buffer} {pos : Nat} {rest : List Char} (h : b.suffix? pos = some rest) :
    pos + utf8Length rest = b.size := by
  rw [suffix?_eq] at h
  rw [size_eq, dropBytes?_length h]

/-- The text that the rest of the buffer begins with is what lies between its two ends. -/
theorem slice?_of_append {b : Buffer} {pos : Nat} {text rest : List Char}
    (h : b.suffix? pos = some (text ++ rest)) :
    b.slice? pos (pos + utf8Length text) = some text := by
  rw [slice?, if_pos (Nat.le_add_right _ _), h, Option.bind_some, Nat.add_sub_cancel_left,
    takeBytes?_append]

/-- Nothing lies between an offset and itself. -/
theorem slice?_self {b : Buffer} {pos : Nat} {text : List Char} (h : b.slice? pos pos = some text) :
    text = [] := by
  rw [slice?, if_pos (Nat.le_refl _), Nat.sub_self] at h
  obtain ⟨rest, _, htake⟩ := Option.bind_eq_some_iff.mp h
  cases rest <;> exact (Option.some.inj htake).symm

theorem slice?_stop_le {b : Buffer} {start stop : Nat} {text : List Char}
    (h : b.slice? start stop = some text) : stop ≤ b.size := by
  rw [slice?] at h
  split at h
  · obtain ⟨rest, hrest, htake⟩ := Option.bind_eq_some_iff.mp h
    have := takeBytes?_le htake
    have := suffix?_length hrest
    omega
  · cases h

end Buffer

end Packrat
