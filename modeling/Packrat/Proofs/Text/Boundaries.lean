import Packrat.Proofs.Text.Bytes

/-! Character boundaries.

An offset is a boundary when the text splits there into whole characters. The rest of a buffer
begins at a boundary and what lies between two offsets begins and ends at one
(`Buffer.suffix?_eq_some_iff`,
`Buffer.slice?_eq_some_iff`), so texts that follow each other in the buffer are one text
(`Buffer.slice?_append`). -/
namespace Packrat

theorem dropBytes?_append (front rest : List Char) :
    dropBytes? (utf8Length front) (front ++ rest) = some rest := by
  induction front with
  | nil => cases rest <;> rfl
  | cons c front ih =>
    have := c.utf8Size_pos
    rw [utf8Length_cons, List.cons_append, dropBytes?, if_neg (by omega), if_pos (by omega),
      Nat.add_sub_cancel_left, ih]

theorem dropBytes?_eq_some_iff {n : Nat} {text rest : List Char} :
    dropBytes? n text = some rest ↔ ∃ front, text = front ++ rest ∧ utf8Length front = n := by
  constructor
  · intro h
    induction text generalizing n with
    | nil =>
      rw [dropBytes?] at h
      by_cases hn : n = 0
      · rw [if_pos hn] at h
        exact ⟨[], Option.some.inj h, hn.symm⟩
      · rw [if_neg hn] at h
        cases h
    | cons c text ih =>
      rw [dropBytes?] at h
      by_cases hn : n = 0
      · rw [if_pos hn] at h
        exact ⟨[], Option.some.inj h, hn.symm⟩
      · rw [if_neg hn] at h
        split at h
        · obtain ⟨front, rfl, hfront⟩ := ih h
          exact ⟨c :: front, rfl, by rw [utf8Length_cons]; omega⟩
        · cases h
  · rintro ⟨front, rfl, rfl⟩
    exact dropBytes?_append front rest

theorem takeBytes?_eq_some_iff {n : Nat} {text front : List Char} :
    takeBytes? n text = some front ↔ ∃ rest, text = front ++ rest ∧ utf8Length front = n := by
  constructor
  · intro h
    induction text generalizing n front with
    | nil =>
      rw [takeBytes?] at h
      by_cases hn : n = 0
      · rw [if_pos hn] at h
        cases h
        exact ⟨[], rfl, hn.symm⟩
      · rw [if_neg hn] at h
        cases h
    | cons c text ih =>
      rw [takeBytes?] at h
      by_cases hn : n = 0
      · rw [if_pos hn] at h
        cases h
        exact ⟨c :: text, rfl, hn.symm⟩
      · rw [if_neg hn] at h
        split at h
        · obtain ⟨front, hfront, rfl⟩ := Option.map_eq_some_iff.mp h
          obtain ⟨rest, rfl, hlength⟩ := ih hfront
          exact ⟨rest, rfl, by rw [utf8Length_cons]; omega⟩
        · cases h
  · rintro ⟨rest, rfl, rfl⟩
    exact takeBytes?_append front rest

theorem boundary_iff {text : List Char} {pos : Nat} :
    Boundary text pos ↔ (dropBytes? pos text).isSome = true := by
  rw [Option.isSome_iff_exists]
  simp only [dropBytes?_eq_some_iff]
  exact exists_comm

instance (text : List Char) (pos : Nat) : Decidable (Boundary text pos) :=
  decidable_of_iff _ boundary_iff.symm

namespace Buffer
variable {b : Buffer} {start middle stop pos : Nat} {text more rest : List Char}

theorem suffix?_eq_some_iff : b.suffix? pos = some rest ↔ ∃ front, b.text = front ++ rest ∧
    utf8Length front = pos := by
  rw [suffix?_eq, dropBytes?_eq_some_iff]

/-- What lies between two offsets is what begins at the one and ends at the other. -/
theorem slice?_eq_some_iff : b.slice? start stop = some text ↔
    ∃ front rest, b.text = front ++ text ++ rest ∧ utf8Length front = start ∧ start +
    utf8Length text = stop := by
  constructor
  · intro h
    rw [slice?] at h
    split at h
    · obtain ⟨suffix, hsuffix, htake⟩ := Option.bind_eq_some_iff.mp h
      obtain ⟨front, hfront, hstart⟩ := suffix?_eq_some_iff.mp hsuffix
      obtain ⟨rest, rfl, hlength⟩ := takeBytes?_eq_some_iff.mp htake
      exact ⟨front, rest, by rw [hfront, List.append_assoc], hstart, by omega⟩
    · cases h
  · rintro ⟨front, rest, htext, hstart, rfl⟩
    exact slice?_of_append
      (suffix?_eq_some_iff.mpr ⟨front, by rw [htext, List.append_assoc], hstart⟩)

theorem boundary_start (h : b.slice? start stop = some text) : Boundary b.text start := by
  obtain ⟨front, rest, htext, hstart, _⟩ := slice?_eq_some_iff.mp h
  exact ⟨front, text ++ rest, by rw [htext, List.append_assoc], hstart⟩

theorem boundary_stop (h : b.slice? start stop = some text) : Boundary b.text stop := by
  obtain ⟨front, rest, htext, rfl, rfl⟩ := slice?_eq_some_iff.mp h
  exact ⟨front ++ text, rest, htext, utf8Length_append ..⟩

/-- At a boundary nothing lies between the offset and itself. -/
theorem slice?_refl (h : Boundary b.text pos) : b.slice? pos pos = some [] := by
  obtain ⟨front, rest, htext, hpos⟩ := h
  exact slice?_eq_some_iff.mpr ⟨front, rest, by rw [htext, List.append_nil], hpos, rfl⟩

/-- Two texts that follow each other in the buffer are one. -/
theorem slice?_append (h : b.slice? start middle = some text)
    (hmore : b.slice? middle stop = some more) : b.slice? start stop = some (text ++ more) := by
  obtain ⟨front, rest, htext, hstart, hmiddle⟩ := slice?_eq_some_iff.mp h
  obtain ⟨front', rest', htext', hmiddle', hstop⟩ := slice?_eq_some_iff.mp hmore
  -- Both texts are cut at the same offset, so what is in front of it is the same.
  have hrest : some (more ++ rest') = some rest := by
    rw [← dropBytes?_append front' (more ++ rest'), ← dropBytes?_append (front ++ text) rest,
      ← htext, ← List.append_assoc, ← htext', hmiddle', utf8Length_append, hstart, hmiddle]
  cases hrest
  refine slice?_eq_some_iff.mpr ⟨front, rest', ?_, hstart, ?_⟩
  · rw [htext]
    simp only [List.append_assoc]
  · rw [utf8Length_append]
    omega

end Buffer

end Packrat
