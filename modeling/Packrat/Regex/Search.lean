import Packrat.Regex.Automaton
import Packrat.Text.Buffer

/-! Searching a text for the preferred match.

All ways to match go through the text side by side, as a list of states in order of
preference. A state occurs in the list at most once: a second way to reach it could
only do later what the first way does. A way that accepts ends those after it, and
is itself overtaken only by one before it. While nothing has accepted, each place
of the text is also a new start, after all others. A match takes whole characters of
the text (`Automaton.search_boundary`). -/
namespace Packrat.Regex.Automaton

/-- The states reached at one place. -/
structure Reached where
  /-- Which states were visited. -/
  seen : Array Bool
  /-- The visited states that take a character or accept, the last one first. -/
  waiting : List Instr

namespace Reached

def start (m : Automaton) : Reached := ⟨Array.replicate m.code.size false, []⟩

/-- Visits a state and all that it leads to without taking a character. The depth is bounded by the
number of states, since none is visited twice. -/
def visit (m : Automaton) (before after : Option Char) : Nat → Reached → Nat → Reached
  | 0, r, _ => r
  | depth + 1, r, state =>
    if r.seen[state]? = some false then
      let r := { r with seen := r.seen.setIfInBounds state true }
      match m.code[state]? with
      | some (.fork first second) =>
        visit m before after depth (visit m before after depth r first) second
      | some (.check a next) => if a.holds before after then visit m before after depth r next else r
      | some i => { r with waiting := i :: r.waiting }
      | none => r
    else r

end Reached

/-- The states in order of preference that are reached at one place from these. -/
def reached (m : Automaton) (before after : Option Char) (states : List Nat) : List Instr :=
  (states.foldl (Reached.visit m before after m.code.size) (.start m)).waiting.reverse

/-- The states to go on from after a character, in order of preference, and whether a way has
accepted before that character. -/
def advance (c : Option Char) : List Instr → List Nat × Bool
  | [] => ([], false)
  | .accept :: _ => ([], true)
  | .take s next :: rest =>
    let (states, accepted) := advance c rest
    (if c.any s.contains then next :: states else states, accepted)
  | _ :: rest => advance c rest

/-- Goes on at `place`, a number of bytes into the text, from `states`; `found` is where the preferred
way so far has accepted. -/
def searchFrom (m : Automaton) (before : Option Char) (place : Nat) (states : List Nat)
    (found : Option Nat) : List Char → Option Nat
  | [] =>
    let states := if found.isNone then states ++ [m.start] else states
    if (advance none (m.reached before none states)).2 then some place else found
  | c :: rest =>
    let states := if found.isNone then states ++ [m.start] else states
    let (states, accepted) := advance (some c) (m.reached before (some c) states)
    let found := if accepted then some place else found
    if states.isEmpty && (found.isSome || m.anchored) then found
    else searchFrom m (some c) (place + c.utf8Size) states found rest

/-- The end of the preferred match in a text, counted in bytes. The preferred match begins leftmost. -/
def search (m : Automaton) (text : List Char) : Option Nat := m.searchFrom none 0 [] none text

private theorem accepted_boundary {front text : List Char} {found : Option Nat}
    (hfound : ∀ k, found = some k → Boundary (front ++ text) k) (accepted : Bool) :
    ∀ k, (if accepted then some (utf8Length front) else found) = some k →
      Boundary (front ++ text) k := by
  intro k hk
  split at hk
  · cases hk
    exact ⟨front, text, rfl, rfl⟩
  · exact hfound k hk

/-- A search that has come to the end of a front ends at a boundary of the whole text. -/
theorem searchFrom_boundary (m : Automaton) (front text : List Char) (before : Option Char)
    (states : List Nat)
    (found : Option Nat) {n : Nat} (hfound : ∀ k, found = some k → Boundary (front ++ text) k)
    (h : m.searchFrom before (utf8Length front) states found text = some n) :
    Boundary (front ++ text) n := by
  induction text generalizing front before states found with
  | nil =>
    rw [searchFrom] at h
    exact accepted_boundary hfound _ n h
  | cons c rest ih =>
    simp only [searchFrom] at h
    generalize (if found.isNone then states ++ [m.start] else states) = tried at h
    generalize advance (some c) (m.reached before (some c) tried) = step at h
    have hkept := accepted_boundary hfound step.2
    generalize (if step.2 then some (utf8Length front) else found) = found at h hkept
    split at h
    · exact hkept n h
    · have hplace : utf8Length (front ++ [c]) = utf8Length front + c.utf8Size := utf8Length_append ..
      rw [← hplace] at h
      rw [List.append_cons] at hkept ⊢
      exact ih _ _ _ _ hkept h

/-- A match ends at a boundary of the text. -/
theorem search_boundary {m : Automaton} {text : List Char} {n : Nat} (h : m.search text = some n) :
    Boundary text n :=
  m.searchFrom_boundary [] text none [] none nofun h

end Packrat.Regex.Automaton
