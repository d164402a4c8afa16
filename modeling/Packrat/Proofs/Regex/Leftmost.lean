import Packrat.Proofs.Regex.Preference

/-! A search finds the leftmost match, and of those that begin there the preferred one.

At one place a search visits the states in the order in which going back would try them, but none of
them twice (`visit_outcome`); what it is left with there comes to what the first of its states comes
to that has a match (`reached_outcome`). So through the whole text it has found what the states of
the place come to, or else what was found before, or else the leftmost match from there on
(`searchFrom_eq`). -/
namespace Packrat.Regex.Automaton
variable {m : Automaton} {before : Option Char} {path : List Nat} {state : Nat} {text : List Char}
  {r : Reached} {depth : Nat}

/-- What the states reached so far come to: the match of the first one that has any. -/
def Reached.outcome (m : Automaton) (text : List Char) (r : Reached) : Option Nat :=
  r.waiting.reverse.findSome? (m.leafEnd text)

/-- The states that were visited, when those on the path are not yet done: all ways from any other
one go through the path, unless a match is found already. -/
structure Visited (m : Automaton) (before : Option Char) (text : List Char) (path : List Nat)
    (r : Reached) : Prop where
  size : r.seen.size = m.code.size
  onPath : ∀ x ∈ path, r.seen[x]? = some true
  tried : r.outcome m text = none → ∀ x, r.seen[x]? = some true → x ∉ path →
    ¬ m.Way before text path x

/-- The states that a path can go on to. -/
theorem mem_of_length_le {n : Nat} (hnodup : path.Nodup) (hlt : ∀ x ∈ path, x < n)
    (hlength : n ≤ path.length) {x : Nat} (hx : x < n) : x ∈ path := by
  have hsubperm : path.Subperm (List.range n) := List.subperm_of_subset hnodup fun y hy =>
    List.mem_range.mpr (hlt y hy)
  exact (hsubperm.perm_of_length_le (by rwa [List.length_range])).mem_iff.mpr
    (List.mem_range.mpr hx)

namespace Visited

theorem start (m : Automaton) (before : Option Char) (text : List Char) :
    m.Visited before text [] (.start m) where
  size := Array.size_replicate
  onPath := nofun
  tried _ x hx := by simp [Reached.start, Array.getElem?_replicate] at hx

theorem lt_size (h : m.Visited before text path r) {x : Nat} (hx : x ∈ path) : x < m.code.size := by
  rw [← h.size]
  exact (Array.getElem?_eq_some_iff.mp (h.onPath x hx)).1

/-- A state that is not new comes to nothing that was not found. -/
theorem or_preferred (h : m.Visited before text path r) (hseen : r.seen[state]? ≠ some false) :
    (r.outcome m text).or (m.preferred before path state text) = r.outcome m text := by
  cases hnone : r.outcome m text
  case some => rfl
  rw [Option.none_or]
  by_cases hpath : state ∈ path
  · exact preferred_of_mem hpath
  by_cases hlt : state < r.seen.size
  · have htrue : r.seen[state]? = some true := by
      rw [Array.getElem?_eq_getElem hlt] at hseen ⊢
      cases hvalue : r.seen[state] <;> simp_all
    rw [← Option.not_isSome_iff_eq_none, isSome_preferred]
    exact h.tried hnone state htrue hpath
  · exact preferred_of_none (Array.getElem?_eq_none (by rw [← h.size]; omega))

/-- A new state is visited and put on the path. -/
theorem enter (h : m.Visited before text path r) (hseen : r.seen[state]? = some false) :
    m.Visited before text (state :: path) { r with seen := r.seen.setIfInBounds state true } := by
  have hlt : state < r.seen.size := (Array.getElem?_eq_some_iff.mp hseen).1
  have hset : ∀ x, (r.seen.setIfInBounds state true)[x]? = if state = x then some true
      else r.seen[x]? := by
    intro x
    rw [Array.getElem?_setIfInBounds]
    split <;> simp_all
  refine ⟨(Array.size_setIfInBounds ..).trans h.size, fun x hx => ?_,
    fun hnone x hx hpath hway => ?_⟩
  · rw [hset]
    split
    · rfl
    · exact h.onPath x ((List.mem_cons.mp hx).resolve_left fun heq => absurd heq.symm ‹_›)
  · obtain ⟨hne, hpath⟩ := List.ne_and_not_mem_of_not_mem_cons hpath
    rw [hset, if_neg fun heq => hne heq.symm] at hx
    exact h.tried hnone x hx hpath (hway.anti (List.subset_cons_self ..))

/-- A state whose ways were all tried is taken off the path. -/
theorem leave (h : m.Visited before text (state :: path) r) (hnew : state ∉ path)
    (htried : r.outcome m text = none → m.preferred before path state text = none) :
    m.Visited before text path r where
  size := h.size
  onPath x hx := h.onPath x (List.mem_cons_of_mem _ hx)
  tried hnone x hx hpath hway := by
    have hstate : ¬ m.Way before text path state := by
      rw [← isSome_preferred, htried hnone]
      exact Bool.false_ne_true
    by_cases heq : x = state
    · exact hstate (heq ▸ hway)
    · exact h.tried hnone x hx (fun hmem => (List.mem_cons.mp hmem).elim heq hpath)
        (hway.avoid hstate hnew)

theorem outcome_wait {i : Instr} {r' : Reached} (hwaiting : r'.waiting = i :: r.waiting) :
    r'.outcome m text = (r.outcome m text).or (m.leafEnd text i) := by
  simp [Reached.outcome, hwaiting, List.findSome?_append]

theorem wait (h : m.Visited before text path r) (i : Instr) :
    m.Visited before text path { r with waiting := i :: r.waiting } where
  size := h.size
  onPath := h.onPath
  tried hnone := h.tried (Option.or_eq_none_iff.mp ((outcome_wait rfl).symm.trans hnone)).1

end Visited

/-- A state that is visited comes to what it would come to by going back, unless something was found
already. -/
theorem visit_outcome (h : m.Visited before text path r) (hnodup : path.Nodup)
    (hdepth : m.code.size ≤ depth + path.length) (state : Nat) :
    (Reached.visit m before text.head? depth r state).outcome m text =
      (r.outcome m text).or (m.preferred before path state text) ∧
    m.Visited before text path (Reached.visit m before text.head? depth r state) := by
  induction depth generalizing r path state with
  | zero =>
    refine ⟨(h.or_preferred fun hseen => ?_).symm, h⟩
    have hlt : state < m.code.size := h.size ▸ (Array.getElem?_eq_some_iff.mp hseen).1
    have hpath := mem_of_length_le hnodup (fun x hx => h.lt_size hx) (by omega) hlt
    cases hseen.symm.trans (h.onPath state hpath)
  | succ depth ih =>
    rw [Reached.visit]
    by_cases hseen : r.seen[state]? = some false
    · rw [if_pos hseen]
      have hnew : state ∉ path := fun hpath => by cases hseen.symm.trans (h.onPath state hpath)
      have hlt : state < m.code.size := h.size ▸ (Array.getElem?_eq_some_iff.mp hseen).1
      have hdeeper : m.code.size ≤ depth + (state :: path).length := by
        rw [List.length_cons]
        omega
      have hentered := h.enter hseen
      have hin := fun {r : Reached} (h : m.Visited before text (state :: path) r) =>
        ih h (List.nodup_cons.mpr ⟨hnew, hnodup⟩) hdeeper
      -- What the ways from the state come to is what is to be shown; then it goes off the path.
      suffices hways : ∀ r', m.Visited before text (state :: path) r' →
          r'.outcome m text = (r.outcome m text).or (m.preferred before path state text) →
          r'.outcome m text = (r.outcome m text).or (m.preferred before path state text) ∧
            m.Visited before text path r' by
        dsimp only
        obtain ⟨i, hi⟩ : ∃ i, m.code[state]? = some i := ⟨_, Array.getElem?_eq_getElem hlt⟩
        rw [hi]
        cases i with
        | fork first second =>
          obtain ⟨hfirst, hvisited⟩ := hin hentered first
          obtain ⟨hsecond, hvisited⟩ := hin hvisited second
          refine hways _ hvisited ?_
          rw [hsecond, hfirst, preferred_fork hnew hi, Option.or_assoc]
          rfl
        | check a next =>
          dsimp only
          obtain ⟨hnext, hvisited⟩ := hin hentered next
          by_cases hholds : a.holds before text.head? = true
          · rw [if_pos hholds]
            refine hways _ hvisited ?_
            rw [hnext, preferred_check hnew hi, if_pos hholds]
            rfl
          · rw [if_neg hholds]
            refine hways _ hentered ?_
            rw [preferred_check hnew hi, if_neg hholds, Option.or_none]
            rfl
        | take s next =>
          refine hways _ (hentered.wait (.take s next)) ?_
          dsimp only
          rw [Visited.outcome_wait (r := r) rfl, preferred_leaf hnew hi (by simp) (by simp)]
        | accept =>
          refine hways _ (hentered.wait .accept) ?_
          dsimp only
          rw [Visited.outcome_wait (r := r) rfl, preferred_leaf hnew hi (by simp) (by simp)]
      intro r' hvisited houtcome
      refine ⟨houtcome, hvisited.leave hnew fun hnone => ?_⟩
      rw [houtcome, Option.or_eq_none_iff] at hnone
      exact hnone.2
    · rw [if_neg hseen]
      exact ⟨(h.or_preferred hseen).symm, h⟩

/-! ### The search -/

/-- The length of the preferred match from the first of some states that has any. -/
def foremost (m : Automaton) (before : Option Char) (text : List Char)
    (states : List Nat) : Option Nat :=
  states.findSome? fun state => m.preferred before [] state text

theorem foremost_concat (m : Automaton) (before : Option Char) (text : List Char)
    (states : List Nat) (state : Nat) : m.foremost before text (states ++ [state]) =
      (m.foremost before text states).or (m.preferred before [] state text) := by
  rw [foremost, List.findSome?_append, List.findSome?_singleton]
  rfl

theorem foremost_cons (m : Automaton) (before : Option Char) (text : List Char) (state : Nat)
    (states : List Nat) : m.foremost before text (state :: states) =
      (m.preferred before [] state text).or (m.foremost before text states) := by
  rw [foremost, List.findSome?_cons]
  cases m.preferred before [] state text <;> rfl

/-- The states reached at a place come to what the given states come to. -/
theorem reached_outcome (m : Automaton) (before : Option Char) (text : List Char)
    (states : List Nat) :
    (m.reached before text.head? states).findSome?
      (m.leafEnd text) = m.foremost before text states := by
  have hfold : ∀ (states : List Nat) (r : Reached), m.Visited before text [] r →
      (states.foldl (Reached.visit m before text.head? m.code.size) r).outcome m text =
        (r.outcome m text).or (m.foremost before text states) := by
    intro states
    induction states with
    | nil => exact fun r _ => (Option.or_none).symm
    | cons state rest ih =>
      intro r h
      obtain ⟨houtcome, hvisited⟩ := visit_outcome h List.nodup_nil (Nat.le_add_right _ _) state
      rw [List.foldl_cons, ih _ hvisited, houtcome, Option.or_assoc, foremost_cons]
  exact hfold states _ (.start m before text)

theorem advance_outcome (m : Automaton) (c : Char) (rest : List Char) (leaves : List Instr) :
    leaves.findSome? (m.leafEnd (c :: rest)) =
      ((m.foremost (some c) rest (advance (some c) leaves).1).map (c.utf8Size + ·)).or
        (if (advance (some c) leaves).2 then some 0 else none) := by
  induction leaves with
  | nil => rfl
  | cons i leaves ih =>
    rw [List.findSome?_cons]
    cases i with
    | accept => rfl
    | check a next => exact ih
    | fork first second => exact ih
    | take s next =>
      simp only [leafEnd, advance, Option.any_some]
      by_cases hs : s.contains c = true
      · rw [if_pos hs, if_pos hs, foremost_cons, ih]
        cases m.preferred (some c) [] next rest <;> rfl
      · rw [if_neg hs, if_neg hs]
        exact ih

theorem advance_none (m : Automaton) (leaves : List Instr) :
    leaves.findSome? (m.leafEnd []) = if (advance none leaves).2 then some 0 else none := by
  induction leaves with
  | nil => rfl
  | cons i leaves ih =>
    rw [List.findSome?_cons]
    cases i with
    | accept => rfl
    | check a next => exact ih
    | fork first second => exact ih
    | take s next => simpa [advance, leafEnd] using ih

/-- The end of the leftmost match in a text, and of those that begin there the preferred one. -/
def leftmost (m : Automaton) (before : Option Char) : List Char → Option Nat
  | [] => m.preferred before [] m.start []
  | c :: rest =>
    (m.preferred before [] m.start (c :: rest)).or
      ((m.leftmost (some c) rest).map (c.utf8Size + ·))

theorem leftmost_anchored (hanchored : ∀ c rest, m.preferred (some c) [] m.start rest = none)
    (c : Char) (text : List Char) : m.leftmost (some c) text = none := by
  induction text generalizing c with
  | nil => exact hanchored c []
  | cons d rest ih => rw [leftmost, hanchored, ih, Option.map_none, Option.or_none]

/-- From some states on a search finds what they come to, or else what it has found already, or else
the leftmost match from here on. -/
theorem searchFrom_eq
    (hanchored : m.anchored = true → ∀ c rest, m.preferred (some c) [] m.start rest = none)
    (place : Nat) (states : List Nat) (found : Option Nat) (text : List Char) :
    m.searchFrom before place states found text =
      ((m.foremost before text states).map (place + ·)).or
        (found.or ((m.leftmost before text).map (place + ·))) := by
  induction text generalizing before place states found with
  | nil =>
    -- A place comes to what its states come to, a new start among them while nothing is found.
    have hplace : ∀ states found,
        (if (advance none (m.reached before none states)).2 then some place else found) =
        ((m.foremost before [] states).map (place + ·)).or found := by
      intro states found
      rw [← reached_outcome, advance_none, List.head?_nil]
      split <;> simp_all
    unfold searchFrom
    cases found with
    | none =>
      simp only [Option.isNone_none, if_true]
      rw [hplace, foremost_concat, leftmost, Option.or_none, Option.none_or, Option.map_or]
    | some k =>
      simp only [Option.isNone_some, Bool.false_eq_true, if_false]
      rw [hplace, Option.some_or]
  | cons c rest ih =>
    have hon : ∀ nexts found, (if nexts.isEmpty && (found.isSome || m.anchored) then found
        else m.searchFrom (some c) (place + c.utf8Size) nexts found rest) =
        ((m.foremost (some c) rest nexts).map (place + c.utf8Size + ·)).or
          (found.or ((m.leftmost (some c) rest).map (place + c.utf8Size + ·))) := by
      intro nexts found
      by_cases hstop : (nexts.isEmpty && (found.isSome || m.anchored)) = true
      · rw [if_pos hstop]
        rw [Bool.and_eq_true, List.isEmpty_iff, Bool.or_eq_true] at hstop
        obtain ⟨rfl, hfound | hanchor⟩ := hstop
        · obtain ⟨k, rfl⟩ := Option.isSome_iff_exists.mp hfound
          rfl
        · rw [leftmost_anchored (hanchored hanchor), Option.map_none, Option.or_none]
          rfl
      · rw [if_neg hstop]
        exact ih ..
    have hsum : (place + c.utf8Size + ·) = (place + ·) ∘ (c.utf8Size + ·) :=
      funext fun k => Nat.add_assoc ..
    have hplace : ∀ states found, let step := advance (some c) (m.reached before (some c) states)
        ((m.foremost (some c) rest step.1).map (place + c.utf8Size + ·)).or
          ((if step.2 then some place else found).or
          ((m.leftmost (some c) rest).map (place + c.utf8Size + ·))) =
        ((m.foremost before (c :: rest) states).map (place + ·)).or
          (found.or (((m.leftmost (some c) rest).map (c.utf8Size + ·)).map (place + ·))) := by
      intro states found
      dsimp only
      rw [← reached_outcome m before (c :: rest), advance_outcome, List.head?_cons, hsum,
        Option.map_or, Option.map_map, Option.map_map, Option.or_assoc]
      split <;> simp
    dsimp only at hplace
    unfold searchFrom
    cases found with
    | none =>
      simp only [Option.isNone_none, if_true]
      rw [hon, hplace, foremost_concat, leftmost, Option.none_or, Option.none_or, Option.map_or,
        Option.map_or, Option.or_assoc]
    | some k =>
      simp only [Option.isNone_some, Bool.false_eq_true, if_false]
      rw [hon, hplace, Option.some_or, Option.some_or]

/-- A search finds the leftmost match. -/
theorem search_eq_leftmost
    (hanchored : m.anchored = true → ∀ c rest, m.preferred (some c) [] m.start rest = none)
    (text : List Char) : m.search text = m.leftmost none text := by
  rw [search, searchFrom_eq hanchored, Option.none_or, foremost, List.findSome?_nil,
    Option.map_none, Option.none_or]
  simp

end Packrat.Regex.Automaton
