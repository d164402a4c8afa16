import Packrat.Regex.Search
import Mathlib.Data.Finset.Card
import Mathlib.Data.List.Perm.Subperm

/-! The preferred match, by going back.

Of all ways on from a state the preferred one is found by trying them one after the other: a fork's
first way to its end before its second one, where no way comes back to a state without taking a
character between (`Automaton.preferred`). A search goes through all ways side by side instead and
visits no state of a place twice, also not for another way. What it cuts there matches nothing, or
nothing that is preferred (`visit_outcome`): a state that was visited before, and is not on the way
to the present one, has led to a match of a preferred way, or leads to none that the present way
does not come across itself. -/
namespace Packrat.Regex.Automaton

/-- How many states are not on a path. -/
def offPath (m : Automaton) (path : List Nat) : Nat :=
  (Finset.range m.code.size \ path.toFinset).card

theorem offPath_cons_lt {m : Automaton} {path : List Nat} {state : Nat} {i : Instr}
    (hi : m.code[state]? = some i) (hnew : state ∉ path) :
    m.offPath (state :: path) < m.offPath path := by
  have hstate : state < m.code.size := (Array.getElem?_eq_some_iff.mp hi).1
  rw [offPath, List.toFinset_cons, Finset.sdiff_insert]
  refine Finset.card_erase_lt_of_mem (Finset.mem_sdiff.mpr ⟨Finset.mem_range.mpr hstate, ?_⟩)
  rwa [List.mem_toFinset]

/-- The length in bytes of the preferred match of a text from a state on, which is reached by a path
of states without taking a character. -/
def preferred (m : Automaton) (before : Option Char) (path : List Nat) (state : Nat)
    (text : List Char) : Option Nat :=
  if _hnew : state ∈ path then none
  else
    match _hi : m.code[state]? with
    | none => none
    | some .accept => some 0
    | some (.take s next) =>
      match text with
      | [] => none
      | c :: rest =>
        if s.contains c then (m.preferred (some c) [] next rest).map (c.utf8Size + ·) else none
    | some (.check a next) =>
      if a.holds before text.head? then m.preferred before (state :: path) next text else none
    | some (.fork first second) =>
      (m.preferred before (state :: path) first text).or
        (m.preferred before (state :: path) second text)
termination_by (text.length, m.offPath path)
decreasing_by
  · exact Prod.Lex.left _ _ (Nat.lt_succ_self _)
  all_goals exact Prod.Lex.right _ (offPath_cons_lt _hi _hnew)

/-- The length of the preferred match from a waiting state on. -/
def leafEnd (m : Automaton) (text : List Char) : Instr → Option Nat
  | .accept => some 0
  | .take s next =>
    match text with
    | [] => none
    | c :: rest =>
      if s.contains c then (m.preferred (some c) [] next rest).map (c.utf8Size + ·) else none
  | _ => none

variable {m : Automaton} {before : Option Char} {path : List Nat} {state next first second : Nat}
  {text : List Char} {i : Instr}

/-! ### What a state comes to -/

theorem preferred_of_mem (h : state ∈ path) : m.preferred before path state text = none := by
  rw [preferred, dif_pos h]

theorem preferred_of_none (hi : m.code[state]? = none) :
    m.preferred before path state text = none := by
  rw [preferred]
  split
  · rfl
  · split <;> simp_all

theorem preferred_leaf (hnew : state ∉ path) (hi : m.code[state]? = some i)
    (hcheck : ∀ a q, i ≠ .check a q) (hfork : ∀ p q, i ≠ .fork p q) :
    m.preferred before path state text = m.leafEnd text i := by
  rw [preferred, dif_neg hnew]
  cases i with
  | take s next => split <;> simp_all [leafEnd]
  | check a next => exact absurd rfl (hcheck a next)
  | fork first second => exact absurd rfl (hfork first second)
  | accept => split <;> simp_all [leafEnd]

theorem preferred_check {a : Assertion} (hnew : state ∉ path)
    (hi : m.code[state]? = some (.check a next)) : m.preferred before path state text =
      if a.holds before text.head? then m.preferred before (state :: path) next text else none := by
  rw [preferred, dif_neg hnew]
  split <;> simp_all

theorem preferred_fork (hnew : state ∉ path) (hi : m.code[state]? = some (.fork first second)) :
    m.preferred before path state text =
      (m.preferred before (state :: path) first text).or
        (m.preferred before (state :: path) second text) := by
  rw [preferred, dif_neg hnew]
  split <;> simp_all

/-! ### Whether there is a way at all -/

/-- A state goes on to another one at the same place. -/
inductive Goes (m : Automaton) (before after : Option Char) : Nat → Nat → Prop where
  | check {state next : Nat} {a : Assertion} : m.code[state]? = some (.check a next) →
      a.holds before after = true → Goes m before after state next
  | first {state first second : Nat} : m.code[state]? = some (.fork first second) →
      Goes m before after state first
  | second {state first second : Nat} : m.code[state]? = some (.fork first second) →
      Goes m before after state second

/-- A state from which a match goes on without others at the same place. -/
def Leaves (m : Automaton) (text : List Char) (state : Nat) : Prop :=
  ∃ i, m.code[state]? = some i ∧ (m.leafEnd text i).isSome

/-- From a state there is a way to a match that meets none of the others at the same place. -/
inductive Way (m : Automaton) (before : Option Char) (text : List Char) (path : List Nat) :
    Nat → Prop where
  | leave {state : Nat} : state ∉ path → m.Leaves text state → Way m before text path state
  | go {state next : Nat} : state ∉ path → m.Goes before text.head? state next →
      Way m before text path next → Way m before text path state

theorem Way.anti {path' : List Nat} (h : m.Way before text path state) (hpath : path' ⊆ path) :
    m.Way before text path' state := by
  induction h with
  | leave hnew hleaves => exact .leave (fun hmem => hnew (hpath hmem)) hleaves
  | go hnew hgoes _ ih => exact .go (fun hmem => hnew (hpath hmem)) hgoes ih

/-- A way that meets a state has a last part that begins there and does not come back. -/
theorem Way.split (h : m.Way before text path state) (x : Nat) :
    m.Way before text (x :: path) state ∨
    (m.Leaves text x ∨ ∃ next, m.Goes before text.head? x next ∧
      m.Way before text (x :: path) next) := by
  induction h with
  | @leave state hnew hleaves =>
    by_cases hx : state = x
    · exact .inr (.inl (hx ▸ hleaves))
    · exact .inl (.leave (fun hmem => (List.mem_cons.mp hmem).elim hx hnew) hleaves)
  | @go state next hnew hgoes _ ih =>
    rcases ih with hrest | hlast
    · by_cases hx : state = x
      · exact .inr (.inr ⟨next, hx ▸ hgoes, hrest⟩)
      · exact .inl (.go (fun hmem => (List.mem_cons.mp hmem).elim hx hnew) hgoes hrest)
    · exact .inr hlast

/-- Where no way begins at a state, a way from another one does not need to go through it. -/
theorem Way.avoid {x : Nat} (h : m.Way before text path state) (hx : ¬ m.Way before text path x)
    (hnew : x ∉ path) : m.Way before text (x :: path) state := by
  rcases h.split x with hway | hleaves | ⟨next, hgoes, hway⟩
  · exact hway
  · exact absurd (.leave hnew hleaves) hx
  · exact absurd (.go hnew hgoes (hway.anti (List.subset_cons_self ..))) hx

/-- A way need not come back to the state where it begins. -/
theorem way_iff (hnew : state ∉ path) : m.Way before text path state ↔ m.Leaves text state ∨
    ∃ next, m.Goes before text.head? state next ∧ m.Way before text (state :: path) next := by
  refine ⟨fun hway => (hway.split state).resolve_left fun hback => ?_, ?_⟩
  · cases hback <;> simp_all
  · rintro (hleaves | ⟨next, hgoes, hway⟩)
    · exact .leave hnew hleaves
    · exact .go hnew hgoes (hway.anti (List.subset_cons_self ..))

theorem leaves_iff (hi : m.code[state]? = some i) :
    m.Leaves text state ↔ (m.leafEnd text i).isSome := by
  simp [Leaves, hi]

theorem goes_check {a : Assertion} (hi : m.code[state]? = some (.check a next))
    (after : Option Char) (x : Nat) :
    m.Goes before after state x ↔ a.holds before after = true ∧ x = next := by
  constructor
  · intro hgoes
    cases hgoes <;> simp_all
  · rintro ⟨hholds, rfl⟩
    exact .check hi hholds

theorem goes_fork (hi : m.code[state]? = some (.fork first second)) (after : Option Char)
    (x : Nat) : m.Goes before after state x ↔ x = first ∨ x = second := by
  constructor
  · intro hgoes
    cases hgoes <;> simp_all
  · rintro (rfl | rfl)
    · exact .first hi
    · exact .second hi

/-- A match is found exactly if there is a way to one. -/
theorem isSome_preferred : (m.preferred before path state text).isSome ↔
    m.Way before text path state := by
  induction hn : m.offPath path using Nat.strong_induction_on generalizing path state with
  | h n ih =>
    by_cases hnew : state ∈ path
    · rw [preferred_of_mem hnew]
      refine iff_of_false Bool.false_ne_true fun hway => ?_
      cases hway <;> contradiction
    rw [way_iff hnew]
    cases hi : m.code[state]? with
    | none =>
      rw [preferred_of_none hi]
      refine iff_of_false Bool.false_ne_true ?_
      rintro (⟨i, hi', _⟩ | ⟨next, hgoes, _⟩)
      · cases hi.symm.trans hi'
      · cases hgoes <;> simp_all
    | some i =>
      have hdeeper : ∀ x, (m.preferred before (state :: path) x text).isSome ↔
          m.Way before text (state :: path) x :=
        fun x => ih _ (hn ▸ offPath_cons_lt hi hnew) rfl
      rw [leaves_iff hi]
      cases i with
      | check a next =>
        rw [preferred_check hnew hi]
        simp only [goes_check hi, leafEnd, ← hdeeper]
        split <;> simp_all
      | fork first second =>
        rw [preferred_fork hnew hi]
        simp only [goes_fork hi, leafEnd, ← hdeeper]
        simp [or_and_right, exists_or]
      | take s next =>
        rw [preferred_leaf hnew hi (by simp) (by simp)]
        refine (or_iff_left ?_).symm
        rintro ⟨_, hgoes, _⟩
        cases hgoes <;> simp_all
      | accept =>
        rw [preferred_leaf hnew hi (by simp) (by simp)]
        refine (or_iff_left ?_).symm
        rintro ⟨_, hgoes, _⟩
        cases hgoes <;> simp_all

end Packrat.Regex.Automaton
