import Packrat.Proofs.Regex.Leftmost

/-! An expression held to the start of the text.

The code of an expression leads nowhere out of itself (`Expr.layOut_within`), so instructions after
it change nothing about it (`Automaton.preferred_push`). Set behind the assertion that the text
begins here, an expression is laid out as by itself, with that assertion in front; a search for it
finds the preferred match that begins at the start of the text, and nothing else
(`Automaton.search_textStart`). -/
namespace Packrat.Regex

/-- The states to which an instruction leads. -/
def Instr.targets : Instr → List Nat
  | take _ next | check _ next => [next]
  | fork first second => [first, second]
  | accept => []

theorem Instr.mem_targets_again {greedy : Bool} {round after x : Nat}
    (h : x ∈ (again greedy round after).targets) : x = round ∨ x = after := by
  cases greedy <;> simp_all [again, targets, or_comm]

/-- No instruction leads out of the code. -/
def Closed (code : Array Instr) : Prop :=
  ∀ (state : Nat) (i : Instr), code[state]? = some i → ∀ next ∈ i.targets, next < code.size

/-- What is laid out comes after the first `n` instructions, and leads to states there are. -/
structure Layout.Within (n : Nat) (l : Layout) : Prop where
  grows : n ≤ l.2.size
  start_lt : l.1 < l.2.size
  closed : Closed l.2

/-- A part is laid out in any code. -/
def Layout.Lays (part : Nat → Array Instr → Layout) : Prop :=
  ∀ {next : Nat} {code : Array Instr}, next < code.size → Closed code →
    Within code.size (part next code)

namespace Closed
variable {code : Array Instr} {i : Instr} {back : Nat}

theorem push (h : Closed code) (hi : ∀ next ∈ i.targets, next < code.size + 1) :
    Closed (code.push i) := by
  intro state j hj next hnext
  rw [Array.size_push]
  rw [Array.getElem?_push] at hj
  split at hj
  · cases hj
    exact hi next hnext
  · exact Nat.lt_succ_of_lt (h state j hj next hnext)

theorem set (h : Closed code) (hi : ∀ next ∈ i.targets, next < code.size) :
    Closed (code.setIfInBounds back i) := by
  intro state j hj next hnext
  rw [Array.size_setIfInBounds]
  rw [Array.getElem?_setIfInBounds] at hj
  split at hj
  · split at hj
    · cases hj
      exact hi next hnext
    · cases hj
  · exact h state j hj next hnext

end Closed

namespace Layout
variable {part : Nat → Array Instr → Layout} {next : Nat} {code : Array Instr}

theorem Within.trans {n : Nat} {l : Layout} (h : l.Within n) {n' : Nat} (hle : n' ≤ n) :
    l.Within n' :=
  ⟨hle.trans h.grows, h.start_lt, h.closed⟩

theorem within_push {i : Instr} (hcode : Closed code)
    (hi : ∀ next ∈ i.targets, next < code.size + 1) : Within code.size (push i code) :=
  ⟨by simp [push], by simp [push], hcode.push hi⟩

theorem Lays.copies (h : Lays part) (n : Nat) : Lays (copies part n) := by
  intro next code hnext hcode
  induction n with
  | zero => exact ⟨le_rfl, hnext, hcode⟩
  | succ n ih => exact (h ih.start_lt ih.closed).trans ih.grows

theorem Lays.options (h : Lays part) (greedy : Bool) (n : Nat) (hnext : next < code.size)
    (hcode : Closed code) : Within code.size (options greedy part next n code) := by
  induction n with
  | zero => exact ⟨le_rfl, hnext, hcode⟩
  | succ n ih =>
    have hround := h ih.start_lt ih.closed
    refine (within_push hround.closed fun x hx => ?_).trans (ih.grows.trans hround.grows)
    rcases Instr.mem_targets_again hx with rfl | rfl
    · exact Nat.lt_succ_of_lt hround.start_lt
    · exact (hnext.trans_le (ih.grows.trans hround.grows)).trans (Nat.lt_succ_self _)

theorem Lays.loop (h : Lays part) (greedy : Bool) : Lays (loop greedy part) := by
  intro next code hnext hcode
  have hback : Closed (code.push .accept) := hcode.push nofun
  have hround : Within (code.push .accept).size (part code.size (code.push .accept)) :=
    h (by simp) hback
  have hgrows : code.size ≤ (part code.size (code.push .accept)).2.size :=
    Nat.le_of_succ_le (by simpa using hround.grows)
  unfold Layout.loop
  refine ⟨by simpa using hgrows, by simpa using hround.start_lt, hround.closed.set fun x hx => ?_⟩
  rcases Instr.mem_targets_again hx with rfl | rfl
  · exact hround.start_lt
  · exact hnext.trans_le hgrows

end Layout

/-- An expression is laid out in any code. -/
theorem Expr.layOut_within (e : Expr) : Layout.Lays e.layOut := by
  induction e with
  | empty => exact fun hnext hcode => ⟨le_rfl, hnext, hcode⟩
  | one s =>
    intro next code hnext hcode
    exact Layout.within_push hcode (by simp [Instr.targets]; omega)
  | assert a =>
    intro next code hnext hcode
    exact Layout.within_push hcode (by simp [Instr.targets]; omega)
  | capture index e ih => exact ih
  | cat a b iha ihb =>
    intro next code hnext hcode
    have hb := ihb hnext hcode
    exact (iha hb.start_lt hb.closed).trans hb.grows
  | alt a b iha ihb =>
    intro next code hnext hcode
    have ha := iha hnext hcode
    have hb := ihb (hnext.trans_le ha.grows) ha.closed
    refine (Layout.within_push hb.closed fun x hx => ?_).trans (ha.grows.trans hb.grows)
    rcases List.mem_pair.mp hx with rfl | rfl
    · exact Nat.lt_succ_of_lt (ha.start_lt.trans_le hb.grows)
    · exact Nat.lt_succ_of_lt hb.start_lt
  | times lo hi greedy e ih =>
    intro next code hnext hcode
    match lo, hi with
    | lo, some hi =>
      have hrest := ih.options greedy (hi - lo) hnext hcode
      exact (ih.copies lo hrest.start_lt hrest.closed).trans hrest.grows
    | 0, none =>
      have hloop := ih.loop greedy hnext hcode
      refine (Layout.within_push hloop.closed fun x hx => ?_).trans hloop.grows
      rcases Instr.mem_targets_again hx with rfl | rfl
      · exact Nat.lt_succ_of_lt hloop.start_lt
      · exact Nat.lt_succ_of_lt (hnext.trans_le hloop.grows)
    | lo + 1, none =>
      have hloop := ih.loop greedy hnext hcode
      exact (ih.copies lo hloop.start_lt hloop.closed).trans hloop.grows

namespace Expr

/-- The end of a run is laid out first. -/
theorem layOut_append (a b : Expr) (next : Nat) (code : Array Instr) :
    (append a b).layOut next code = a.layOut (b.layOut next code).1 (b.layOut next code).2 := by
  induction a with
  | empty => rfl
  | cat x y _ ihy => rw [append, layOut, ihy, layOut]
  | _ => cases b <;> rfl

theorem append_empty (e : Expr) : append e empty = e := by
  induction e with
  | cat x y _ ihy => rw [append, ihy]
  | _ => rfl

end Expr

namespace Automaton
variable {m : Automaton} {before : Option Char} {state : Nat} {text : List Char}

/-- The length in bytes of the preferred match at the start of a text. -/
def atStart (m : Automaton) (text : List Char) : Option Nat := m.preferred none [] m.start text

theorem ofExpr_within (e : Expr) : Layout.Within 1 ((ofExpr e).start, (ofExpr e).code) := by
  have hempty : Closed #[] := fun state i hi => by simp at hi
  exact e.layOut_within (Nat.lt_succ_self 0) (hempty.push (i := .accept) nofun)

theorem ofExpr_textStart (e : Expr) : ofExpr (.append (.assert .textStart) e) =
    ⟨(ofExpr e).code.push (.check .textStart (ofExpr e).start), (ofExpr e).code.size, true⟩ := by
  have hanchored : (Expr.append (.assert .textStart) e).anchored = true := by cases e <;> rfl
  unfold ofExpr
  simp only [hanchored, Expr.layOut_append]
  rfl

/-- Another instruction after the code changes nothing about a state in it. A path may lead through
any states after the code. -/
theorem preferred_push (hcode : Closed m.code) (i : Instr) (start : Nat) (anchored : Bool)
    (path path' : List Nat) (hstate : state < m.code.size)
    (hpath : ∀ x < m.code.size, x ∈ path' ↔ x ∈ path) :
    preferred ⟨m.code.push i, start, anchored⟩ before path' state text = m.preferred before
      path state text := by
  have hsame : ∀ {state}, state < m.code.size → (m.code.push i)[state]? = m.code[state]? :=
    fun hlt => by
    rw [Array.getElem?_push, if_neg hlt.ne]
  have hcons : ∀ {path path' : List Nat} (state : Nat), (∀ x < m.code.size, x ∈ path' ↔ x ∈ path) →
      ∀ x < m.code.size, x ∈ state :: path' ↔ x ∈ state :: path := fun state hpath x hx => by
    rw [List.mem_cons, List.mem_cons, hpath x hx]
  have hoff : ∀ {path path' : List Nat} {state : Nat}, state < m.code.size →
      (∀ x < m.code.size, x ∈ path' ↔ x ∈ path) → state ∉ path → state ∉ path' :=
    fun hlt hpath hnew hmem => hnew ((hpath _ hlt).mp hmem)
  have hleaf : ∀ {before : Option Char} {path path' : List Nat} {state : Nat} {text : List Char}
      {j : Instr},
      state < m.code.size → (∀ x < m.code.size, x ∈ path' ↔ x ∈ path) → state ∉ path →
      m.code[state]? = some j → (∀ a q, j ≠ .check a q) → (∀ p q, j ≠ .fork p q) →
      leafEnd ⟨m.code.push i, start, anchored⟩ text j = m.leafEnd text j →
      preferred ⟨m.code.push i, start, anchored⟩ before path' state text = m.preferred before
      path state text := by
    intro before path path' state text j hstate hpath hnew hj hcheck hfork hend
    rw [preferred_leaf hnew hj hcheck hfork,
      preferred_leaf (hoff hstate hpath hnew) ((hsame hstate).trans hj) hcheck hfork, hend]
  induction before, path, state, text using preferred.induct (m := m) generalizing path' with
  | case1 before path state text hmem =>
    rw [preferred_of_mem hmem, preferred_of_mem ((hpath state hstate).mpr hmem)]
  | case2 before path state text hnew hi => simp [hstate.not_ge] at hi
  | case3 before path state text hnew hi => exact hleaf hstate hpath hnew hi nofun nofun rfl
  | case4 before path state hnew s next hi => exact hleaf hstate hpath hnew hi nofun nofun rfl
  | case5 before path state hnew s next hi c rest hs ih =>
    refine hleaf hstate hpath hnew hi nofun nofun ?_
    rw [leafEnd, leafEnd, if_pos hs, if_pos hs,
      ih [] (hcode state _ hi next (by simp [Instr.targets])) (by simp)]
  | case6 before path state hnew s next hi c rest hs =>
    refine hleaf hstate hpath hnew hi nofun nofun ?_
    rw [leafEnd, leafEnd, if_neg hs, if_neg hs]
  | case7 before path state text hnew a next hi hholds ih =>
    rw [preferred_check hnew hi, preferred_check (hoff hstate hpath hnew) ((hsame hstate).trans hi),
      if_pos hholds, if_pos hholds, ih _ (hcode state _ hi next (by simp [Instr.targets]))
      (hcons state hpath)]
  | case8 before path state text hnew a next hi hholds =>
    rw [preferred_check hnew hi, preferred_check (hoff hstate hpath hnew) ((hsame hstate).trans hi),
      if_neg hholds, if_neg hholds]
  | case9 before path state text hnew first second hi ihfirst ihsecond =>
    rw [preferred_fork hnew hi, preferred_fork (hoff hstate hpath hnew) ((hsame hstate).trans hi),
      ihfirst _ (hcode state _ hi first (by simp [Instr.targets])) (hcons state hpath),
      ihsecond _ (hcode state _ hi second (by simp [Instr.targets])) (hcons state hpath)]

/-- A search for an expression that is held to the start of the text finds its preferred match
there. -/
theorem search_textStart (e : Expr) (text : List Char) :
    (ofExpr (.append (.assert .textStart) e)).search text = (ofExpr e).atStart text := by
  rw [ofExpr_textStart]
  generalize hm : Automaton.mk ((ofExpr e).code.push (.check .textStart (ofExpr e).start))
    (ofExpr e).code.size true = m
  have hwithin := ofExpr_within e
  have hstart : m.code[m.start]? = some (.check .textStart (ofExpr e).start) := by
    rw [← hm]
    simp
  have hlater : ∀ c rest, m.preferred (some c) [] m.start rest = none := fun c rest => by
    rw [preferred_check List.not_mem_nil hstart]
    rfl
  have hfirst : ∀ text, m.preferred none [] m.start text = (ofExpr e).atStart text := fun text => by
    rw [preferred_check List.not_mem_nil hstart, if_pos (by rfl), ← hm]
    refine preferred_push hwithin.closed _ _ _ [] _ hwithin.start_lt fun x hx => ?_
    simp [hx.ne]
  rw [search_eq_leftmost fun _ => hlater]
  cases text with
  | nil => exact hfirst []
  | cons c rest => rw [leftmost, leftmost_anchored hlater, Option.map_none, Option.or_none, hfirst]

end Automaton

end Packrat.Regex
