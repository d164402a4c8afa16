import Packrat.Recognition.Apply
import Packrat.Recognition.Derivation
import Packrat.Proofs.Text.Bytes
import Mathlib.Algebra.Ring.Nat

/-! What makes a match a match.

A match and the matches that it is made of are justified by the rule when they are what
its body asks for: the text itself, one match for each rule of a sequence with no gap
between them, one of the alternatives, and so on (`RuleBody.Justifies`). An answer is
derived when this holds of it and of all that it is made of. A derived match of no bytes
may stand anywhere; any other ends within the buffer (`Answers.within`). -/
namespace Packrat

/-- Steps that follow each other without a gap, from one offset to another. -/
def Contiguous : Nat → List Step → Nat → Prop
  | start, [], stop => start = stop
  | start, s :: rest, stop => s.start = start ∧ Contiguous s.stop rest stop

/-- Whether a match of a body may be made of these. -/
def RuleBody.Justifies (b : Buffer) (s : Step) (children : List Step) : RuleBody → Prop
  | .literal text => children = [] ∧ b.slice? s.start s.stop = some text.toList
  | .pattern p => children = [] ∧ 0 < s.length ∧
      (b.suffix? s.start).bind p.matchLength = some s.length
  | .sequence rules => rules ≠ [] ∧ children.map (·.rule) = rules ∧
      Contiguous s.start children s.stop ∧ (children.map (·.length)).sum = s.length
  | .choice rules => ∃ c, children = [c] ∧ c.rule ∈ rules ∧ c.start = s.start ∧ c.length = s.length
  | .optional rule => (children = [] ∧ s.length = 0) ∨
      ∃ c, children = [c] ∧ c.rule = rule ∧ c.start = s.start ∧ c.length = s.length
  | .repetition rule => (∀ c ∈ children, c.rule = rule ∧ c.length ≠ 0) ∧
      Contiguous s.start children s.stop ∧ (children.map (·.length)).sum = s.length
  | .epsilon => children = [] ∧ s.length = 0
  | .endOfInput => children = [] ∧ s.length = 0 ∧ s.start = b.size
  | .reference _ => False

/-- A match, made of matches, that the rule justifies. -/
structure Recognizer.Justified (r : Recognizer) (s : Step) (children : List Step) : Prop where
  matched : s.matched
  children_matched : ∀ c ∈ children, c.matched
  body : ∃ found, r.graph.rule? s.rule = some found ∧ found.body.Justifies r.buffer s children

/-- A match that is justified, and so is all that it is made of. -/
inductive Answer.Derived (r : Recognizer) : Answer → Prop where
  | intro {a : Answer} : r.Justified a.step (a.children.map (·.step)) →
      (∀ c ∈ a.children, c.Derived r) → a.Derived r

/-- What an application of a rule at an offset may answer. -/
structure Recognizer.Answers (r : Recognizer) (rule : RuleId) (pos : Nat) (a : Answer) : Prop where
  rule_eq : a.rule = rule
  start_eq : a.start = pos
  failed : a.matched = false → a.length = 0 ∧ a.children = []
  derived : a.matched = true → a.Derived r

/-- The offsets at which a body that is evaluated at `pos` may go on: there, or further on in the
buffer. -/
def Recognizer.Ahead (r : Recognizer) (pos q : Nat) : Prop := q = pos ∨ pos < q ∧ q ≤ r.buffer.size

theorem Contiguous.sum_length {start stop : Nat} {steps : List Step}
    (h : Contiguous start steps stop) : start + (steps.map (·.length)).sum = stop := by
  induction steps generalizing start with
  | nil => exact h
  | cons s rest ih =>
    have hs := h.1
    have hrest := ih h.2
    simp only [Step.stop] at hrest
    simp only [List.map_cons, List.sum_cons]
    omega

namespace Recognizer
variable {r : Recognizer} {pos q : Nat}

theorem Ahead.refl (pos : Nat) : r.Ahead pos pos := .inl rfl

theorem Ahead.le (h : r.Ahead pos q) : pos ≤ q := by
  rcases h with rfl | ⟨h, _⟩
  · exact Nat.le_refl _
  · exact Nat.le_of_lt h

theorem Ahead.trans {p : Nat} (h : r.Ahead pos q) (h' : r.Ahead q p) : r.Ahead pos p := by
  simp only [Ahead] at h h' ⊢
  omega

theorem Ahead.length_le (h : r.Ahead pos q) : q - pos ≤ r.remaining pos := by
  simp only [Ahead, remaining] at h ⊢
  omega

/-- Steps of no bytes or within the buffer follow each other up to an offset ahead. -/
theorem ahead_of_contiguous {steps : List Step} (h : Contiguous pos steps q)
    (hsteps : ∀ s ∈ steps, r.Ahead s.start s.stop) : r.Ahead pos q := by
  induction steps generalizing pos with
  | nil => exact .inl h.symm
  | cons s rest ih =>
    obtain ⟨hstart, hrest⟩ := h
    have hs := hsteps s (List.mem_cons_self ..)
    rw [hstart] at hs
    exact hs.trans (ih hrest fun t ht => hsteps t (List.mem_cons_of_mem _ ht))

/-- A justified match of no bytes, or one that ends within the buffer, if it is made of such. -/
theorem Justified.ahead {s : Step} {children : List Step} (h : r.Justified s children)
    (hchildren : ∀ c ∈ children, r.Ahead c.start c.stop) : r.Ahead s.start s.stop := by
  obtain ⟨found, _, hbody⟩ := h.body
  have hsingle : ∀ c, children = [c] → c.start = s.start → c.length = s.length →
      r.Ahead s.start s.stop := by
    intro c hc hstart hlength
    have := hchildren c (by simp [hc])
    simpa only [Step.stop, hstart, hlength] using this
  have hempty : s.length = 0 → r.Ahead s.start s.stop := fun h0 => .inl (by simp [Step.stop, h0])
  cases hb : found.body with
  | literal text =>
    rw [hb] at hbody
    have hstop := Buffer.slice?_stop_le hbody.2
    simp only [Ahead, Step.stop] at hstop ⊢
    omega
  | pattern p =>
    rw [hb] at hbody
    obtain ⟨rest, hrest, hmatch⟩ := Option.bind_eq_some_iff.mp hbody.2.2
    have hle := (p.boundary hmatch).le
    have hsize := Buffer.suffix?_length hrest
    have := hbody.2.1
    exact .inr (by simp only [Step.stop]; omega)
  | sequence rules =>
    rw [hb] at hbody
    exact ahead_of_contiguous hbody.2.2.1 hchildren
  | choice rules =>
    rw [hb] at hbody
    obtain ⟨c, hc, _, hstart, hlength⟩ := hbody
    exact hsingle c hc hstart hlength
  | optional rule =>
    rw [hb] at hbody
    rcases hbody with ⟨_, h0⟩ | ⟨c, hc, _, hstart, hlength⟩
    · exact hempty h0
    · exact hsingle c hc hstart hlength
  | repetition rule =>
    rw [hb] at hbody
    exact ahead_of_contiguous hbody.2.1 hchildren
  | epsilon =>
    rw [hb] at hbody
    exact hempty hbody.2
  | endOfInput =>
    rw [hb] at hbody
    exact hempty hbody.2.1
  | reference target =>
    rw [hb] at hbody
    exact hbody.elim

end Recognizer

theorem Answer.Derived.ahead {r : Recognizer} {a : Answer} (h : a.Derived r) :
    r.Ahead a.start a.stop := by
  induction h with
  | intro hjust _ ih =>
    refine hjust.ahead fun c hc => ?_
    obtain ⟨b, hb, rfl⟩ := List.mem_map.mp hc
    exact ih b hb

namespace Recognizer.Answers
variable {r : Recognizer} {rule : RuleId} {pos : Nat} {a : Answer}

theorem fail (rule : RuleId) (pos : Nat) : r.Answers rule pos (.fail rule pos) :=
  ⟨rfl, rfl, fun _ => ⟨rfl, rfl⟩, nofun⟩

/-- A match goes on at an offset ahead. -/
theorem ahead (h : r.Answers rule pos a) (hm : a.matched = true) : r.Ahead pos a.stop := by
  have := (h.derived hm).ahead
  rwa [h.start_eq] at this

theorem length_le (h : r.Answers rule pos a) (hm : a.matched = true) :
    a.length ≤ r.remaining pos := by
  have := (h.ahead hm).length_le
  simp only [Answer.stop, h.start_eq] at this
  omega

/-- A match that the body justifies, made of derived ones. -/
theorem node {found : Rule} {length : Nat} {children : List Answer}
    (hfound : r.graph.rule? rule = some found) (hchildren : ∀ c ∈ children, c.matched ∧ c.Derived r)
    (hbody : found.body.Justifies r.buffer ⟨rule, pos, true, length⟩ (children.map (·.step))) :
    r.Answers rule pos (.node rule pos length children) := by
  refine ⟨rfl, rfl, nofun, fun _ => .intro ⟨rfl, ?_, found, hfound, hbody⟩ ?_⟩
  · intro c hc
    obtain ⟨b, hb, rfl⟩ := List.mem_map.mp hc
    exact (hchildren b hb).1
  · exact fun c hc => (hchildren c hc).2

end Recognizer.Answers

end Packrat
