import Packrat.Proofs.Grammar.EmptyMatch
import Packrat.Proofs.Recognition.Preorder
import Packrat.Proofs.Text.Boundaries

/-! The spans of a derivation.

A match either has its text in the buffer, which begins and ends at boundaries, or is nothing but
the matches that it is made of, without a gap (`Answer.Derived.tiled`). So from a boundary on every
match begins and ends at a boundary and has as its text the texts of its childless parts, in order
(`Answer.Tiled.text_eq`). No text begins anywhere else, so from such an offset on nothing is
consumed (`Answer.Tiled.idle`). -/
namespace Packrat

/-! ### Matches without a gap -/

namespace Contiguous
variable {start stop : Nat} {steps : List Step} {s : Step}

theorem le (h : Contiguous start steps stop) : start ≤ stop := h.sum_length ▸ Nat.le_add_right ..

/-- Each lies between the two ends. -/
theorem range (h : Contiguous start steps stop) (hs : s ∈ steps) :
    start ≤ s.start ∧ s.stop ≤ stop := by
  induction steps generalizing start with
  | nil => cases hs
  | cons t rest ih =>
    obtain ⟨rfl, hrest⟩ := h
    rcases List.mem_cons.mp hs with rfl | hs
    · exact ⟨Nat.le_refl _, hrest.le⟩
    · obtain ⟨hstart, hstop⟩ := ih hrest hs
      exact ⟨Nat.le_trans (Nat.le_add_right ..) hstart, hstop⟩

/-- Nothing is consumed if nothing is where it begins. -/
theorem idle (h : Contiguous start steps stop)
    (hsteps : ∀ s ∈ steps, s.start = start → s.length = 0) : start = stop := by
  induction steps generalizing start with
  | nil => exact h
  | cons s rest ih =>
    obtain ⟨hstart, hrest⟩ := h
    have hstop : s.stop = start := by
      rw [Step.stop, hsteps s (List.mem_cons_self ..) hstart, hstart, Nat.add_zero]
    exact ih (hstop ▸ hrest) fun t ht => hsteps t (List.mem_cons_of_mem _ ht)

/-- Texts without a gap from a boundary on all begin at boundaries and are one text. -/
theorem slice {b : Buffer} {text : Answer → List Char} {answers : List Answer}
    (h : Contiguous start (answers.map (·.step)) stop) (hstart : Boundary b.text start)
    (htext : ∀ a ∈ answers, Boundary b.text a.start → b.slice? a.start a.stop = some (text a)) :
    (∀ a ∈ answers, Boundary b.text a.start) ∧ b.slice? start stop = some
      (answers.flatMap text) := by
  induction answers generalizing start with
  | nil =>
    obtain rfl : start = stop := h
    exact ⟨List.forall_mem_nil _, Buffer.slice?_refl hstart⟩
  | cons a rest ih =>
    obtain ⟨rfl, hrest⟩ := h
    obtain ⟨hfirst, hmore⟩ := List.forall_mem_cons.mp htext
    have hslice : b.slice? a.start a.stop = some (text a) := hfirst hstart
    obtain ⟨hboundaries, htail⟩ := ih hrest (Buffer.boundary_stop hslice) hmore
    exact ⟨List.forall_mem_cons.mpr ⟨hstart, hboundaries⟩, Buffer.slice?_append hslice htail⟩

end Contiguous

/-! ### Answers -/

/-- An answer with a text of its own, or made of others without a gap. -/
inductive Answer.Tiled (b : Buffer) : Answer → Prop where
  | text {a : Answer} {text : List Char} : a.children = [] → b.slice? a.start a.stop = some text →
      a.Tiled b
  | parts {a : Answer} : Contiguous a.start (a.children.map (·.step)) a.stop →
      (∀ c ∈ a.children, c.Tiled b) → a.Tiled b

/-- The childless parts of an answer, in order. -/
def Answer.leaves (a : Answer) : List Answer := a.parts.filter (·.children.isEmpty)

/-- The text that an answer matched. -/
def Answer.text (b : Buffer) (a : Answer) : List Char := (b.slice? a.start a.stop).getD []

/-- A match that a body justifies has a text of its own, or the matches that it is made of have no
gap. -/
theorem RuleBody.Justifies.tiles {b : Buffer} {s : Step} {children : List Step} {body : RuleBody}
    (h : body.Justifies b s children) :
    (children = [] ∧ ∃ text, b.slice? s.start s.stop = some text) ∨
    Contiguous s.start children s.stop := by
  have hsingle : ∀ c : Step, c.start = s.start → c.length = s.length →
      Contiguous s.start [c] s.stop := by
    intro c hstart hlength
    exact ⟨hstart, by rw [Step.stop, hstart, hlength]; rfl⟩
  have hnothing : s.length = 0 → Contiguous s.start [] s.stop :=
    fun h0 => by rw [Step.stop, h0]; rfl
  cases body with
  | literal text => exact .inl ⟨h.1, _, h.2⟩
  | pattern p =>
    obtain ⟨rest, hrest, hmatch⟩ := Option.bind_eq_some_iff.mp h.2.2
    obtain ⟨front, after, rfl, hlength⟩ := p.boundary hmatch
    refine .inl ⟨h.1, front, ?_⟩
    rw [Step.stop, ← hlength]
    exact Buffer.slice?_of_append hrest
  | sequence rules => exact .inr h.2.2.1
  | choice rules =>
    obtain ⟨c, rfl, _, hstart, hlength⟩ := h
    exact .inr (hsingle c hstart hlength)
  | optional rule =>
    rcases h with ⟨rfl, h0⟩ | ⟨c, rfl, _, hstart, hlength⟩
    · exact .inr (hnothing h0)
    · exact .inr (hsingle c hstart hlength)
  | repetition rule => exact .inr h.2.1
  | epsilon =>
    obtain ⟨rfl, h0⟩ := h
    exact .inr (hnothing h0)
  | endOfInput =>
    obtain ⟨rfl, h0, _⟩ := h
    exact .inr (hnothing h0)
  | reference target => exact h.elim

theorem Answer.Derived.tiled {r : Recognizer} {a : Answer}
    (h : a.Derived r) : a.Tiled r.buffer := by
  induction h with
  | @intro a hjust _ ih =>
    obtain ⟨found, _, hbody⟩ := hjust.body
    rcases hbody.tiles with ⟨hnone, text, htext⟩ | hparts
    · exact .text (List.map_eq_nil_iff.mp hnone) htext
    · exact .parts hparts ih

theorem Recognizer.Answers.tiled {r : Recognizer} {x : RuleId} {pos : Nat} {a : Answer}
    (h : r.Answers x pos a) : a.Tiled r.buffer := by
  cases hm : a.matched with
  | true => exact (h.derived hm).tiled
  | false =>
    obtain ⟨hlength, hchildren⟩ := h.failed hm
    refine .parts ?_ (hchildren ▸ List.forall_mem_nil _)
    rw [hchildren, Answer.stop, hlength]
    rfl

namespace Answer
variable {a c : Answer} {b : Buffer}

theorem leaves_of_children_eq_nil (h : a.children = []) : a.leaves = [a] := by
  rw [leaves, parts_eq, h, List.flatMap_nil, List.filter_cons_of_pos (by simp [h]), List.filter_nil]

theorem leaves_of_children_ne_nil (h : a.children ≠ []) : a.leaves = a.children.flatMap leaves := by
  rw [leaves, parts_eq, List.filter_cons_of_neg (by simpa using h), List.filter_flatMap]
  rfl

namespace Tiled

/-- What an answer is made of has no gap; there may be nothing. -/
theorem range (h : a.Tiled b) (hc : c ∈ a.children) : a.start ≤ c.start ∧ c.stop ≤ a.stop := by
  cases h with
  | text hnone => exact absurd (hnone ▸ hc) List.not_mem_nil
  | parts hcontiguous => exact hcontiguous.range (List.mem_map_of_mem hc)

/-- From a boundary on an answer has as its text the texts of its childless parts. -/
theorem text_eq (h : a.Tiled b) (hstart : Boundary b.text a.start) :
    b.slice? a.start a.stop = some (a.leaves.flatMap (Answer.text b)) := by
  induction h with
  | @text a text hnone htext =>
    rw [leaves_of_children_eq_nil hnone, List.flatMap_singleton, Answer.text,
      htext, Option.getD_some]
  | @parts a hcontiguous _ ih =>
    by_cases hnone : a.children = []
    · have hstop : a.start = a.stop := by rwa [hnone] at hcontiguous
      rw [leaves_of_children_eq_nil hnone, List.flatMap_singleton, Answer.text, ← hstop,
        Buffer.slice?_refl hstart, Option.getD_some]
    · rw [leaves_of_children_ne_nil hnone, List.flatMap_assoc]
      exact (hcontiguous.slice hstart ih).2

/-- An answer that does not begin at a boundary consumes nothing. -/
theorem idle (h : a.Tiled b) (hstart : ¬ Boundary b.text a.start) : a.length = 0 := by
  induction h with
  | text _ htext => exact absurd (Buffer.boundary_start htext) hstart
  | @parts a hcontiguous _ ih =>
    have hstop : a.start = a.stop := hcontiguous.idle <| List.forall_mem_map.mpr fun c hc hc' =>
      ih c hc (show ¬ Boundary b.text c.step.start from hc' ▸ hstart)
    rw [Answer.stop] at hstop
    omega

theorem child (h : a.Tiled b) (hc : c ∈ a.children) : c.Tiled b := by
  cases h with
  | text hnone => exact absurd (hnone ▸ hc) List.not_mem_nil
  | parts _ hparts => exact hparts c hc

/-- What an answer from a boundary on is made of begins at boundaries. -/
theorem child_boundary (h : a.Tiled b) (hstart : Boundary b.text a.start) (hc : c ∈ a.children) :
    Boundary b.text c.start := by
  cases h with
  | text hnone => exact absurd (hnone ▸ hc) List.not_mem_nil
  | parts hcontiguous hparts =>
    exact (hcontiguous.slice hstart fun c hc => (hparts c hc).text_eq).1 c hc

/-- What an answer is made of that consumes nothing begins where it does and consumes nothing. -/
theorem child_idle (h : a.Tiled b) (hlength : a.length = 0) (hc : c ∈ a.children) :
    c.start = a.start ∧ c.length = 0 := by
  have hrange := h.range hc
  simp only [Answer.stop] at hrange
  omega

end Tiled

theorem Within.tiled (h : a.Within c) (ha : a.Tiled b) : c.Tiled b := by
  induction h with
  | refl => exact ha
  | child _ hc ih => exact ih.child hc

theorem Within.boundary (h : a.Within c) (ha : a.Tiled b) (hstart : Boundary b.text a.start) :
    Boundary b.text c.start := by
  induction h with
  | refl => exact hstart
  | child hwithin hc ih => exact (hwithin.tiled ha).child_boundary ih hc

theorem Within.idle (h : a.Within c) (ha : a.Tiled b) (hlength : a.length = 0) : c.length = 0 := by
  induction h with
  | refl => exact hlength
  | child hwithin hc ih => exact ((hwithin.tiled ha).child_idle ih hc).2

end Answer

/-! ### Derivations -/

/-- The spans of the nodes of a derivation are those of their texts in the buffer. -/
structure Derivation.Spans (b : Buffer) (d : Derivation) : Prop where
  /-- Every node begins and ends at a boundary, and its text is what lies between. -/
  node : ∀ id s, d.step? id = some s → Boundary b.text s.start ∧ Boundary b.text s.stop ∧
    ∃ front rest, b.text = front ++ d.text b id ++ rest ∧ utf8Length front = s.start ∧
      s.start + utf8Length (d.text b id) = s.stop
  child : ∀ id s, d.step? id = some s → ∀ c ∈ d.forest.children id, ∀ t, d.step? c = some t →
    s.start ≤ t.start ∧ t.stop ≤ s.stop
  /-- The texts of the childless nodes in pre-order are the whole text. -/
  leaves : (d.nodes.filter fun id => (d.forest.children id).isEmpty).flatMap (d.text b) =
    d.text b d.root

variable {r : Recognizer} {x : RuleId} {pos : Nat} {a : Answer} {b : Buffer}

/-- Each node has the step and the text of the answer that it stands for. -/
theorem Derivation.Shows.step_eq {d : Derivation} {label : NodeId → Answer} (h : d.Shows a label)
    {id : NodeId} {s : Step} (hs : d.step? id = some s) :
    s = (label id).step ∧ a.Within (label id) ∧ d.text b id = (label id).text b ∧
      (d.forest.children id).map label = (label id).children := by
  have htext : d.text b id = (b.slice? s.start s.stop).getD [] := by
    rw [Derivation.text, hs, Option.bind_some]
  obtain ⟨n, hn, rfl⟩ := Option.map_eq_some_iff.mp hs
  obtain ⟨hstep, hwithin, hchildren, _⟩ := h.node id n hn
  rw [← Forest.children_of_node? hn] at hchildren
  rw [hstep] at htext
  exact ⟨hstep, hwithin, htext, hchildren⟩

/-- The texts of the childless nodes in pre-order are those of the childless parts in order. -/
theorem Answer.leaves_text (b : Buffer) (a : Answer) : let d := Derivation.ofAnswer a
    (d.nodes.filter fun id => (d.forest.children id).isEmpty).flatMap (d.text b) = a.leaves.flatMap
    (Answer.text b) := by
  intro d
  obtain ⟨label, hshows⟩ := Derivation.ofAnswer_shows a
  obtain ⟨hparts, hmade⟩ := hshows.map_nodes
  have hstep : ∀ id ∈ d.nodes, d.text b id = (label id).text b ∧
      (d.forest.children id).map label = (label id).children := by
    intro id hid
    obtain ⟨n, hn⟩ := Forest.allocated_iff.mp (hmade id hid)
    obtain ⟨_, _, htext, hchildren⟩ := hshows.step_eq (b := b) (congrArg (·.map Node.value) hn)
    exact ⟨htext, hchildren⟩
  have hleaf : ∀ id ∈ d.nodes, (d.forest.children id).isEmpty = (label id).children.isEmpty := by
    intro id hid
    rw [← (hstep id hid).2, List.isEmpty_map]
  rw [leaves, ← hparts, List.filter_map, List.flatMap_map, List.filter_congr hleaf]
  exact List.flatMap_congr fun id hid => (hstep id (List.mem_filter.mp hid).1).1

/-- From a boundary on, a derivation from an answer without gaps has the spans of its texts. -/
theorem Answer.Tiled.spans (h : a.Tiled b) (hstart : Boundary b.text a.start) :
    (Derivation.ofAnswer a).Spans b := by
  obtain ⟨label, hshows⟩ := Derivation.ofAnswer_shows a
  have htext : ∀ c, a.Within c → b.slice? c.start c.stop = some (c.text b) := by
    intro c hc
    have hslice := (hc.tiled h).text_eq (hc.boundary h hstart)
    rw [Answer.text, hslice, Option.getD_some]
  refine ⟨?node, ?child, ?leaves⟩
  case node =>
    intro id s hs
    obtain ⟨rfl, hwithin, hnode, _⟩ := hshows.step_eq (b := b) hs
    have hslice := htext _ hwithin
    rw [hnode]
    exact ⟨Buffer.boundary_start hslice, Buffer.boundary_stop hslice,
      Buffer.slice?_eq_some_iff.mp hslice⟩
  case child =>
    intro id s hs c hc t ht
    obtain ⟨rfl, hwithin, _, hchildren⟩ := hshows.step_eq (b := b) hs
    obtain ⟨rfl, _⟩ := hshows.step_eq (b := b) ht
    exact (hwithin.tiled h).range (hchildren ▸ List.mem_map_of_mem hc)
  case leaves =>
    obtain ⟨hroot, top, htop⟩ := hshows.root
    obtain ⟨_, _, hnode, _⟩ := hshows.step_eq (b := b) (show _ = some _ from congrArg _ htop)
    rw [leaves_text, hnode, hroot, Answer.text, h.text_eq hstart, Option.getD_some]

/-- Whatever was applied before: a derivation from a boundary of the buffer on has the spans of its
texts, and one from an offset that is no boundary, or past the end, consumes nothing. -/
theorem apply_spans {s : Session} (hs : r.Reachable s) (ha : (r.apply x pos s).1 = .ok a) :
    let d := Derivation.ofAnswer a
    (Boundary r.buffer.text pos → d.Spans r.buffer) ∧
      (¬ Boundary r.buffer.text pos → ∀ id s, d.step? id = some s → s.length = 0) := by
  intro d
  have hanswers : r.Answers x pos a := ((r.apply_upholds x pos s hs.disciplined).of_ok ha).1
  rw [← hanswers.start_eq]
  refine ⟨hanswers.tiled.spans, fun hstart id s hs => ?_⟩
  obtain ⟨label, hshows⟩ := Derivation.ofAnswer_shows a
  obtain ⟨rfl, hwithin, _⟩ := hshows.step_eq (b := r.buffer) hs
  exact hwithin.idle hanswers.tiled (hanswers.tiled.idle hstart)

set_option maxRecDepth 20000 in
/-- Characters of two bytes, from a boundary on and from within one. -/
theorem apply_spans_of_two_bytes :
    let graph : RuleGraph :=
  ⟨#[⟨"word", .sequence [⟨1⟩, ⟨2⟩], {}⟩, ⟨"ß*", .repetition ⟨3⟩, {}⟩, ⟨"x?", .optional ⟨4⟩, {}⟩,
      ⟨"ß", .literal "ß", {}⟩, ⟨"x", .literal "x", {}⟩]⟩
    let r : Recognizer := { graph, buffer := .ofList ['a', 'ß', 'ß', 'x'] }
    let s := (r.apply ⟨0⟩ 2 {}).2
    let word : Answer := .node ⟨0⟩ 1 5 [.node ⟨1⟩ 1 4 [.node ⟨3⟩ 1 2 [], .node ⟨3⟩ 3 2 []],
      .node ⟨2⟩ 5 1 [.node ⟨4⟩ 5 1 []]]
    let nothing : Answer := .node ⟨0⟩ 2 0 [.node ⟨1⟩ 2 0 [], .node ⟨2⟩ 2 0 []]
    (r.Reachable s ∧ (r.apply ⟨0⟩ 1 s).1 = .ok word ∧ Boundary r.buffer.text 1 ∧
      (Derivation.ofAnswer word).Spans r.buffer) ∧
    (r.Reachable {} ∧ (r.apply ⟨0⟩ 2 {}).1 = .ok nothing ∧ ¬ Boundary r.buffer.text 2 ∧
      ∀ id t, (Derivation.ofAnswer nothing).step? id = some t → t.length = 0) := by
  intro graph r s word nothing
  have hs : r.Reachable s := .apply ⟨0⟩ 2 .start
  have hword : (r.apply ⟨0⟩ 1 (r.apply ⟨0⟩ 2 {}).2).1 = .ok word := by cbv
  have hnothing : (r.apply ⟨0⟩ 2 {}).1 = .ok nothing := by cbv
  have hboundary : Boundary r.buffer.text 1 := by decide
  have hwithin : ¬ Boundary r.buffer.text 2 := by decide
  exact ⟨⟨hs, hword, hboundary, (apply_spans hs hword).1 hboundary⟩,
    ⟨.start, hnothing, hwithin, (apply_spans .start hnothing).2 hwithin⟩⟩

end Packrat
