import Packrat.Proofs.Recognition.Plain

/-! Left recursion through chains of sequences, and the iteration that it stands for.

A rule is a choice (`LeftRecursive`): some of its alternatives lead back to it through
sequences that begin with it, and the others, its bases, do not. Read as an iteration,
it matches a base and then, again and again, what one of its chains adds to a match
(`Iterates`); read as a tree, each round goes around what was matched before (`grown`).
Nothing here speaks of how rules are applied: `ans` gives what bases and pieces match. -/
namespace Packrat

/-- Sequences that begin each with the next one, and the piece that each goes on with. -/
abbrev Chain := List (RuleId × RuleId)

namespace Chain

/-- The first rule of a chain; past its end, the rule that it leads to. -/
def entry (top : RuleId) : Chain → RuleId
  | [] => top
  | (x, _) :: _ => x

/-- The rules are sequences as the chain says, and the last one begins with `top`. -/
def LeadsTo (g : RuleGraph) (top : RuleId) : Chain → Prop
  | [] => True
  | (x, piece) :: rest =>
    (∃ found, g.rule? x = some found ∧ found.body = .sequence [entry top rest, piece]) ∧
      LeadsTo g top rest

/-- What the chain adds to a match of the rule that it leads to, in the order of the text. -/
def pieces (chain : Chain) : List RuleId := (chain.map Prod.snd).reverse

/-- Matches of the chain's sequences around a match of the rule that it leads to. -/
def nest (pos : Nat) : Chain → List Answer → Answer → Answer
  | (x, _) :: rest, piece :: more, inner =>
    let below := nest pos rest more inner
    .node x pos (below.length + piece.length) [below, piece]
  | _, _, inner => inner

end Chain

/-- A choice between rules that lead back to it and rules that do not. -/
structure LeftRecursive (g : RuleGraph) (top : RuleId) (chains : List Chain) (bases : List RuleId) :
    Prop where
  rule : ∃ found, g.rule? top = some found ∧
    found.body = .choice (chains.map (Chain.entry top) ++ bases)
  recursive : chains ≠ []
  nonempty : ∀ chain ∈ chains, chain ≠ []
  leadsTo : ∀ chain ∈ chains, chain.LeadsTo g top
  distinct : ∀ chain ∈ chains, (chain.map Prod.fst).Nodup

/-- The number of bytes of matches one after the other. -/
def total (row : List Answer) : Nat := (row.map (·.length)).sum

/-- A match of a choice by one of its alternatives. -/
def alternative (top : RuleId) (pos : Nat) (a : Answer) : Answer := .node top pos a.length [a]

/-- Rounds around a match, the last one outermost. -/
def grown (top : RuleId) (pos : Nat) (seed : Answer)
    (rounds : List (Chain × List Answer)) : Answer :=
  rounds.foldl (fun best round => alternative top pos (round.1.nest pos round.2.reverse best)) seed

section
variable (ans : RuleId → Nat → Answer)

/-- Matches of rules one after the other from an offset on. -/
def row : List RuleId → Nat → Option (List Answer)
  | [], _ => some []
  | x :: rest, q =>
    if (ans x q).matched then (row rest (q + (ans x q).length)).map (ans x q :: ·) else none

/-- The first chain that can add its pieces at an offset, with their matches. -/
def firstRow (chains : List Chain) (q : Nat) : Option (Chain × List Answer) :=
  chains.findSome? fun chain => (row ans chain.pieces q).map fun parts => (chain, parts)

/-- Greedy repetition: rounds from an offset to the one where no chain adds anything. -/
inductive Iterates (chains : List Chain) : Nat → List (Chain × List Answer) → Nat → Prop where
  | stop {q : Nat} : (∀ chain parts, firstRow ans chains q = some (chain, parts) →
      total parts = 0) → Iterates chains q [] q
  | round {q stop : Nat} {chain : Chain} {parts : List Answer}
      {rounds : List (Chain × List Answer)} :
      firstRow ans chains q = some (chain, parts) → total parts ≠ 0 →
      Iterates chains (q + total parts) rounds stop →
      Iterates chains q ((chain, parts) :: rounds) stop

end

theorem grown_matched {top : RuleId} {pos : Nat} {seed : Answer} (h : seed.matched = true)
    (rounds : List (Chain × List Answer)) : (grown top pos seed rounds).matched = true := by
  induction rounds generalizing seed with
  | nil => exact h
  | cons round rest ih => exact ih rfl

theorem total_append (l l' : List Answer) : total (l ++ l') = total l + total l' := by
  simp [total]

theorem row_snoc (ans : RuleId → Nat → Answer) (l : List RuleId) (x : RuleId) (q : Nat) :
    row ans (l ++ [x]) q = (row ans l q).bind fun parts =>
      if (ans x (q + total parts)).matched then some (parts ++ [ans x (q + total parts)])
      else none := by
  induction l generalizing q with
  | nil =>
    by_cases h : (ans x q).matched = true
    · simp [row, total, h]
    · simp [row, total, h]
  | cons y rest ih =>
    rw [List.cons_append, row, row, ih]
    by_cases h : (ans y q).matched = true
    · rw [if_pos h, if_pos h]
      cases row ans rest (q + (ans y q).length) with
      | none => rfl
      | some parts =>
        have htotal : q + (ans y q).length + total parts = q + total (ans y q :: parts) := by
          simp [total, Nat.add_assoc]
        rw [Option.bind_some, Option.map_some, Option.bind_some, htotal]
        by_cases hx : (ans x (q + total (ans y q :: parts))).matched = true
        · rw [if_pos hx, if_pos hx]
          rfl
        · rw [if_neg hx, if_neg hx]
          rfl
    · rw [if_neg h, if_neg h]
      rfl

namespace Chain
variable {ans : RuleId → Nat → Answer} {pos : Nat} {best : Answer}

theorem pieces_cons (x piece : RuleId) (rest : Chain) :
    pieces ((x, piece) :: rest) = pieces rest ++ [piece] := by
  simp [pieces]

/-- What the first rule of a chain answers where `best` is the answer of the rule that it leads
to. -/
def answer (ans : RuleId → Nat → Answer) (pos : Nat) (best : Answer) : Chain → Answer
  | [] => best
  | (x, piece) :: rest =>
    let below := answer ans pos best rest
    let more := ans piece below.stop
    if below.matched = true ∧ more.matched = true then
      .node x pos (below.length + more.length) [below, more]
    else .fail x pos

/-- A chain's rule matches if its pieces do, and then it is the pieces nested around the match. -/
theorem answer_eq (ans : RuleId → Nat → Answer) (hm : best.matched = true)
    (hstart : best.start = pos) (chain : Chain) :
    match row ans chain.pieces best.stop with
    | some parts => chain.answer ans pos best = chain.nest pos parts.reverse best ∧
        (chain.answer ans pos best).matched = true ∧ (chain.answer ans pos best).start = pos ∧
        (chain.answer ans pos best).length = best.length + total parts
    | none => (chain.answer ans pos best).matched = false := by
  induction chain with
  | nil => exact ⟨rfl, hm, hstart, rfl⟩
  | cons entry rest ih =>
    obtain ⟨x, piece⟩ := entry
    rw [pieces_cons, row_snoc]
    cases hrow : row ans (pieces rest) best.stop with
    | none =>
      rw [hrow] at ih
      rw [Option.bind_none, answer, if_neg (fun h => by rw [ih] at h; exact Bool.false_ne_true h.1)]
      rfl
    | some parts =>
      rw [hrow] at ih
      obtain ⟨hnest, hmatched, hbelow, hlength⟩ := ih
      have hstop : (answer ans pos best rest).stop = best.stop + total parts := by
        rw [Answer.stop, Answer.stop, hbelow, hlength, hstart, Nat.add_assoc]
      rw [Option.bind_some, answer, hstop]
      by_cases hpiece : (ans piece (best.stop + total parts)).matched = true
      · rw [if_pos hpiece, if_pos ⟨hmatched, hpiece⟩]
        refine ⟨?_, rfl, rfl, ?_⟩
        · rw [List.reverse_append, hnest]
          rfl
        · rw [total_append]
          show (answer ans pos best rest).length + _ = _
          rw [hlength]
          simp [total, Nat.add_assoc]
      · rw [if_neg hpiece, if_neg (fun h => hpiece h.2)]
        rfl

end Chain

/-! ### Rounds -/

section
variable (ans : RuleId → Nat → Answer) (top : RuleId) (pos : Nat)

/-- What the choice answers by its bases. -/
def baseAnswer (bases : List RuleId) : Answer :=
  match bases.find? fun b => (ans b pos).matched with
  | some b => alternative top pos (ans b pos)
  | none => .fail top pos

/-- What the choice answers where `best` is what it answers when it is applied again. -/
def roundAnswer (chains : List Chain) (bases : List RuleId) (best : Answer) : Answer :=
  match chains.find? fun chain => (chain.answer ans pos best).matched with
  | some chain => alternative top pos (chain.answer ans pos best)
  | none => baseAnswer ans top pos bases

end

section
variable {ans : RuleId → Nat → Answer} {pos : Nat} {best : Answer}
  (hm : best.matched = true) (hstart : best.start = pos)
include hm hstart

theorem find?_chain (chains : List Chain) :
    chains.find? (fun chain => (chain.answer ans pos best).matched) =
      (firstRow ans chains best.stop).map Prod.fst := by
  induction chains with
  | nil => rfl
  | cons chain rest ih =>
    have hchain := Chain.answer_eq ans hm hstart chain
    rw [firstRow, List.findSome?_cons, List.find?_cons]
    cases hrow : row ans chain.pieces best.stop with
    | none =>
      rw [hrow] at hchain
      rw [hchain]
      exact ih
    | some parts =>
      rw [hrow] at hchain
      rw [hchain.2.1]
      rfl

/-- A round in which a chain adds its pieces goes around the match so far. -/
theorem roundAnswer_some (top : RuleId) {chains : List Chain} (bases : List RuleId) {chain : Chain}
    {parts : List Answer} (h : firstRow ans chains best.stop = some (chain, parts)) :
    roundAnswer ans top pos chains bases best = alternative top pos
      (chain.nest pos parts.reverse best) ∧ (roundAnswer ans top pos chains bases best).length =
        best.length + total parts := by
  obtain ⟨chain', _, hrow⟩ := List.exists_of_findSome?_eq_some h
  obtain ⟨parts', hrow, heq⟩ := Option.map_eq_some_iff.mp hrow
  cases heq
  have hchain := Chain.answer_eq ans hm hstart chain
  rw [hrow] at hchain
  rw [roundAnswer, find?_chain hm hstart, h]
  refine ⟨?_, hchain.2.2.2⟩
  show alternative top pos (chain.answer ans pos best) = _
  rw [hchain.1]

/-- A round in which no chain adds anything comes down to the bases. -/
theorem roundAnswer_none (top : RuleId) {chains : List Chain} (bases : List RuleId)
    (h : firstRow ans chains best.stop = none) :
    roundAnswer ans top pos chains bases best = baseAnswer ans top pos bases := by
  rw [roundAnswer, find?_chain hm hstart, h]
  rfl

/-- A round in which no chain adds to the match so far brings nothing longer. -/
theorem roundAnswer_worse (top : RuleId) {chains : List Chain} {bases : List RuleId}
    (hbase : (baseAnswer ans top pos bases).length ≤ best.length)
    (hdone : ∀ chain parts, firstRow ans chains best.stop = some (chain, parts) → total parts = 0) :
    ¬ (roundAnswer ans top pos chains bases best).improvesOn best = true := by
  have hlength : (roundAnswer ans top pos chains bases best).length ≤ best.length := by
    cases hrow : firstRow ans chains best.stop with
    | none =>
      rw [roundAnswer_none hm hstart top bases hrow]
      exact hbase
    | some found =>
      obtain ⟨chain, parts⟩ := found
      rw [(roundAnswer_some hm hstart top bases hrow).2, hdone chain parts hrow]
      exact Nat.le_refl _
  simp [Answer.improvesOn, hm, hlength]

theorem roundAnswer_better (top : RuleId) {chains : List Chain} (bases : List RuleId)
    {chain : Chain} {parts : List Answer} (h : firstRow ans chains best.stop = some (chain, parts))
    (hadds : total parts ≠ 0) :
    (roundAnswer ans top pos chains bases best).improvesOn best = true := by
  obtain ⟨hanswer, hlength⟩ := roundAnswer_some hm hstart top bases h
  have hmatched : (roundAnswer ans top pos chains bases best).matched = true := by
    rw [hanswer]
    rfl
  simp [Answer.improvesOn, hm, hmatched, hlength, Nat.pos_of_ne_zero hadds]

end

end Packrat
