import Packrat.Rules.Reach

/-! Putting what placeholders stand for in their places.

After `resolve` no rule that the roots lead to refers to a placeholder. The
placeholders stay in the graph, where nothing leads to them any more. -/
namespace Packrat.RuleGraph

/-- Follows bindings for less than so many steps. -/
def followWithin (g : RuleGraph) (origin : RuleId) : Nat → RuleId → Except RuleError RuleId
  | 0, _ => .error (.referenceCycle origin)
  | n + 1, id => do
    match (← g.rule id).body with
    | .reference (some target) => g.followWithin origin n target
    | .reference none => throw (.unboundReference id)
    | _ => return id

/-- The rule that a placeholder stands for, through any number of bindings; any other rule stands for
itself. More bindings than there are rules meet one placeholder twice and go round for ever. -/
def follow (g : RuleGraph) (id : RuleId) : Except RuleError RuleId :=
  g.followWithin id (g.size + 1) id

/-- What the rules stand for, up to the first that stands for none; from there on they are left. -/
def followEach (g : RuleGraph) : List RuleId → List RuleId × Option RuleError
  | [] => ([], none)
  | id :: rest =>
    match g.follow id with
    | .error e => (id :: rest, some e)
    | .ok target =>
      let (targets, e) := g.followEach rest
      (target :: targets, e)

def setBody (g : RuleGraph) (id : RuleId) (body : RuleBody) : RuleGraph :=
  g.modify id fun r => { r with body }

theorem size_setBody (g : RuleGraph) (id : RuleId) (body : RuleBody) :
    (g.setBody id body).size = g.size := by
  simp [setBody, modify, size]

/-- Puts targets in the places of placeholders in all rules that the pending ones lead to. On an error
the places filled so far stay filled. -/
def resolveFrom (g : RuleGraph) (seen : Std.HashSet RuleId) :
    List RuleId → Except RuleError Unit × RuleGraph
  | [] => (.ok (), g)
  | id :: pending =>
    if seen.contains id then g.resolveFrom seen pending
    else
      match _h : g.rule? id with
      | none => (.error (.dangling id), g)
      | some r =>
        match g.followEach r.body.children with
        | (children, some e) => (.error e, g.setBody id (r.body.withChildren children))
        | (children, none) =>
          (g.setBody id (r.body.withChildren children)).resolveFrom (seen.insert id)
            (children.reverse ++ pending)
termination_by pending => (g.unseen seen, pending.length)
decreasing_by
  · exact Prod.Lex.right _ (Nat.lt_succ_self _)
  · refine Prod.Lex.left _ _ ?_
    simp only [unseen, size_setBody]
    exact unseen_insert_lt (Array.getElem?_eq_some_iff.mp _h).1 ‹_›

/-- Puts what it stands for in the place of each placeholder that the roots lead to, and gives what
the roots themselves stand for. -/
def resolve (g : RuleGraph) (roots : List RuleId) : Except RuleError (List RuleId) × RuleGraph :=
  match roots.mapM g.follow with
  | .error e => (.error e, g)
  | .ok roots =>
    let (outcome, g) := g.resolveFrom ∅ roots.reverse
    (outcome.map fun _ => roots, g)

end Packrat.RuleGraph
