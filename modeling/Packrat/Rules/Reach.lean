import Std.Data.HashSet
import Packrat.Rules.Basic

/-! Depth-first walks through a graph of rules.

A walk keeps a list of pending rules, takes the first one, and unless it was seen
before puts those that come next in front of the rest. Whether a rule was seen is
decided when it is taken and not when it is put on the list, which makes the order
that of the recursive walk. -/
namespace Packrat.RuleGraph

/-- How many rules of the graph are not in the set. -/
def unseen (g : RuleGraph) (seen : Std.HashSet RuleId) : Nat :=
  (List.range g.size).countP fun i => !seen.contains ⟨i⟩

theorem unseen_insert_lt {g : RuleGraph} {seen : Std.HashSet RuleId} {id : RuleId}
    (hid : id.index < g.size) (hseen : ¬ seen.contains id) :
    g.unseen (seen.insert id) < g.unseen seen := by
  have hmem : id.index ∈ List.range g.size := List.mem_range.mpr hid
  obtain ⟨before, after, hsplit⟩ := List.append_of_mem hmem
  have hle : ∀ l : List Nat, l.countP (fun i => !(seen.insert id).contains ⟨i⟩) ≤
      l.countP (fun i => !seen.contains ⟨i⟩) := fun l =>
    List.countP_mono_left fun i _ h => by simp_all
  have hb := hle before
  have ha := hle after
  simp only [unseen, hsplit, List.countP_append, List.countP_cons]
  simp only [Bool.not_eq_true] at hseen
  simp only [Std.HashSet.contains_insert_self, hseen, Bool.not_true, Bool.not_false]
  simp only [Bool.false_eq_true, if_false, if_true]
  omega

/-- The rules that a walk visits, in order, and the number at which it ended early because no rule
has it. -/
structure Walk where
  visited : List RuleId
  dangling : Option RuleId

/-- Walks from the pending rules on, where `next` gives what comes after a rule. -/
def walkFrom (g : RuleGraph) (next : Rule → List RuleId) (seen : Std.HashSet RuleId) :
    List RuleId → Walk
  | [] => ⟨[], none⟩
  | id :: pending =>
    if seen.contains id then g.walkFrom next seen pending
    else
      match _h : g.rule? id with
      | none => ⟨[], some id⟩
      | some r =>
        let rest := g.walkFrom next (seen.insert id) (next r ++ pending)
        { rest with visited := id :: rest.visited }
termination_by pending => (g.unseen seen, pending.length)
decreasing_by
  · exact Prod.Lex.right _ (Nat.lt_succ_self _)
  · refine Prod.Lex.left _ _ (unseen_insert_lt ?_ ‹_›)
    exact (Array.getElem?_eq_some_iff.mp _h).1

def walk (g : RuleGraph) (next : Rule → List RuleId) (pending : List RuleId) : Walk :=
  g.walkFrom next ∅ pending

/-- All rules of a walk, which must not meet a number without a rule. -/
def Walk.all (w : Walk) : Except RuleError (List RuleId) :=
  match w.dangling with
  | none => .ok w.visited
  | some id => .error (.dangling id)

/-- All rules that the roots lead to, each once: a rule before those that it refers to, and these from
left to right. -/
def reachable (g : RuleGraph) (roots : List RuleId) : Except RuleError (List RuleId) :=
  (g.walk (·.body.children) roots).all

def isReference (g : RuleGraph) (id : RuleId) : Bool := (g.rule? id).any (·.body.isReference)

/-- Whether the roots lead to a placeholder, bound or not. The walk is from right to left and ends at
the first one. -/
def hasReference (g : RuleGraph) (roots : List RuleId) : Except RuleError Bool :=
  let w := g.walk (·.body.children.reverse) roots.reverse
  if w.visited.any g.isReference then .ok true else (fun _ => false) <$> w.all

end Packrat.RuleGraph
