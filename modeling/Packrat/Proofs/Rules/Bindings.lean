import Packrat.Proofs.Rules.Resolved
import Mathlib.Data.Finset.Card
import Mathlib.Data.Nat.SuccPred
import Mathlib.Order.SuccPred.Relation
import Mathlib.Order.WellFounded

/-! Chains of bindings.

A placeholder is bound to at most one rule, so one chain of bindings goes out from each rule. Where
all numbers are there it ends at a rule that is no placeholder (`RuleGraph.StandsFor`), or ends at a
placeholder without a target (`RuleGraph.EndsUnbound`), or never ends (`RuleGraph.Endless`), and
only one of these (`RuleGraph.ComesTo.unique`).

Following a chain keeps no record of what was met, it only counts. That is enough: a chain of as
many bindings as there are rules meets one of them twice (`exists_loop`), and a chain that leads
into a loop never ends (`endless_of_loop`). So a greater bound would make no difference, and
neither would a bound one smaller (`followWithin_comesTo`). -/
namespace Packrat.RuleGraph

/-- A placeholder and the rule that it is bound to. -/
def BoundTo (g : RuleGraph) (x y : RuleId) : Prop :=
  ∃ found, g.rule? x = some found ∧ found.body = .reference (some y)

/-- The chain of bindings ends at a rule that is no placeholder. -/
def StandsFor (g : RuleGraph) (x target : RuleId) : Prop :=
  Relation.ReflTransGen g.BoundTo x target ∧
    ∃ found, g.rule? target = some found ∧ found.body.isReference = false

/-- The chain of bindings ends at a placeholder without a target. -/
def EndsUnbound (g : RuleGraph) (x last : RuleId) : Prop :=
  Relation.ReflTransGen g.BoundTo x last ∧
    ∃ found, g.rule? last = some found ∧ found.body = .reference none

/-- The chain of bindings never ends. -/
def Endless (g : RuleGraph) (x : RuleId) : Prop :=
  ∃ chain : Nat → RuleId, chain 0 = x ∧ ∀ i, g.BoundTo (chain i) (chain (i + 1))

/-- What a chain of bindings comes to: the rule at its end, or why there is none. -/
inductive ComesTo (g : RuleGraph) (x : RuleId) : Except RuleError RuleId → Prop
  | rule {target : RuleId} (h : g.StandsFor x target) : g.ComesTo x (.ok target)
  | unbound {last : RuleId} (h : g.EndsUnbound x last) :
      g.ComesTo x (.error (.unboundReference last))
  | endless (h : g.Endless x) : g.ComesTo x (.error (.referenceCycle x))

variable {g : RuleGraph} {x y z target last origin : RuleId} {n : Nat} {chain : Nat → RuleId}
  {r r' : Except RuleError RuleId}

theorem comesTo_ok : g.ComesTo x (.ok target) ↔ g.StandsFor x target := ⟨fun | .rule h => h, .rule⟩

theorem comesTo_unboundReference : g.ComesTo x (.error (.unboundReference last)) ↔
    g.EndsUnbound x last :=
  ⟨fun | .unbound h => h, .unbound⟩

theorem comesTo_referenceCycle : g.ComesTo x (.error (.referenceCycle x)) ↔ g.Endless x :=
  ⟨fun | .endless h => h, .endless⟩

/-! ### One binding -/

theorem BoundTo.refers (h : g.BoundTo x y) : g.Refers x y := by
  obtain ⟨found, hfound, hbody⟩ := h
  exact ⟨found, hfound, hbody ▸ List.mem_singleton_self y⟩

theorem boundTo_unique (g : RuleGraph) : Relator.RightUnique g.BoundTo := by
  rintro x y z ⟨found, hfound, hy⟩ ⟨found', hfound', hz⟩
  cases hfound.symm.trans hfound'
  cases hy.symm.trans hz
  rfl

theorem followWithin_bound (h : g.BoundTo x y) :
    g.followWithin origin (n + 1) x = g.followWithin origin n y := by
  obtain ⟨found, hfound, hbody⟩ := h
  simp only [followWithin, RuleGraph.rule, hfound, bind, Except.bind, hbody]

theorem followWithin_unbound {found : Rule} (hfound : g.rule? x = some found)
    (hbody : found.body = .reference none) :
    g.followWithin origin (n + 1) x = .error (.unboundReference x) := by
  simp only [followWithin, RuleGraph.rule, hfound, bind, Except.bind, hbody]
  rfl

/-! ### Chains that end -/

theorem StandsFor.head (hxy : g.BoundTo x y) (h : g.StandsFor y z) : g.StandsFor x z :=
  h.imp_left (.head hxy)

theorem EndsUnbound.head (hxy : g.BoundTo x y) (h : g.EndsUnbound y z) : g.EndsUnbound x z :=
  h.imp_left (.head hxy)

/-- A chain that ends does so at a rule that is bound to none, and what this rule is decides what
the chain comes to. -/
theorem ComesTo.cases (h : g.ComesTo x r) : (g.Endless x ∧ r = .error (.referenceCycle x)) ∨
    ∃ last found, Relation.ReflTransGen g.BoundTo x last ∧ g.rule? last = some found ∧
    (∀ y, ¬ g.BoundTo last y) ∧
      r = if found.body.isReference then .error (.unboundReference last) else .ok last := by
  cases h with
  | @rule target h =>
    obtain ⟨hled, found, hfound, hplain⟩ := h
    refine .inr ⟨target, found, hled, hfound, ?_, by rw [hplain]; rfl⟩
    rintro y ⟨found', hfound', hbody⟩
    cases hfound.symm.trans hfound'
    rw [hbody] at hplain
    cases hplain
  | @unbound last h =>
    obtain ⟨hled, found, hfound, hnone⟩ := h
    refine .inr ⟨last, found, hled, hfound, ?_, by rw [hnone]; rfl⟩
    rintro y ⟨found', hfound', hbody⟩
    cases hfound.symm.trans hfound'
    cases hnone.symm.trans hbody
  | endless h => exact .inl ⟨h, rfl⟩

theorem eq_of_last (hxy : Relation.ReflTransGen g.BoundTo x y)
    (hxz : Relation.ReflTransGen g.BoundTo x z) (hy : ∀ w, ¬ g.BoundTo y w)
    (hz : ∀ w, ¬ g.BoundTo z w) : y = z := by
  rcases Relation.ReflTransGen.total_of_right_unique g.boundTo_unique hxy hxz with hyz | hzy
  · rcases hyz.cases_head with rfl | ⟨w, hyw, _⟩
    · rfl
    · exact absurd hyw (hy w)
  · rcases hzy.cases_head with rfl | ⟨w, hzw, _⟩
    · rfl
    · exact absurd hzw (hz w)

/-! ### Chains that never end -/

theorem Endless.boundTo (h : g.Endless x) : ∃ y, g.BoundTo x y ∧ g.Endless y := by
  obtain ⟨chain, rfl, hchain⟩ := h
  exact ⟨chain 1, hchain 0, fun i => chain (i + 1), rfl, fun i => hchain (i + 1)⟩

/-- Wherever a chain that never ends has got to, it goes on. -/
theorem Endless.goes_on (h : g.Endless x) (hxy : Relation.ReflTransGen g.BoundTo x y) :
    ∃ z, g.BoundTo y z := by
  have hy : g.Endless y := by
    induction hxy with
    | refl => exact h
    | tail _ hlast ih =>
      obtain ⟨w, hw, hendless⟩ := ih.boundTo
      cases g.boundTo_unique hlast hw
      exact hendless
  exact hy.boundTo.imp fun _ => And.left

theorem ComesTo.unique (h : g.ComesTo x r) (h' : g.ComesTo x r') : r = r' := by
  rcases h.cases with ⟨hendless, rfl⟩ | ⟨last, found, hled, hfound, hlast, rfl⟩
  · rcases h'.cases with ⟨_, rfl⟩ | ⟨last', _, hled', _, hlast', _⟩
    · rfl
    · obtain ⟨y, hy⟩ := hendless.goes_on hled'
      exact absurd hy (hlast' y)
  · rcases h'.cases with ⟨hendless, _⟩ | ⟨last', found', hled', hfound', hlast', rfl⟩
    · obtain ⟨y, hy⟩ := hendless.goes_on hled
      exact absurd hy (hlast y)
    · cases eq_of_last hled hled' hlast hlast'
      cases hfound.symm.trans hfound'
      rfl

theorem endless_of_loop (hxy : Relation.ReflTransGen g.BoundTo x y)
    (hyy : Relation.TransGen g.BoundTo y y) : g.Endless x := by
  have hnot : ¬ Acc (Function.swap g.BoundTo) x := by
    intro hacc
    induction hacc with
    | intro x _ ih =>
      -- Once round the loop, so that there is a first binding also where `x` is on the loop itself.
      obtain ⟨z, hxz, hzy⟩ := Relation.TransGen.head'_iff.mp (Relation.TransGen.trans_right hxy hyy)
      exact ih z hxz hzy
  exact not_acc_iff_exists_descending_chain.mp hnot

/-- Where more rules are named than there are, one is named twice. -/
theorem exists_repeat (hcontains : ∀ i ≤ n, g.contains (chain i) = true) (hn : g.size ≤ n) :
    ∃ i j, i < j ∧ j ≤ n ∧ chain i = chain j := by
  have hmaps : Set.MapsTo chain (Finset.range (n + 1)) g.ids.toFinset := fun i hi =>
    List.mem_toFinset.mpr (mem_ids (hcontains i (Nat.le_of_lt_succ (Finset.mem_range.mp hi))))
  have hcard : g.ids.toFinset.card < (Finset.range (n + 1)).card :=
    calc g.ids.toFinset.card ≤ g.ids.length := List.toFinset_card_le _
      _ = g.size := length_ids
      _ < n + 1 := Nat.lt_succ_of_le hn
      _ = (Finset.range (n + 1)).card := (Finset.card_range _).symm
  obtain ⟨i, hi, j, hj, hne, heq⟩ := Finset.exists_ne_map_eq_of_card_lt_of_maps_to hcard hmaps
  rw [Finset.mem_range] at hi hj
  rcases Nat.lt_or_gt_of_ne hne with hij | hji
  · exact ⟨i, j, hij, Nat.le_of_lt_succ hj, heq⟩
  · exact ⟨j, i, hji, Nat.le_of_lt_succ hi, heq.symm⟩

/-- As many bindings as there are rules, one after the other, go round a loop. -/
theorem exists_loop (hg : g.Closed) (h0 : g.contains (chain 0) = true) (hn : g.size ≤ n)
    (hchain : ∀ i < n, g.BoundTo (chain i) (chain (i + 1))) :
    ∃ y, Relation.ReflTransGen g.BoundTo (chain 0) y ∧ Relation.TransGen g.BoundTo y y := by
  have hcontains : ∀ i ≤ n, g.contains (chain i) = true := by
    intro i hi
    cases i with
    | zero => exact h0
    | succ i => exact contains_of_refers hg (hchain i hi).refers
  obtain ⟨i, j, hij, hj, heq⟩ := exists_repeat hcontains hn
  have hbindings : ∀ k < j, g.BoundTo (chain k) (chain (Order.succ k)) :=
    fun k hk => hchain k (by omega)
  have hbefore : Relation.ReflTransGen g.BoundTo (chain 0) (chain i) :=
    (reflTransGen_of_succ_of_le (fun k l => g.BoundTo (chain k) (chain l))
      (fun k hk => hbindings k (hk.2.trans hij)) (Nat.zero_le i)).lift chain fun _ _ => id
  have hround : Relation.TransGen g.BoundTo (chain i) (chain j) :=
    (transGen_of_succ_of_lt (fun k l => g.BoundTo (chain k) (chain l))
      (fun k hk => hbindings k hk.2) hij).lift chain fun _ _ => id
  exact ⟨chain i, hbefore, heq ▸ hround⟩

/-- A chain never ends if and only if it leads into a loop. -/
theorem endless_iff_loop (hg : g.Closed) (hx : g.contains x = true) :
    g.Endless x ↔ ∃ y, Relation.ReflTransGen g.BoundTo x y ∧ Relation.TransGen g.BoundTo y y := by
  constructor
  · rintro ⟨chain, rfl, hchain⟩
    exact exists_loop hg hx le_rfl fun i _ => hchain i
  · rintro ⟨y, hxy, hyy⟩
    exact endless_of_loop hxy hyy

/-! ### Following a chain -/

/-- So many steps find the end of a chain, or it has as many bindings. -/
theorem followWithin_cases (hg : g.Closed) (hx : g.contains x = true) (origin : RuleId) (n : Nat) :
    (∃ target, g.followWithin origin n x = .ok target ∧ g.StandsFor x target) ∨
    (∃ last, g.followWithin origin n x = .error (.unboundReference last) ∧ g.EndsUnbound x last) ∨
    g.followWithin origin n x = .error (.referenceCycle origin) ∧
      ∃ chain : Nat → RuleId, chain 0 = x ∧ ∀ i < n, g.BoundTo (chain i) (chain (i + 1)) := by
  induction n generalizing x with
  | zero => exact .inr (.inr ⟨rfl, fun _ => x, rfl, nofun⟩)
  | succ n ih =>
    obtain ⟨found, hfound⟩ := rule?_of_contains hx
    cases hbody : found.body with
    | reference target =>
      cases target with
      | none =>
        exact .inr (.inl ⟨x, followWithin_unbound hfound hbody, .refl, found, hfound, hbody⟩)
      | some y =>
        have hxy : g.BoundTo x y := ⟨found, hfound, hbody⟩
        rw [followWithin_bound hxy]
        rcases ih (contains_of_refers hg hxy.refers) with
          ⟨t, hok, h⟩ | ⟨last, herror, h⟩ | ⟨herror, chain, rfl, hchain⟩
        · exact .inl ⟨t, hok, h.head hxy⟩
        · exact .inr (.inl ⟨last, herror, h.head hxy⟩)
        · refine .inr (.inr ⟨herror, fun i => i.casesOn x chain, rfl, fun i hi => ?_⟩)
          cases i with
          | zero => exact hxy
          | succ i => exact hchain i (Nat.lt_of_succ_lt_succ hi)
    | _ =>
      have hplain : found.body.isReference = false := by rw [hbody]; rfl
      exact .inl ⟨x, followWithin_self hfound hplain, .refl, found, hfound, hplain⟩

/-- As many steps as there are rules, or more, find what a chain comes to. -/
theorem followWithin_comesTo (hg : g.Closed) (hx : g.contains x = true) (hn : g.size ≤ n) :
    g.ComesTo x (g.followWithin x n x) := by
  rcases followWithin_cases hg hx x n with ⟨target, hok, h⟩ | ⟨last, herror, h⟩ | ⟨herror, chain,
    rfl, hchain⟩
  · exact hok ▸ .rule h
  · exact herror ▸ .unbound h
  · obtain ⟨y, hled, hloop⟩ := exists_loop hg hx hn hchain
    exact herror ▸ .endless (endless_of_loop hled hloop)

theorem follow_comesTo (hg : g.Closed) (hx : g.contains x = true) : g.ComesTo x (g.follow x) :=
  followWithin_comesTo hg hx (Nat.le_succ g.size)

theorem follow_eq_iff (hg : g.Closed) (hx : g.contains x = true) : g.follow x = r ↔ g.ComesTo x r :=
  ⟨fun h => h ▸ follow_comesTo hg hx, (follow_comesTo hg hx).unique⟩

/-- Following a chain of bindings among rules that are all there gives the rule at which the chain
ends, if that is no placeholder; names the placeholder without a target at which it ends; and says
that the rule leads round for ever exactly if the chain never ends, which is so where it leads into
a loop. One of these is the case. No chain that ends is cut off, whatever its length: any bound from
the number of rules on gives the same. -/
theorem follow_exact (hg : g.Closed) (hx : g.contains x = true) :
    (∀ target, g.follow x = .ok target ↔ g.StandsFor x target) ∧
    (∀ last, g.follow x = .error (.unboundReference last) ↔ g.EndsUnbound x last) ∧
    (g.follow x = .error (.referenceCycle x) ↔ g.Endless x) ∧
    ((∃ target, g.StandsFor x target) ∨ (∃ last, g.EndsUnbound x last) ∨ g.Endless x) ∧
    (g.Endless x ↔ ∃ y, Relation.ReflTransGen g.BoundTo x y ∧ Relation.TransGen g.BoundTo y y) ∧
    (∀ n, g.size ≤ n → g.followWithin x n x = g.follow x) := by
  refine ⟨fun target => (follow_eq_iff hg hx).trans comesTo_ok,
    fun last => (follow_eq_iff hg hx).trans comesTo_unboundReference,
    (follow_eq_iff hg hx).trans comesTo_referenceCycle, ?_, endless_iff_loop hg hx, fun n hn => ?_⟩
  · obtain ⟨r, hr⟩ : ∃ r, g.ComesTo x r := ⟨_, follow_comesTo hg hx⟩
    cases hr with
    | rule h => exact .inl ⟨_, h⟩
    | unbound h => exact .inr (.inl ⟨_, h⟩)
    | endless h => exact .inr (.inr h)
  · exact (followWithin_comesTo hg hx hn).unique (follow_comesTo hg hx)

/-- The first chain goes through every rule of its graph before it ends. The second one leads into a
loop that it does not start on, beside one that ends at a placeholder without a target. -/
theorem follow_exact_longest :
    let g : RuleGraph :=
  ⟨#[⟨"a", .reference (some ⟨2⟩), {}⟩, ⟨"a", .literal "x", {}⟩, ⟨"a", .reference (some ⟨3⟩), {}⟩,
      ⟨"a", .reference (some ⟨1⟩), {}⟩]⟩
    let g' : RuleGraph := ⟨#[⟨"a", .reference (some ⟨1⟩), {}⟩, ⟨"a", .reference (some ⟨2⟩), {}⟩,
      ⟨"a", .reference (some ⟨1⟩), {}⟩, ⟨"b", .reference (some ⟨4⟩), {}⟩,
      ⟨"b", .reference none, {}⟩]⟩
    (g.Closed ∧ g.contains ⟨0⟩ = true ∧ g.follow ⟨0⟩ = .ok ⟨1⟩ ∧ g.StandsFor ⟨0⟩ ⟨1⟩) ∧
    (g'.Closed ∧ g'.contains ⟨0⟩ = true ∧ g'.follow ⟨0⟩ = .error (.referenceCycle ⟨0⟩) ∧
      g'.Endless ⟨0⟩) ∧
    g'.contains ⟨3⟩ = true ∧ g'.follow ⟨3⟩ = .error (.unboundReference ⟨4⟩) ∧
      g'.EndsUnbound ⟨3⟩ ⟨4⟩ := by
  intro g g'
  have hg : g.Closed := by decide
  have hg' : g'.Closed := by decide
  have h0 : g.contains ⟨0⟩ = true := by decide
  have h0' : g'.contains ⟨0⟩ = true := by decide
  have h3' : g'.contains ⟨3⟩ = true := by decide
  have hok : g.follow ⟨0⟩ = .ok ⟨1⟩ := rfl
  have hcycle : g'.follow ⟨0⟩ = .error (.referenceCycle ⟨0⟩) := rfl
  have hunbound : g'.follow ⟨3⟩ = .error (.unboundReference ⟨4⟩) := rfl
  exact ⟨⟨hg, h0, hok, ((follow_exact hg h0).1 _).mp hok⟩,
    ⟨hg', h0', hcycle, (follow_exact hg' h0').2.2.1.mp hcycle⟩,
    h3', hunbound, ((follow_exact hg' h3').2.1 _).mp hunbound⟩

end Packrat.RuleGraph
