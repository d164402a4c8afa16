import Packrat.Rules.Definition
import Packrat.Proofs.Grammar.LeastNullable
import Packrat.Proofs.Grammar.Registry

/-! Where the flags of rules come from.

A rule matches the empty text everywhere if its body does by rules of which the same is known, and
no rule is known to but for such a reason (`RuleGraph.Empties`). If rules get their flags from their
definition and from analyses only, and whatever was bound and registered in between
(`RuleGraph.Made`), every rule that is flagged nullable is such a one (`Made.flagsSound`). For that,
placeholders may be filled in at any time: they match nothing by themselves, so no rule that matches
the empty text does so by one (`Empties.retained`). -/
namespace Packrat

/-- Other rules in the places, each of which holds what the one before does. -/
theorem RuleBody.NullableBy.withChildren {P Q : RuleId → Prop} {body : RuleBody}
    {children : List RuleId} (h : body.NullableBy P)
    (hchildren : List.Forall₂ (fun c c' => P c → Q c') body.children children) :
    (body.withChildren children).NullableBy Q := by
  cases body with
  | literal text => exact h
  | sequence rules =>
    obtain ⟨hne, hall⟩ := h
    refine ⟨fun hnil => hne ?_, fun y hy => ?_⟩
    · subst hnil
      exact List.forall₂_nil_right_iff.mp hchildren
    · obtain ⟨c, hc, hcy⟩ := RuleGraph.exists_related_of_mem hchildren.flip hy
      exact hcy (hall c hc)
  | choice rules =>
    obtain ⟨c, hc, hP⟩ := h
    obtain ⟨y, hy, hcy⟩ := RuleGraph.exists_related_of_mem hchildren hc
    exact ⟨y, hy, hcy hP⟩
  | optional rule | repetition rule =>
    obtain ⟨y, _, _, hnil, rfl⟩ := List.forall₂_cons_left_iff.mp hchildren
    cases hnil
    trivial
  | epsilon => trivial
  | pattern _ | endOfInput | reference _ => exact h.elim

theorem RuleBody.NullableBy.plain {P : RuleId → Prop} {body : RuleBody} (h : body.NullableBy P) :
    body.isReference = false := by
  cases body with
  | reference _ => exact h.elim
  | _ => rfl

namespace RuleGraph
variable {g g' : RuleGraph} {x y : RuleId}

/-! ### Rules that match the empty text -/

/-- The rule is in each set that has every rule whose body matches the empty text by the set. -/
def Empties (g : RuleGraph) (x : RuleId) : Prop :=
  ∀ N : Set RuleId, (∀ y found, g.rule? y = some found → found.body.NullableBy (· ∈ N) → y ∈ N) →
    x ∈ N

theorem empties_of_body {found : Rule} (hfound : g.rule? x = some found)
    (hbody : found.body.NullableBy g.Empties) :
    g.Empties x := fun N hN => hN x found hfound (hbody.mono fun _ hy => hy N hN)

/-- Whatever holds of a rule if it holds of the rules by which its body matches the empty text. -/
theorem Empties.rec {P : RuleId → Prop} (h : g.Empties x)
    (hP : ∀ y found, g.rule? y = some found → found.body.NullableBy P → P y) : P x := h {y | P y} hP

/-- What is no placeholder has the same body in the other graph, but for placeholders in it that are
filled in. -/
def Retains (g g' : RuleGraph) : Prop := ∀ x found, g.rule? x = some found →
    found.body.isReference = false →
  ∃ found' children, g'.rule? x = some found' ∧ g.Filled found.body.children children ∧
    found'.body = found.body.withChildren children

theorem Retains.of_body (h : ∀ x found, g.rule? x = some found → found.body.isReference = false →
    ∃ found', g'.rule? x = some found' ∧ found'.body = found.body) : g.Retains g' := by
  intro x found hfound hplain
  obtain ⟨found', hfound', hbody⟩ := h x found hfound hplain
  exact ⟨found', found.body.children, hfound',
    .refl g _, by rw [hbody, RuleBody.withChildren_children]⟩

theorem SameBodies.retains (h : g.SameBodies g') : g.Retains g' :=
  .of_body fun _ _ hfound _ => h.rule? hfound

theorem FilledFrom.retains {P : RuleId → Prop} (h : g.FilledFrom P g') : g.Retains g' := by
  intro x found hfound _
  obtain ⟨children, hfilled, _, hrule⟩ := h.rule? hfound
  exact ⟨_, children, hrule, hfilled, rfl⟩

/-- A rule that matches the empty text is no placeholder, so it stays where it stands when others
are filled in. -/
theorem Empties.retained (hx : g.Empties x) (h : g.Retains g') : g'.Empties x := by
  refine (hx.rec (P := fun y => g.follow y = .ok y ∧ g'.Empties y) fun y found hfound hbody => ?_).2
  obtain ⟨found', children, hfound', hfilled, hbody'⟩ := h y found hfound hbody.plain
  refine ⟨follow_self hfound hbody.plain,
    empties_of_body hfound' (hbody' ▸ hbody.withChildren (hfilled.imp ?_))⟩
  rintro c c' hc ⟨hself, hempties⟩
  rcases hc with rfl | hc
  · exact hempties
  · cases hself.symm.trans hc
    exact hempties

/-! ### Rules that are flagged -/

/-- Every rule that is flagged nullable matches the empty text. -/
def FlagsSound (g : RuleGraph) : Prop := ∀ x, g.HasFlag (·.nullable) x → g.Empties x

theorem FlagsSound.retained (hg : g.FlagsSound)
    (hflags : ∀ x, g'.HasFlag (·.nullable) x → g.HasFlag (·.nullable) x) (h : g.Retains g') :
    g'.FlagsSound := fun x hx => (hg x (hflags x hx)).retained h

/-- The rules that are found by an analysis match the empty text, as far as flags that were there
are right. -/
theorem FlagsSound.of_nullability (hg : g.FlagsSound) {rules : List RuleId} {n : Nullability}
    (hn : g.nullability rules = .ok n) (hx : x ∈ n.rules) : g.Empties x := by
  have hclosed : g.NullClosed rules {y | y ∈ rules ∧ g.Empties y} := by
    refine ⟨fun y hy => hy.1, fun y hy hflag => ⟨hy, hg y hflag⟩,
      fun y hy found hfound hbody => ⟨hy, ?_⟩⟩
    exact empties_of_body hfound (hbody.mono fun z hz => hz.elim (·.2) (hg z))
  exact ((nullability_isLeast hn).2 hclosed hx).2

theorem rule?_add (g : RuleGraph) (rule : Rule) (x : RuleId) :
    (g.add rule).1.rule? x = if x = (g.add rule).2 then some rule else g.rule? x := by
  have hindex : x.index = g.rules.size ↔ x = ⟨g.size⟩ :=
    ⟨fun h => by cases x; exact congrArg _ h, fun h => h ▸ rfl⟩
  rw [add, rule?, Array.getElem?_push]
  simp only [hindex]
  rfl

theorem bind_ok {placeholder target : RuleId}
    (h : (Definition.bind placeholder target).run g = .ok ((), g')) :
    ∃ found name, g.rule? placeholder = some found ∧ found.body = .reference none ∧
      g' = g.modify placeholder fun r => { r with name, body := .reference (some target) } := by
  simp only [Definition.bind, StateT.run_bind, StateT.run_get, pure_bind, rule] at h
  cases htarget : g.rule? target with
  | none =>
    rw [htarget] at h
    cases h
  | some t =>
    cases hplaceholder : g.rule? placeholder with
    | none =>
      rw [htarget, hplaceholder] at h
      cases h
    | some found =>
      rw [htarget, hplaceholder] at h
      obtain ⟨_, body, _⟩ := found
      cases body with
      | reference bound =>
        cases bound with
        | none =>
          cases h
          exact ⟨_, t.name, rfl, rfl, rfl⟩
        | some _ => cases h
      | _ => cases h

/-- The flags that a rule is defined with are right, and the other rules stay as they are. -/
theorem FlagsSound.define (hg : g.FlagsSound) (name : String) (body : RuleBody) :
    (g.add { name, body }).1.FlagsSound := by
  have hnew : g.rule? (g.add { name, body }).2 = none := Array.getElem?_eq_none (Nat.le_refl _)
  have hkept : ∀ y found, g.rule? y = some found →
      (g.add { name, body }).1.rule? y = some found := by
    intro y found hfound
    rw [rule?_add, if_neg (fun h => by rw [h, hnew] at hfound; cases hfound), hfound]
  have hretains : g.Retains (g.add { name, body }).1 :=
    .of_body fun y found hfound _ => ⟨found, hkept y found hfound, rfl⟩
  rintro y ⟨found, hfound, hflag⟩
  rw [rule?_add] at hfound
  by_cases hy : y = (g.add { name, body }).2
  · rw [if_pos hy] at hfound
    cases hfound
    refine empties_of_body (by rw [rule?_add, if_pos hy]) ?_
    cases body with
    | literal text => exact String.isEmpty_iff.mp hflag
    | optional _ | repetition _ | epsilon => trivial
    | pattern _ | sequence _ | choice _ | endOfInput | reference _ => cases hflag
  · rw [if_neg hy] at hfound
    exact (hg y ⟨found, hfound, hflag⟩).retained hretains

theorem FlagsSound.bind (hg : g.FlagsSound) {placeholder target : RuleId}
    (h : (Definition.bind placeholder target).run g = .ok ((), g')) : g'.FlagsSound := by
  obtain ⟨bound, name, hbound, hreference, rfl⟩ := bind_ok h
  refine hg.retained ?_ (.of_body fun y found hfound hplain => ?_)
  · rintro y ⟨found, hfound, hflag⟩
    rw [rule?_modify] at hfound
    split at hfound
    · obtain ⟨found', hthere, rfl⟩ := Option.map_eq_some_iff.mp hfound
      exact ⟨found', hthere, hflag⟩
    · exact ⟨found, hfound, hflag⟩
  · have hother : y ≠ placeholder := by
      rintro rfl
      cases hfound.symm.trans hbound
      rw [hreference] at hplain
      cases hplain
    exact ⟨found, by rw [rule?_modify, if_neg hother, hfound], rfl⟩

theorem FlagsSound.filledFrom {P : RuleId → Prop} (hg : g.FlagsSound) (h : g.FilledFrom P g') :
    g'.FlagsSound := by
  refine hg.retained ?_ h.retains
  rintro y ⟨found, hfound, hflag⟩
  obtain ⟨found', hthere⟩ : ∃ found', g.rule? y = some found' := by
    have hcontains := contains_of_rule? hfound
    rw [contains, h.size] at hcontains
    exact rule?_of_contains hcontains
  obtain ⟨_, _, _, hrule⟩ := h.rule? hthere
  cases hfound.symm.trans hrule
  exact ⟨found', hthere, hflag⟩

theorem FlagsSound.addFlags_all (hg : g.FlagsSound) {rules : List RuleId} {flags : RuleFlags}
    (hflags : flags.nullable = true → ∀ y ∈ rules, g.Empties y) :
    (rules.foldl (·.addFlags · flags) g).FlagsSound := by
  intro y hy
  refine Empties.retained ?_ (addFlags_all_sameBodies g rules flags).retains
  rcases (addFlags_all_hasFlag_iff fun _ _ => rfl).mp hy with hold | ⟨hset, hmem, _⟩
  · exact hg y hold
  · exact hflags hset y hmem

theorem FlagsSound.step {g g' : Grammar} (hg : g.graph.FlagsSound) (h : Grammar.Step g g') :
    g'.graph.FlagsSound := by
  cases h with
  | register roots =>
    cases hout : g.register roots with
    | mk o g' =>
      cases Grammar.register_registers hout with
      | finalized | unknownRule => exact hg
      | unresolved _ _ hresolve => exact hg.filledFrom (resolve_filledFrom hresolve)
      | @registered targets found graph _ hresolve =>
        show (found.foldl Grammar.enroll _).graph.FlagsSound
        rw [(Grammar.foldl_enroll _ found).1]
        exact hg.filledFrom (resolve_filledFrom hresolve)
  | analyze hok =>
    rcases Grammar.analyze_cases hok with ⟨_, rfl⟩ | ⟨_, n, l, graph, hn, rfl, _, rfl⟩
    · exact hg
    · refine (hg.addFlags_all fun _ y hy => hg.of_nullability hn ?_).addFlags_all nofun
      exact Std.HashSet.mem_iff_contains.mpr (List.mem_filter.mp hy).2

/-- The graphs that come from defining and binding rules, and from registering and analyzing
them. -/
inductive Made : RuleGraph → Prop where
  | new : Made {}
  | define (name : String) (body : RuleBody) {g g' : RuleGraph} {x : RuleId} : Made g →
    (Definition.define name body).run g = .ok (x, g') → Made g'
  | bind (placeholder target : RuleId) {g g' : RuleGraph} : Made g →
    (Definition.bind placeholder target).run g = .ok ((), g') → Made g'
  | resolve {g : RuleGraph} (roots : List RuleId) : Made g → Made (g.resolve roots).2
  | run {g : RuleGraph} {grammar : Grammar} : Made g → Relation.ReflTransGen Grammar.Step
      { graph := g } grammar →
    Made grammar.graph

theorem Made.flagsSound (h : g.Made) : g.FlagsSound := by
  induction h with
  | new => exact fun x ⟨_, hfound, _⟩ => nomatch hfound
  | define name body _ hdefine ih =>
    cases hdefine
    exact ih.define name body
  | bind _ _ _ hbind ih => exact ih.bind hbind
  | resolve roots _ ih => exact ih.filledFrom (resolve_filledFrom rfl)
  | run _ hrun ih =>
    induction hrun with
    | refl => exact ih
    | tail _ hlast ih => exact ih.step hlast

end RuleGraph

end Packrat
