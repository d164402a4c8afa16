import Packrat.Proofs.Rules.Resolved
import Mathlib.Data.List.Forall2

/-! What resolving leaves behind, whichever way it ends.

The roots lead to a rule through placeholders (`RuleGraph.LedThrough`) if one gets there when
each placeholder is taken for what it stands for. These rules, and no others, are filled: in the
places of placeholders they get what these stand for, in all places if resolving succeeds
and in some if it fails. Placeholders themselves are never filled, so every number stands for
the same all the time (`FilledFrom.follow_eq`), and a place that has been filled stands for what it
stood for before.

The walk keeps to one invariant (`Resolving`): what has been seen is filled and leads only to what
has been seen or is pending, everything else is as it was, and all of it is led to. So where the
walk ends well, it has seen exactly what the roots lead to, and that is resolved
(`resolve_resolved`). Rules that were resolved before stay as they are in any case
(`resolve_keeps`). -/
namespace Packrat.RuleGraph

/-- A rule refers to another one, or to a placeholder that stands for it. -/
def RefersThrough (g : RuleGraph) (x y : RuleId) : Prop := ∃ c, g.Refers x c ∧ g.follow c = .ok y

/-- The roots lead to a rule if each placeholder is taken for what it stands for. -/
def LedThrough (g : RuleGraph) (roots : List RuleId) (x : RuleId) : Prop :=
  ∃ root ∈ roots, ∃ target, g.follow root = .ok target ∧
    Relation.ReflTransGen g.RefersThrough target x

/-- Each number stands for the rule in its place. -/
def Followed (g : RuleGraph) : List RuleId → List RuleId → Prop :=
  List.Forall₂ fun c target => g.follow c = .ok target

/-- In some places there is what the number stands for that was there. -/
def Filled (g : RuleGraph) : List RuleId → List RuleId → Prop :=
  List.Forall₂ fun c c' => c' = c ∨ g.follow c = .ok c'

/-- The rules of `g'` are those of `g`; of these some that have `P` are filled, and no placeholder
is. -/
structure FilledFrom (g : RuleGraph) (P : RuleId → Prop) (g' : RuleGraph) : Prop where
  size : g'.size = g.size
  other : ∀ x, ¬ P x → g'.rule? x = g.rule? x
  filled : ∀ x, P x → ∃ found children, g.rule? x = some found ∧ found.body.isReference = false ∧
    g.Filled found.body.children children ∧
    g'.rule? x = some { found with body := found.body.withChildren children }

variable {g g' g'' : RuleGraph} {P : RuleId → Prop} {x y c origin : RuleId}
  {roots rules targets pending : List RuleId} {seen : Std.HashSet RuleId} {found : Rule}
  {e : RuleError} {o : Option RuleError}

/-! ### Following several numbers -/

theorem exists_related_of_mem {α β : Type} {R : α → β → Prop} {as : List α} {bs : List β} {a : α}
    (h : List.Forall₂ R as bs) (ha : a ∈ as) : ∃ b ∈ bs, R a b := by
  induction h with
  | nil => cases ha
  | cons hab _ ih =>
    rcases List.mem_cons.mp ha with rfl | ha
    · exact ⟨_, List.mem_cons_self .., hab⟩
    · obtain ⟨b, hb, hab⟩ := ih ha
      exact ⟨b, List.mem_cons_of_mem _ hb, hab⟩

theorem Filled.refl (g : RuleGraph) (rules : List RuleId) : g.Filled rules rules :=
  List.forall₂_same.mpr fun _ _ => .inl rfl

theorem Followed.filled (h : g.Followed rules targets) : g.Filled rules targets :=
  h.imp fun _ _ => .inr

theorem followEach_congr (h : g'.follow = g.follow) (rules : List RuleId) :
    g'.followEach rules = g.followEach rules := by
  induction rules with
  | nil => rfl
  | cons c rest ih => rw [followEach, followEach, h, ih]

/-- The numbers are followed up to the first that stands for nothing. -/
theorem followEach_spec (h : g.followEach rules = (targets, o)) :
    g.Filled rules targets ∧ (o = none → g.Followed rules targets) ∧
      ∀ e, o = some e → ∃ c ∈ rules, g.follow c = .error e := by
  induction rules generalizing targets o with
  | nil =>
    cases h
    exact ⟨.nil, fun _ => .nil, nofun⟩
  | cons c rest ih =>
    rw [followEach] at h
    cases hc : g.follow c with
    | error e =>
      rw [hc] at h
      cases h
      refine ⟨.refl g _, nofun, fun e' he => ?_⟩
      cases he
      exact ⟨c, List.mem_cons_self .., hc⟩
    | ok target =>
      rw [hc] at h
      cases h
      obtain ⟨hfilled, hfollowed, herror⟩ := ih (o := (g.followEach rest).2) rfl
      refine ⟨.cons (.inr hc) hfilled, fun ho => .cons hc (hfollowed ho), fun e he => ?_⟩
      obtain ⟨c', hc', he⟩ := herror e he
      exact ⟨c', List.mem_cons_of_mem _ hc', he⟩

theorem mapM_follow : rules.mapM g.follow = .ok targets ↔ g.Followed rules targets := by
  induction rules generalizing targets with
  | nil =>
    constructor
    · intro h
      cases h
      exact .nil
    · intro h
      cases h
      rfl
  | cons c rest ih =>
    rw [List.mapM_cons]
    constructor
    · intro h
      cases hc : g.follow c with
      | error e => rw [hc] at h; cases h
      | ok target =>
        cases hrest : rest.mapM g.follow with
        | error e => rw [hc, hrest] at h; cases h
        | ok more =>
          rw [hc, hrest] at h
          cases h
          exact .cons hc (ih.mp hrest)
    · rintro (_ | ⟨hc, hrest⟩)
      rw [hc, ih.mpr hrest]
      rfl

theorem mapM_follow_error (h : rules.mapM g.follow = .error e) :
    ∃ c ∈ rules, g.follow c = .error e := by
  induction rules with
  | nil => cases h
  | cons c rest ih =>
    rw [List.mapM_cons] at h
    cases hc : g.follow c with
    | error e' =>
      rw [hc] at h
      cases h
      exact ⟨c, List.mem_cons_self .., hc⟩
    | ok target =>
      cases hrest : rest.mapM g.follow with
      | ok more => rw [hc, hrest] at h; cases h
      | error e' =>
        rw [hc, hrest] at h
        cases h
        obtain ⟨c', hc', he⟩ := ih hrest
        exact ⟨c', List.mem_cons_of_mem _ hc', he⟩

theorem Followed.of_mem (h : g.Followed rules targets) (hc : c ∈ rules) :
    ∃ y ∈ targets, g.follow c = .ok y :=
  exists_related_of_mem h hc

theorem Followed.mem (h : g.Followed rules targets) (hy : y ∈ targets) :
    ∃ c ∈ rules, g.follow c = .ok y :=
  exists_related_of_mem h.flip hy

theorem Filled.mem (h : g.Filled rules targets) (hy : y ∈ targets) :
    ∃ c ∈ rules, y = c ∨ g.follow c = .ok y :=
  exists_related_of_mem h.flip hy

/-- What is in a place stands for what it stood for. -/
theorem Filled.follow_eq (h : g.Filled rules targets) :
    List.Forall₂ (fun c c' => g.follow c' = g.follow c) rules targets := by
  refine h.imp fun c c' hc => ?_
  rcases hc with rfl | hc
  · rfl
  · obtain ⟨found, hfound, hplain⟩ := followWithin_plain hc
    rw [hc, follow_self hfound hplain]

/-- A rule that placeholders are taken for is none. -/
theorem LedThrough.plain (h : g.LedThrough roots x) :
    ∃ found, g.rule? x = some found ∧ found.body.isReference = false := by
  obtain ⟨root, _, target, htarget, hled⟩ := h
  rcases Relation.ReflTransGen.cases_tail hled with rfl | ⟨z, _, c, _, hc⟩
  · exact followWithin_plain htarget
  · exact followWithin_plain hc

theorem LedThrough.step (h : g.LedThrough roots x) (hxy : g.RefersThrough x y) :
    g.LedThrough roots y := by
  obtain ⟨root, hroot, target, htarget, hled⟩ := h
  exact ⟨root, hroot, target, htarget, hled.tail hxy⟩

/-! ### Rules that are filled -/

namespace FilledFrom

theorem refl (g : RuleGraph) (P : RuleId → Prop)
    (hP : ∀ x, P x → ∃ found, g.rule? x = some found ∧ found.body.isReference = false) :
    g.FilledFrom P g := by
  refine ⟨rfl, fun _ _ => rfl, fun x hx => ?_⟩
  obtain ⟨found, hfound, hplain⟩ := hP x hx
  exact ⟨found, found.body.children, hfound, hplain,
    .refl g _, by rw [hfound, RuleBody.withChildren_children]⟩

/-- A rule keeps everything but what is in the places of its placeholders. -/
theorem rule? (h : g.FilledFrom P g') (hfound : g.rule? x = some found) :
    ∃ children, g.Filled found.body.children children ∧
    (found.body.isReference = true → children = found.body.children) ∧
      g'.rule? x = some { found with body := found.body.withChildren children } := by
  by_cases hx : P x
  · obtain ⟨found', children, hfound', hplain, hfilled, hrule⟩ := h.filled x hx
    cases hfound.symm.trans hfound'
    exact ⟨children, hfilled, fun href => absurd href (by simp [hplain]), hrule⟩
  · refine ⟨found.body.children, .refl g _, fun _ => rfl, ?_⟩
    rw [h.other x hx, hfound, RuleBody.withChildren_children]

theorem name_eq (h : g.FilledFrom P g') (x : RuleId) :
    (g'.rule? x).map (·.name) = (g.rule? x).map (·.name) := by
  by_cases hx : P x
  · obtain ⟨found, children, hfound, _, _, hrule⟩ := h.filled x hx
    rw [hfound, hrule]
    rfl
  · rw [h.other x hx]

/-- Every number stands for what it stood for. -/
theorem follow_eq (h : g.FilledFrom P g') : g'.follow = g.follow := by
  have hwithin : ∀ origin n x, g'.followWithin origin n x = g.followWithin origin n x := by
    intro origin n
    induction n with
    | zero => exact fun _ => rfl
    | succ n ih =>
      intro x
      by_cases hx : P x
      · obtain ⟨found, children, hfound, hplain, _, hrule⟩ := h.filled x hx
        rw [followWithin_self hfound hplain, followWithin_self hrule (by simpa using hplain)]
      · simp only [followWithin, RuleGraph.rule, h.other x hx, ih]
  funext x
  rw [follow, follow, h.size, hwithin]

/-- One more rule is filled. -/
theorem setBody (h : g.FilledFrom P g') (hx : P x) (hfound : g.rule? x = some found)
    (hplain : found.body.isReference = false) (hsame : g'.rule? x = g.rule? x)
    (hfilled : g.Filled found.body.children targets) :
    g.FilledFrom P (g'.setBody x (found.body.withChildren targets)) := by
  refine ⟨(size_setBody ..).trans h.size, fun y hy => ?_, fun y hy => ?_⟩
  · rw [rule?_setBody, if_neg (fun hyx : y = x => hy (hyx ▸ hx)), h.other y hy]
  · by_cases hyx : y = x
    · subst hyx
      refine ⟨found, targets, hfound, hplain, hfilled, ?_⟩
      rw [rule?_setBody, if_pos rfl, hsame, hfound]
      rfl
    · rw [rule?_setBody, if_neg hyx]
      exact h.filled y hy

end FilledFrom

/-- Resolved rules refer to what they refer to already. -/
theorem Resolved.filled_eq (h : g.Resolved P) (hrules : ∀ c ∈ rules, P c)
    (hfilled : g.Filled rules targets) : targets = rules := by
  induction hfilled with
  | nil => rfl
  | cons hc _ ih =>
    rw [ih fun c hc => hrules c (List.mem_cons_of_mem _ hc)]
    rcases hc with rfl | hc
    · rfl
    · cases (h.follow (hrules _ (List.mem_cons_self ..))).symm.trans hc
      rfl

/-- Resolved rules stay as they are. -/
theorem FilledFrom.keeps {P' : RuleId → Prop} (h : g.FilledFrom P g') (hresolved : g.Resolved P')
    (hx : P' x) : g'.rule? x = g.rule? x := by
  obtain ⟨found, hfound, _, hchildren⟩ := hresolved x hx
  obtain ⟨children, hfilled, _, hrule⟩ := h.rule? hfound
  rw [hrule, hresolved.filled_eq hchildren hfilled, RuleBody.withChildren_children, hfound]

/-! ### Walking while filling -/

/-- What holds in the walk from some roots, with the graph as it was and as it is by now. -/
structure Resolving (g : RuleGraph) (roots : List RuleId) (g' : RuleGraph)
    (seen : Std.HashSet RuleId) (pending : List RuleId) : Prop where
  size : g'.size = g.size
  other : ∀ x, x ∉ seen → g'.rule? x = g.rule? x
  done : ∀ x ∈ seen, ∃ found targets, g.rule? x = some found ∧
    g.Followed found.body.children targets ∧
    g'.rule? x = some { found with body := found.body.withChildren targets } ∧
    ∀ y ∈ targets, y ∈ seen ∨ y ∈ pending
  led : ∀ x, x ∈ seen ∨ x ∈ pending → g.LedThrough roots x

theorem mem_insert_iff : y ∈ seen.insert x ↔ y = x ∨ y ∈ seen := by
  rw [Std.HashSet.mem_insert, beq_iff_eq, eq_comm]

namespace Resolving

theorem start (hroots : g.Followed roots targets) : g.Resolving roots g ∅ targets.reverse := by
  refine ⟨rfl, fun _ _ => rfl, fun x hx => absurd hx Std.HashSet.not_mem_empty, fun x hx => ?_⟩
  have hx := List.mem_reverse.mp (hx.resolve_left Std.HashSet.not_mem_empty)
  obtain ⟨root, hroot, hfollow⟩ := hroots.mem hx
  exact ⟨root, hroot, x, hfollow, .refl⟩

theorem skip (h : g.Resolving roots g' seen (x :: pending)) (hx : x ∈ seen) :
    g.Resolving roots g' seen pending := by
  refine ⟨h.size, h.other, fun y hy => ?_,
    fun y hy => h.led y (hy.imp_right (List.mem_cons_of_mem _))⟩
  obtain ⟨found, targets, hfound, hfollowed, hrule, hnext⟩ := h.done y hy
  refine ⟨found, targets, hfound, hfollowed, hrule, fun z hz => ?_⟩
  rcases hnext z hz with hz | hz
  · exact .inl hz
  rcases List.mem_cons.mp hz with rfl | hz
  · exact .inl hx
  · exact .inr hz

/-- Whatever has been done, and whatever is done to the next rule. -/
theorem filledFrom (h : g.Resolving roots g' seen pending) :
    g.FilledFrom (g.LedThrough roots) g' := by
  refine ⟨h.size, fun x hx => h.other x fun hseen => hx (h.led x (.inl hseen)), fun x hx => ?_⟩
  obtain ⟨found, hfound, hplain⟩ := hx.plain
  by_cases hseen : x ∈ seen
  · obtain ⟨found', targets, hfound', hfollowed, hrule, _⟩ := h.done x hseen
    cases hfound.symm.trans hfound'
    exact ⟨found, targets, hfound, hplain, hfollowed.filled, hrule⟩
  · refine ⟨found, found.body.children, hfound, hplain, .refl g _, ?_⟩
    rw [h.other x hseen, hfound, RuleBody.withChildren_children]

theorem fill (h : g.Resolving roots g' seen (x :: pending)) (hx : x ∉ seen)
    (hfound : g'.rule? x = some found) (hfollowed : g.Followed found.body.children targets) :
    g.Resolving roots (g'.setBody x (found.body.withChildren targets)) (seen.insert x)
      (targets.reverse ++ pending) := by
  have hfound' : g.rule? x = some found := h.other x hx ▸ hfound
  have hled := h.led x (.inr (List.mem_cons_self ..))
  refine ⟨(size_setBody ..).trans h.size, fun y hy => ?_, fun y hy => ?_, fun y hy => ?_⟩
  · rw [mem_insert_iff, not_or] at hy
    rw [rule?_setBody, if_neg hy.1, h.other y hy.2]
  · rcases mem_insert_iff.mp hy with rfl | hy
    · refine ⟨found, targets, hfound', hfollowed, ?_,
        fun z hz => .inr (List.mem_append_left _ (List.mem_reverse.mpr hz))⟩
      rw [rule?_setBody, if_pos rfl, hfound]
      rfl
    · obtain ⟨yrule, more, hyrule, hmore, hrule, hnext⟩ := h.done y hy
      refine ⟨yrule, more, hyrule, hmore, ?_, fun z hz => ?_⟩
      · rw [rule?_setBody, if_neg (fun hyx : y = x => hx (hyx ▸ hy)), hrule]
      · rw [mem_insert_iff, List.mem_append]
        rcases hnext z hz with hz | hz
        · exact .inl (.inr hz)
        · exact (List.mem_cons.mp hz).imp .inl .inr
  · rw [mem_insert_iff, List.mem_append, List.mem_reverse] at hy
    rcases hy with (rfl | hy) | hy | hy
    · exact hled
    · exact h.led y (.inl hy)
    · obtain ⟨c, hc, hfollow⟩ := hfollowed.mem hy
      exact hled.step ⟨c, ⟨found, hfound', hc⟩, hfollow⟩
    · exact h.led y (.inr (List.mem_cons_of_mem _ hy))

/-- With nothing pending, all is seen that the roots lead to. -/
theorem mem_iff (h : g.Resolving roots g' seen []) (hroots : g.Followed roots targets)
    (hseen : ∀ x ∈ targets, x ∈ seen) : x ∈ seen ↔ g.LedThrough roots x := by
  refine ⟨fun hx => h.led x (.inl hx), ?_⟩
  rintro ⟨root, hroot, target, htarget, hled⟩
  induction hled with
  | refl =>
    obtain ⟨y, hy, hfollow⟩ := hroots.of_mem hroot
    cases htarget.symm.trans hfollow
    exact hseen target hy
  | tail _ hlast ih =>
    obtain ⟨c, ⟨found, hfound, hc⟩, hfollow⟩ := hlast
    obtain ⟨found', targets, hfound', hfollowed, _, hnext⟩ := h.done _ ih
    cases hfound.symm.trans hfound'
    obtain ⟨y, hy, hfollow'⟩ := hfollowed.of_mem hc
    cases hfollow.symm.trans hfollow'
    exact (hnext _ hy).resolve_right List.not_mem_nil

end Resolving

/-- The walk ends when all is seen, or at a rule that refers to a placeholder which stands for
nothing; that rule is filled up to there. -/
theorem resolveFrom_ends (h : g.Resolving roots g' seen pending) :
    (∃ seen', (g'.resolveFrom seen pending).1 = .ok () ∧
      g.Resolving roots (g'.resolveFrom seen pending).2 seen' [] ∧
      ∀ x, x ∈ seen ∨ x ∈ pending → x ∈ seen') ∨
    ∃ e x c, (g'.resolveFrom seen pending).1 = .error e ∧ g.LedThrough roots x ∧ g.Refers x c ∧
    g.follow c = .error e ∧ g.FilledFrom (g.LedThrough roots) (g'.resolveFrom seen pending).2 := by
  fun_induction resolveFrom g' seen pending with
  | case1 g' seen => exact .inl ⟨seen, rfl, h, fun x hx => hx.resolve_right List.not_mem_nil⟩
  | case2 g' seen x pending hseen ih =>
    have hx : x ∈ seen := Std.HashSet.mem_iff_contains.mpr hseen
    refine (ih (h.skip hx)).imp_left fun ⟨seen', hok, hdone, hall⟩ =>
      ⟨seen', hok, hdone, fun y hy => ?_⟩
    rcases hy with hy | hy
    · exact hall y (.inl hy)
    rcases List.mem_cons.mp hy with rfl | hy
    · exact hall y (.inl hx)
    · exact hall y (.inr hy)
  | case3 g' seen x pending hseen hnone =>
    have hx : x ∉ seen := fun hx => hseen (Std.HashSet.mem_iff_contains.mp hx)
    obtain ⟨found, hfound, _⟩ := (h.led x (.inr (List.mem_cons_self ..))).plain
    rw [h.other x hx, hfound] at hnone
    cases hnone
  | case4 g' seen x pending hseen found hfound targets e htargets =>
    have hx : x ∉ seen := fun hx => hseen (Std.HashSet.mem_iff_contains.mp hx)
    have hled := h.led x (.inr (List.mem_cons_self ..))
    have hsame := h.other x hx
    have hthere : g.rule? x = some found := hsame ▸ hfound
    obtain ⟨found', hfound', hplain⟩ := hled.plain
    cases hthere.symm.trans hfound'
    rw [followEach_congr h.filledFrom.follow_eq] at htargets
    obtain ⟨hfilled, _, herror⟩ := followEach_spec htargets
    obtain ⟨c, hc, hfollow⟩ := herror e rfl
    exact .inr ⟨e, x, c, rfl, hled, ⟨found, hthere, hc⟩, hfollow,
      h.filledFrom.setBody hled hthere hplain hsame hfilled⟩
  | case5 g' seen x pending hseen found hfound targets htargets ih =>
    have hx : x ∉ seen := fun hx => hseen (Std.HashSet.mem_iff_contains.mp hx)
    rw [followEach_congr h.filledFrom.follow_eq] at htargets
    have hfollowed := (followEach_spec htargets).2.1 rfl
    refine (ih (h.fill hx hfound hfollowed)).imp_left fun ⟨seen', hok, hdone, hall⟩ =>
      ⟨seen', hok, hdone, fun y hy => ?_⟩
    rcases hy with hy | hy
    · exact hall y (.inl (mem_insert_iff.mpr (.inr hy)))
    rcases List.mem_cons.mp hy with rfl | hy
    · exact hall y (.inl Std.HashSet.mem_insert_self)
    · exact hall y (.inr (List.mem_append_right _ hy))

/-! ### Resolving -/

/-- Resolving ends with what the roots stand for and all filled that they lead to, or at a
placeholder that stands for nothing. -/
theorem resolve_ends (g : RuleGraph) (roots : List RuleId) :
    (∃ targets seen, (g.resolve roots).1 = .ok targets ∧ g.Followed roots targets ∧
      g.Resolving roots (g.resolve roots).2 seen [] ∧ ∀ x ∈ targets, x ∈ seen) ∨
    ∃ e c, (g.resolve roots).1 = .error e ∧ (c ∈ roots ∨ ∃ x, g.LedThrough roots x ∧ g.Refers x c) ∧
      g.follow c = .error e ∧ g.FilledFrom (g.LedThrough roots) (g.resolve roots).2 := by
  rw [resolve]
  cases htargets : roots.mapM g.follow with
  | error e =>
    obtain ⟨c, hc, hfollow⟩ := mapM_follow_error htargets
    exact .inr ⟨e, c, rfl, .inl hc, hfollow, .refl g _ fun _ hx => hx.plain⟩
  | ok targets =>
    have hfollowed := mapM_follow.mp htargets
    rcases resolveFrom_ends (Resolving.start hfollowed) with ⟨seen, hok, hdone, hall⟩ |
      ⟨e, x, c, herror, hled, hxc, hfollow, hfilled⟩
    · refine .inl ⟨targets, seen, ?_, hfollowed, hdone,
        fun x hx => hall x (.inr (List.mem_reverse.mpr hx))⟩
      dsimp only
      rw [hok]
      rfl
    · refine .inr ⟨e, c, ?_, .inr ⟨x, hled, hxc⟩, hfollow, hfilled⟩
      dsimp only
      rw [herror]
      rfl

theorem resolve_filledFrom {outcome : Except RuleError (List RuleId)}
    (h : g.resolve roots = (outcome, g')) : g.FilledFrom (g.LedThrough roots) g' := by
  have hends := resolve_ends g roots
  rw [h] at hends
  rcases hends with ⟨_, _, _, _, hdone, _⟩ | ⟨_, _, _, _, _, hfilled⟩
  · exact hdone.filledFrom
  · exact hfilled

/-- Resolving leaves resolved rules as they are, whichever way it ends. -/
theorem resolve_keeps {outcome : Except RuleError (List RuleId)}
    (h : g.resolve roots = (outcome, g')) (hresolved : g.Resolved P) (hx : P x) :
    g'.rule? x = g.rule? x :=
  (resolve_filledFrom h).keeps hresolved hx

/-- Where resolving succeeds, all that the roots lead to has what they stand for in the places of
its placeholders. -/
theorem resolve_filled (h : g.resolve roots = (.ok targets, g')) :
    g.Followed roots targets ∧ ∀ x, g.LedThrough roots x →
      ∃ found children, g.rule? x = some found ∧ g.Followed found.body.children children ∧
      g'.rule? x = some { found with body := found.body.withChildren children } := by
  rcases resolve_ends g roots with ⟨targets', seen, hok, hfollowed, hdone, hall⟩ | ⟨e, c, herror, _⟩
  · rw [h] at hok hdone
    cases hok
    refine ⟨hfollowed, fun x hx => ?_⟩
    obtain ⟨found, children, hfound, hchildren, hrule, _⟩ :=
      hdone.done x ((hdone.mem_iff hfollowed hall).mpr hx)
    exact ⟨found, children, hfound, hchildren, hrule⟩
  · rw [h] at herror
    cases herror

theorem Followed.ledThrough (h : g.Followed roots targets) :
    ∀ x ∈ targets, g.LedThrough roots x := by
  intro x hx
  obtain ⟨root, hroot, hfollow⟩ := h.mem hx
  exact ⟨root, hroot, x, hfollow, .refl⟩

/-- What the roots lead to is resolved where all of it has what they stand for in the places of its
placeholders. -/
theorem resolved_of_filled (h : ∀ x, g.LedThrough roots x →
      ∃ found children, g.rule? x = some found ∧ g.Followed found.body.children children ∧
        g'.rule? x = some { found with body := found.body.withChildren children }) :
    g'.Resolved (g.LedThrough roots) := by
  intro x hx
  obtain ⟨found, children, hfound, hchildren, hrule⟩ := h x hx
  obtain ⟨found', hfound', hplain⟩ := hx.plain
  cases hfound.symm.trans hfound'
  refine ⟨_, hrule, by simpa using hplain, fun y hy => ?_⟩
  rw [RuleBody.children_withChildren (List.Forall₂.length_eq hchildren).symm] at hy
  obtain ⟨c, hc, hfollow⟩ := hchildren.mem hy
  exact hx.step ⟨c, ⟨found, hfound, hc⟩, hfollow⟩

/-- Where resolving succeeds, what the roots lead to is resolved. -/
theorem resolve_resolved (h : g.resolve roots = (.ok targets, g')) :
    g'.Resolved (g.LedThrough roots) :=
  resolved_of_filled (resolve_filled h).2

end Packrat.RuleGraph
