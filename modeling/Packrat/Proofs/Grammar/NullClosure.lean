import Packrat.Grammar.Nullable
import Mathlib.Data.List.Perm.Subperm

/-! The passes over the rules find all that can match the empty text.

A pass that adds nothing has looked at every listed rule with one and the same set of rules
(`nullablePass_same`), and the passes do not end before: each one that adds something takes a
rule from the list, and there is one pass more than there are rules
(`nullablePasses_closed`). So a listed rule that is not found has a body that does not
match the empty text by the rules that are found (`nullability_closed`). -/
namespace Packrat

/-- The body matches the empty text if these rules do. -/
def RuleBody.NullableBy (P : RuleId → Prop) : RuleBody → Prop
  | .literal text => text = ""
  | .sequence rules => rules ≠ [] ∧ ∀ y ∈ rules, P y
  | .choice rules => ∃ y ∈ rules, P y
  | .optional _ | .repetition _ | .epsilon => True
  | .pattern _ | .endOfInput | .reference _ => False

theorem RuleBody.NullableBy.mono {P Q : RuleId → Prop} (hPQ : ∀ y, P y → Q y) {b : RuleBody}
    (h : b.NullableBy P) : b.NullableBy Q := by
  cases b with
  | sequence rules => exact ⟨h.1, fun y hy => hPQ y (h.2 y hy)⟩
  | choice rules =>
    obtain ⟨y, hy, hP⟩ := h
    exact ⟨y, hy, hPQ y hP⟩
  | literal _ | optional _ | repetition _ | epsilon | pattern _ | endOfInput | reference _ =>
    exact h

/-- A set made from a list, in a form that evaluates on closed terms. -/
theorem hashSet_ofList_eq_foldl (rules : List RuleId) :
    Std.HashSet.ofList rules = rules.foldl (·.insert ·) ∅ := by
  rw [Std.HashSet.ofList_eq_insertMany_empty]
  generalize (∅ : Std.HashSet RuleId) = known
  induction rules generalizing known with
  | nil => exact Std.HashSet.insertMany_nil
  | cons x rest ih => rw [Std.HashSet.insertMany_cons, ih, List.foldl_cons]

namespace RuleGraph
variable {g : RuleGraph} {known found : Std.HashSet RuleId} {rules : List RuleId} {x : RuleId}

/-- The rule is there, with a flag. -/
def HasFlag (g : RuleGraph) (flag : RuleFlags → Bool) (x : RuleId) : Prop :=
  ∃ found, g.rule? x = some found ∧ flag found.flags = true

/-- What counts as matching the empty text where some rules are known to: these, and every rule that
is flagged, listed or not. -/
def CountsNullable (g : RuleGraph) (P : RuleId → Prop) (x : RuleId) : Prop :=
  P x ∨ g.HasFlag (·.nullable) x

/-! ### One rule -/

theorem flag_eq_ok_iff {flag : RuleFlags → Bool} {b : Bool} :
    (return flag (← g.rule x).flags) = Except.ok b ↔ ∃ found, g.rule? x = some found ∧
    flag found.flags = b := by
  rw [rule]
  cases hrule : g.rule? x with
  | none => exact ⟨nofun, nofun⟩
  | some found =>
    refine ⟨fun h => ⟨found, rfl, Except.ok.inj h⟩, fun ⟨_, hsame, hflag⟩ => ?_⟩
    cases hsame
    exact congrArg _ hflag

theorem isNullable_iff {b : Bool} (h : g.isNullable known x = .ok b) :
    b = true ↔ g.CountsNullable (· ∈ known) x := by
  rw [isNullable] at h
  by_cases hx : known.contains x = true
  · rw [if_pos hx] at h
    cases h
    exact iff_of_true rfl (.inl (Std.HashSet.mem_iff_contains.mpr hx))
  · rw [if_neg hx] at h
    rw [CountsNullable, or_iff_right fun hmem => hx (Std.HashSet.mem_iff_contains.mp hmem)]
    obtain ⟨found, hfound, rfl⟩ := flag_eq_ok_iff.mp h
    exact ⟨fun hflag => ⟨found, hfound, hflag⟩,
      fun ⟨_, hsame, hflag⟩ => by cases hfound.symm.trans hsame; exact hflag⟩

section
variable {p : RuleId → Except RuleError Bool} {P : RuleId → Prop} (hp : ∀ y b, p y = .ok b →
  (b = true ↔ P y))
include hp

theorem anyM_iff {b : Bool} (h : rules.anyM p = .ok b) : b = true ↔ ∃ y ∈ rules, P y := by
  induction rules with
  | nil =>
    cases h
    exact ⟨nofun, fun ⟨_, hy, _⟩ => absurd hy List.not_mem_nil⟩
  | cons y rest ih =>
    simp only [List.anyM, bind, Except.bind] at h
    cases hy : p y with
    | error e => rw [hy] at h; cases h
    | ok c =>
      rw [List.exists_mem_cons_iff, ← hp y c hy]
      cases c with
      | true =>
        rw [hy] at h
        cases h
        exact iff_of_true rfl (.inl rfl)
      | false =>
        rw [hy] at h
        exact (ih h).trans (or_iff_right nofun).symm

theorem allM_iff {b : Bool} (h : rules.allM p = .ok b) : b = true ↔ ∀ y ∈ rules, P y := by
  induction rules with
  | nil =>
    cases h
    exact iff_of_true rfl fun _ hy => absurd hy List.not_mem_nil
  | cons y rest ih =>
    simp only [List.allM, bind, Except.bind] at h
    cases hy : p y with
    | error e => rw [hy] at h; cases h
    | ok c =>
      rw [List.forall_mem_cons, ← hp y c hy]
      cases c with
      | true =>
        rw [hy] at h
        exact (ih h).trans (and_iff_right rfl).symm
      | false =>
        rw [hy] at h
        cases h
        exact ⟨nofun, fun hall => nomatch hall.1⟩

end

theorem bodyNullable_iff {body : RuleBody} {b : Bool} (h : g.bodyNullable known body = .ok b) :
    b = true ↔ body.NullableBy (g.CountsNullable (· ∈ known)) := by
  cases body with
  | literal text =>
    cases h
    exact String.isEmpty_iff
  | sequence rules =>
    rw [bodyNullable] at h
    by_cases hempty : rules.isEmpty = true
    · rw [if_pos hempty] at h
      cases h
      exact ⟨nofun, fun hbody => absurd (List.isEmpty_iff.mp hempty) hbody.1⟩
    · rw [if_neg hempty] at h
      refine (allM_iff (fun _ _ => isNullable_iff) h).trans (and_iff_right ?_).symm
      exact fun hnil => hempty (List.isEmpty_iff.mpr hnil)
  | choice rules => exact anyM_iff (fun _ _ => isNullable_iff) h
  | optional _ | repetition _ | epsilon =>
    cases h
    exact iff_of_true rfl trivial
  | pattern _ | endOfInput | reference _ =>
    cases h
    exact ⟨nofun, False.elim⟩

/-! ### One pass -/

/-- The rule is known to match the empty text, or its body does not by what is known. -/
def NullSettled (g : RuleGraph) (known : Std.HashSet RuleId) (x : RuleId) : Prop :=
  x ∈ known ∨ ∃ rule, g.rule? x = some rule ∧ ¬ rule.body.NullableBy (g.CountsNullable (· ∈ known))

/-- A pass leaves its first rule aside, or adds it, as its body matches the empty text by what is
known. -/
theorem nullablePass_cons {rest : List RuleId} (h : g.nullablePass known (x :: rest) = .ok found) :
    (g.NullSettled known x ∧ g.nullablePass known rest = .ok found) ∨
      (x ∉ known ∧
      (∃ rule, g.rule? x = some rule ∧ rule.body.NullableBy (g.CountsNullable (· ∈ known))) ∧
        g.nullablePass (known.insert x) rest = .ok found) := by
  rw [nullablePass] at h
  by_cases hx : known.contains x = true
  · rw [if_pos hx] at h
    exact .inl ⟨.inl (Std.HashSet.mem_iff_contains.mpr hx), h⟩
  rw [if_neg hx, rule] at h
  cases hrule : g.rule? x with
  | none => rw [hrule] at h; cases h
  | some rule =>
    rw [hrule] at h
    cases hbody : g.bodyNullable known rule.body with
    | error e => simp only [bind, Except.bind, hbody] at h; cases h
    | ok b =>
      simp only [bind, Except.bind, hbody] at h
      have hiff := bodyNullable_iff hbody
      cases b with
      | true =>
        exact .inr ⟨fun hmem => hx (Std.HashSet.mem_iff_contains.mp hmem), ⟨rule, rfl, hiff.mp rfl⟩,
          h⟩
      | false => exact .inl ⟨.inr ⟨rule, hrule, fun hmatched => nomatch hiff.mpr hmatched⟩, h⟩

/-- A pass keeps what is known, and adds listed rules only. -/
theorem nullablePass_adds (h : g.nullablePass known rules = .ok found) :
    known.size ≤ found.size ∧ (∀ x ∈ known, x ∈ found) ∧ ∀ x ∈ found, x ∈ known ∨ x ∈ rules := by
  induction rules generalizing known with
  | nil =>
    cases h
    exact ⟨Nat.le_refl _, fun _ hx => hx, fun _ hx => .inl hx⟩
  | cons y rest ih =>
    rcases nullablePass_cons h with ⟨_, h⟩ | ⟨hy, _, h⟩
    · obtain ⟨hsize, hkeeps, hadds⟩ := ih h
      exact ⟨hsize, hkeeps, fun x hx => (hadds x hx).imp_right (List.mem_cons_of_mem _)⟩
    · obtain ⟨hsize, hkeeps, hadds⟩ := ih h
      rw [Std.HashSet.size_insert, if_neg hy] at hsize
      refine ⟨Nat.le_of_succ_le hsize, fun x hx => hkeeps x (Std.HashSet.mem_insert.mpr (.inr hx)),
        fun x hx => ?_⟩
      rcases hadds x hx with hx | hx
      · rcases Std.HashSet.mem_insert.mp hx with hyx | hx
        · exact .inr (List.mem_cons.mpr (.inl (eq_of_beq hyx).symm))
        · exact .inl hx
      · exact .inr (List.mem_cons_of_mem _ hx)

/-- A pass that adds nothing has settled every listed rule. -/
theorem nullablePass_same (h : g.nullablePass known rules = .ok found)
    (hsize : found.size = known.size) : found = known ∧ ∀ x ∈ rules, g.NullSettled known x := by
  induction rules generalizing known with
  | nil =>
    cases h
    exact ⟨rfl, nofun⟩
  | cons y rest ih =>
    rcases nullablePass_cons h with ⟨hy, h⟩ | ⟨hy, _, h⟩
    · obtain ⟨hfound, hrest⟩ := ih h hsize
      refine ⟨hfound, fun x hx => ?_⟩
      rcases List.mem_cons.mp hx with rfl | hx
      · exact hy
      · exact hrest x hx
    · have hle := (nullablePass_adds h).1
      rw [Std.HashSet.size_insert, if_neg hy] at hle
      omega

/-! ### All passes -/

theorem size_le_length (h : ∀ x ∈ known, x ∈ rules) : known.size ≤ rules.length := by
  rw [← Std.HashSet.length_toList]
  have hnodup : known.toList.Nodup :=
    Std.HashSet.distinct_toList.imp fun hne heq => by simp [heq] at hne
  exact (List.subperm_of_subset hnodup fun x hx => h x (Std.HashSet.mem_toList.mp hx)).length_le

/-- The last pass is the only one, or others follow. -/
theorem nullablePasses_succ {n : Nat} {result : Nullability}
    (h : g.nullablePasses rules known (n + 1) = .ok result) :
    ∃ found, g.nullablePass known rules = .ok found ∧
      ((found.size = known.size ∧ result.rules = found) ∨
        (found.size ≠ known.size ∧ ∃ more, g.nullablePasses rules found n = .ok more ∧
        result.rules = more.rules)) := by
  rw [nullablePasses] at h
  cases hpass : g.nullablePass known rules with
  | error e => rw [hpass] at h; cases h
  | ok found =>
    refine ⟨found, rfl, ?_⟩
    simp only [hpass, bind, Except.bind] at h
    by_cases hsame : found.size = known.size
    · rw [if_pos hsame] at h
      cases h
      exact .inl ⟨hsame, rfl⟩
    · rw [if_neg hsame] at h
      cases hrest : g.nullablePasses rules found n with
      | error e => rw [hrest] at h; cases h
      | ok more =>
        rw [hrest] at h
        cases h
        exact .inr ⟨hsame, more, rfl, rfl⟩

/-- With more passes than there are listed rules to add, the last pass adds nothing. -/
theorem nullablePasses_closed {n : Nat} {result : Nullability}
    (h : g.nullablePasses rules known n = .ok result) (hknown : ∀ x ∈ known, x ∈ rules)
    (hn : rules.length < n + known.size) : ∀ x ∈ rules, g.NullSettled result.rules x := by
  induction n generalizing known result with
  | zero =>
    have := size_le_length hknown
    omega
  | succ n ih =>
    obtain ⟨found, hpass, ⟨hsame, heq⟩ | ⟨hmore, more, hrest, heq⟩⟩ := nullablePasses_succ h
    · obtain ⟨hfound, hsettled⟩ := nullablePass_same hpass hsame
      rw [heq, hfound]
      exact hsettled
    · obtain ⟨hsize, _, hadds⟩ := nullablePass_adds hpass
      rw [heq]
      exact ih hrest (fun x hx => (hadds x hx).elim (hknown x) id) (by omega)

theorem mem_filterAuxM_iff {p : RuleId → Except RuleError Bool} {acc kept : List RuleId}
    (h : rules.filterAuxM p acc = .ok kept) :
    x ∈ kept ↔ (x ∈ rules ∧ p x = .ok true) ∨ x ∈ acc := by
  induction rules generalizing acc with
  | nil =>
    cases h
    exact (or_iff_right fun hx => List.not_mem_nil hx.1).symm
  | cons y rest ih =>
    simp only [List.filterAuxM, bind, Except.bind] at h
    cases hy : p y with
    | error e => rw [hy] at h; cases h
    | ok b =>
      rw [hy] at h
      rw [ih h]
      by_cases hxy : x = y
      · subst hxy
        cases b <;> simp [hy]
      · cases b <;> simp [hxy]

/-- The passes start from the listed rules that are flagged. -/
theorem nullability_cases {result : Nullability} (h : g.nullability rules = .ok result) :
    ∃ flagged, g.nullablePasses rules flagged (rules.length + 1) = .ok result ∧
      ∀ x, x ∈ flagged ↔ x ∈ rules ∧ g.HasFlag (·.nullable) x := by
  rw [nullability, List.filterM] at h
  cases hkept : rules.filterAuxM (fun x => do return (← g.rule x).flags.nullable) [] with
  | error e =>
    rw [hkept] at h
    cases h
  | ok kept =>
  rw [hkept] at h
  refine ⟨_, h, fun x => ?_⟩
  have hmem : x ∈ Std.HashSet.ofList kept.reverse ↔ x ∈ kept := by simp
  rw [hmem, mem_filterAuxM_iff hkept, or_iff_left List.not_mem_nil]
  exact and_congr_right fun _ => flag_eq_ok_iff

theorem nullability_settled {result : Nullability} (h : g.nullability rules = .ok result) :
    ∀ x ∈ rules, g.NullSettled result.rules x := by
  obtain ⟨flagged, hpasses, hflagged⟩ := nullability_cases h
  exact nullablePasses_closed hpasses (fun x hx => ((hflagged x).mp hx).1) (by omega)

/-- A listed rule whose body matches the empty text by the rules that are found is found. -/
theorem nullability_closed {result : Nullability} (h : g.nullability rules = .ok result)
    (hx : x ∈ rules) {rule : Rule} (hrule : g.rule? x = some rule)
    (hbody : rule.body.NullableBy (g.CountsNullable (· ∈ result.rules))) : x ∈ result.rules := by
  refine (nullability_settled h x hx).resolve_right fun ⟨rule', hrule', hnot⟩ => ?_
  cases hrule.symm.trans hrule'
  exact hnot hbody

end RuleGraph

end Packrat
