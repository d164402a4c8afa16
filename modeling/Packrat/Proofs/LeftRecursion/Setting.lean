import Packrat.Proofs.LeftRecursion.Shape
import Packrat.Proofs.Recognition.Endless

/-! A left-recursive rule whose bases and pieces are plain.

What is said here holds in both phases of recognising the rule, while its cycles are found and
while they grow: the rule and those of its chains have no plain meaning at the position
(`Setting.endless`), so whatever is done to their entries keeps the rest of the memory
right (`Session.Faithful`), and bases and pieces answer what they mean (`Setting.plain_reaches`). -/
namespace Packrat
open Recognizer

/-! ### Chains -/

/-- What is left of one of the chains from some place on. -/
def Tail (chains : List Chain) (t : Chain) : Prop := ∃ chain ∈ chains, t <:+ chain

/-- A rule of one of the chains. -/
def Linked (chains : List Chain) (x : RuleId) : Prop :=
  ∃ piece rest, Tail chains ((x, piece) :: rest)

structure Setting (r : Recognizer) (top : RuleId) (chains : List Chain) (bases : List RuleId)
    (pos : Nat) (ans : RuleId → Nat → Answer) : Prop where
  shape : LeftRecursive r.graph top chains bases
  limit : r.stepLimit = none
  plain : ∀ x, (x ∈ bases ∨ ∃ chain ∈ chains, x ∈ chain.map Prod.snd) →
    ∀ q, pos ≤ q → r.Plain x q (.ok (ans x q))

/-- A property that lets plain applications be made, and that they keep. -/
structure Hosts (r : Recognizer) (P : Session → Prop) : Prop where
  faithful : ∀ s, P s → s.Faithful r
  eligible : ∀ s, P s → ∀ y p, s.isEligible y p = true → r.Endless y p
  aside : ∀ s s', P s → s.Aside r s' → P s'

theorem Tail.rest {chains : List Chain} {e : RuleId × RuleId} {t : Chain}
    (h : Tail chains (e :: t)) : Tail chains t := by
  obtain ⟨chain, hchain, hsuffix⟩ := h
  exact ⟨chain, hchain, (List.suffix_cons e t).trans hsuffix⟩

theorem Tail.mem_pieces {chains : List Chain} {x piece : RuleId} {rest : Chain}
    (h : Tail chains ((x, piece) :: rest)) : ∃ chain ∈ chains, piece ∈ chain.map Prod.snd := by
  obtain ⟨chain, hchain, hsuffix⟩ := h
  exact ⟨chain, hchain, List.mem_map.mpr ⟨_, hsuffix.subset (List.mem_cons_self ..), rfl⟩⟩

theorem Chain.LeadsTo.suffix {g : RuleGraph} {top : RuleId} {t chain : Chain}
    (h : chain.LeadsTo g top) (ht : t <:+ chain) : t.LeadsTo g top := by
  induction chain with
  | nil => exact List.suffix_nil.mp ht ▸ trivial
  | cons e rest ih =>
    rcases List.suffix_cons_iff.mp ht with rfl | ht
    · exact h
    · exact ih h.2 ht

namespace Setting
variable {r : Recognizer} {top : RuleId} {chains : List Chain} {bases : List RuleId} {pos : Nat}
  {ans : RuleId → Nat → Answer} {t t' : Chain} {x piece : RuleId} {rest : Chain}
  (S : Setting r top chains bases pos ans)
include S

theorem leadsTo (ht : Tail chains t) : t.LeadsTo r.graph top := by
  obtain ⟨chain, hchain, hsuffix⟩ := ht
  exact (S.shape.leadsTo chain hchain).suffix hsuffix

theorem ne_top (ht : Tail chains ((x, piece) :: rest)) : x ≠ top := by
  rintro rfl
  obtain ⟨⟨found, hfound, hbody⟩, _⟩ := S.leadsTo ht
  obtain ⟨found', hfound', hbody'⟩ := S.shape.rule
  cases hfound.symm.trans hfound'
  cases hbody.symm.trans hbody'

/-- A chain is known by the rule with which it begins. -/
theorem tail_unique (ht : Tail chains t) (ht' : Tail chains t') (h : t.entry top = t'.entry top) :
    t = t' := by
  induction t generalizing t' with
  | nil =>
    cases t' with
    | nil => rfl
    | cons e' rest' => exact absurd h.symm (S.ne_top ht')
  | cons e rest ih =>
    cases t' with
    | nil => exact absurd h (S.ne_top ht)
    | cons e' rest' =>
      obtain ⟨x, piece⟩ := e
      obtain ⟨x', piece'⟩ := e'
      obtain rfl : x = x' := h
      obtain ⟨⟨found, hfound, hbody⟩, _⟩ := S.leadsTo ht
      obtain ⟨⟨found', hfound', hbody'⟩, _⟩ := S.leadsTo ht'
      cases hfound.symm.trans hfound'
      have hrules := RuleBody.sequence.inj (hbody.symm.trans hbody')
      obtain ⟨hentry, hpiece⟩ := List.cons.inj hrules
      rw [ih ht.rest ht'.rest hentry, (List.cons.inj hpiece).1]

/-- Neither the rule nor those of its chains have a plain meaning at the position. -/
theorem endless (ht : Tail chains t) : r.Endless (t.entry top) pos := by
  intro n
  induction n generalizing t with
  | zero => rfl
  | succ n ih =>
    have hbind : ∀ {α β : Type} (p : Interpretation α) (f : α → Interpretation β),
        p.run = none → (p >>= f).run = none := by
      intro α β p f hp
      rw [Interpretation.run_bind, hp]
      rfl
    cases t with
    | nil =>
      obtain ⟨found, hfound, hbody⟩ := S.shape.rule
      obtain ⟨chain, more, hchains⟩ := List.exists_cons_of_ne_nil S.shape.recursive
      have hchain : Tail chains chain :=
        ⟨chain, hchains ▸ List.mem_cons_self .., List.suffix_refl _⟩
      rw [Chain.entry, interpret, hfound]
      dsimp only
      rw [hbody, hchains]
      exact hbind _ _ (hbind _ _ (ih hchain))
    | cons e rest =>
      obtain ⟨x, piece⟩ := e
      obtain ⟨⟨found, hfound, hbody⟩, _⟩ := S.leadsTo ht
      rw [Chain.entry, interpret, hfound]
      dsimp only
      rw [hbody]
      exact hbind _ _ (hbind _ _ (ih ht.rest))

theorem endless_linked (hx : Linked chains x) : r.Endless x pos := by
  obtain ⟨piece, rest, ht⟩ := hx
  exact S.endless ht

theorem endless_top : r.Endless top pos := by
  obtain ⟨chain, more, hchains⟩ := List.exists_cons_of_ne_nil S.shape.recursive
  exact S.endless (t := []) ⟨chain, hchains ▸ List.mem_cons_self .., List.nil_suffix⟩

/-- Bases and pieces answer what they mean, and leave the rest aside. -/
theorem plain_reaches (hx : x ∈ bases ∨ ∃ chain ∈ chains, x ∈ chain.map Prod.snd) {q : Nat}
    (hq : pos ≤ q) (depth : Nat) {P : Session → Prop} (hP : Hosts r P) :
    Reaches P (r.applyWithin depth x q) fun a s => a = ans x q ∧ P s := by
  intro s hs
  have hplain := S.plain x hx q hq
  have hends := applyWithin_plain S.limit depth (hP.faithful s hs) (hP.eligible s hs) hplain
  refine hends.mono (fun a s' h => ?_) fun e s' h => ?_
  · obtain ⟨⟨b, hb, hab, _⟩, hs'⟩ := h
    cases hb
    exact ⟨hab, hP.aside s s' hs hs'⟩
  · cases e with
    | error e => cases h.1
    | _ => trivial

end Setting

/-! ### Evaluating sequences and choices -/

section
variable {r : Recognizer} {rec : RuleId → Nat → Recognition Answer} {x : RuleId} {pos : Nat}
  {found : Rule} {P : Session → Prop}

/-- A sequence of two rules fails with either of them, and otherwise ends where the second one
ends. -/
theorem body_pair_reaches {y z : RuleId} {R Q : Answer → Session → Prop}
    (hfound : r.graph.rule? x = some found) (hbody : found.body = .sequence [y, z])
    (hy : Reaches P (rec y pos) R)
    (hz : ∀ a, a.matched = true → Reaches (R a) (rec z a.stop) fun b s =>
      Q (if b.matched = true then .node x pos (b.stop - pos) [a, b] else .fail x pos) s)
    (hfail : ∀ a s, a.matched = false → R a s → Q (.fail x pos) s) :
    Reaches P (body rec r x pos) Q := by
  rw [body, orStop_rule hfound, pure_bind, hbody]
  show Reaches P (matchEach rec [y, z] pos >>= _) Q
  refine .bind (Q := fun o s => Q (o.elim (.fail x pos) fun p => .node x pos (p.2 - pos) p.1) s)
    (.bind hy fun a => ?_) fun o => ?_
  · by_cases hm : a.matched = true
    · rw [if_pos hm]
      refine .bind
        (Q := fun o s => Q (o.elim (.fail x pos) fun p => .node x pos (p.2 - pos) (a :: p.1)) s)
        (.bind (hz a hm) fun b => ?_) fun o => .pure fun s hs => ?_
      · by_cases hb : b.matched = true
        · rw [if_pos hb, if_pos hb]
          exact fun s hs => hs
        · rw [if_neg hb, if_neg hb]
          exact fun s hs => hs
      · cases o <;> exact hs
    · rw [if_neg hm]
      exact .pure fun s hs => hfail a s (by simpa using hm) hs
  · cases o <;> exact .pure fun s hs => hs

theorem matchFirst_append (l l' : List RuleId) :
    matchFirst rec pos (l ++ l') =
      matchFirst rec pos l >>= fun o => o.elim (matchFirst rec pos l') fun a => pure (some a) := by
  induction l with
  | nil => rfl
  | cons y rest ih =>
    rw [List.cons_append, matchFirst, matchFirst, bind_assoc, ih]
    congr 1
    funext a
    by_cases hm : a.matched = true
    · rw [if_pos hm, if_pos hm]
      rfl
    · rw [if_neg hm, if_neg hm]

/-- A choice answers by the first of its rules that matches, of `l` or else of `l'`. -/
theorem body_choice_reaches {l l' : List RuleId} {R : Option Answer → Session → Prop}
    {Q : Answer → Session → Prop} (hfound : r.graph.rule? x = some found)
    (hbody : found.body = .choice (l ++ l')) (hl : Reaches P (matchFirst rec pos l) R)
    (hsome : ∀ a s, R (some a) s → Q (alternative x pos a) s)
    (hl' : Reaches (R none) (matchFirst rec pos l')
        fun o s => Q (o.elim (.fail x pos) (alternative x pos)) s) :
    Reaches P (body rec r x pos) Q := by
  rw [body, orStop_rule hfound, pure_bind, hbody]
  show Reaches P (matchFirst rec pos (l ++ l') >>= _) Q
  rw [matchFirst_append]
  refine .bind (Q := fun o s => Q (o.elim (.fail x pos) (alternative x pos)) s)
    (.bind hl fun o => ?_) fun o => ?_
  · cases o with
    | none => exact hl'
    | some a => exact .pure (hsome a)
  · cases o <;> exact .pure fun s hs => hs

/-- The first of several rules that matches, where it is known what they answer. -/
theorem matchFirst_reaches {α : Type} (items : List α) (rule : α → RuleId) (value : α → Answer)
    (hrec : ∀ i ∈ items, Reaches P (rec (rule i) pos) fun a s => a = value i ∧ P s) :
    Reaches P (matchFirst rec pos (items.map rule)) fun o s =>
      o = (items.find? fun i => (value i).matched).map value ∧ P s := by
  induction items with
  | nil => exact .pure fun s hs => ⟨rfl, hs⟩
  | cons i rest ih =>
    rw [List.map_cons, List.find?_cons]
    refine .bind (hrec i (List.mem_cons_self ..)) fun a => ?_
    intro s hs
    obtain ⟨rfl, hs⟩ := hs
    by_cases hm : (value i).matched = true
    · rw [if_pos hm, hm]
      exact ⟨rfl, hs⟩
    · rw [if_neg hm, show (value i).matched = false by simpa using hm]
      exact ih (fun j hj => hrec j (List.mem_cons_of_mem _ hj)) s hs

end

/-- The bases of the rule, where plain applications may be made. -/
theorem Setting.bases_reaches {r : Recognizer} {top : RuleId} {chains : List Chain}
    {bases : List RuleId} {pos : Nat} {ans : RuleId → Nat → Answer}
    (S : Setting r top chains bases pos ans) (depth : Nat) {P : Session → Prop} (hP : Hosts r P) :
    Reaches P (matchFirst (r.applyWithin depth) pos bases) fun o s =>
      o.elim (.fail top pos) (alternative top pos) = baseAnswer ans top pos bases ∧ P s := by
  have hfirst := matchFirst_reaches bases (fun b => b) (ans · pos) fun b hb =>
    S.plain_reaches (.inl hb) (Nat.le_refl _) depth hP
  rw [List.map_id'] at hfirst
  refine hfirst.mono (fun _ hs => hs) fun o s h => ?_
  obtain ⟨rfl, hs⟩ := h
  refine ⟨?_, hs⟩
  rw [baseAnswer]
  cases bases.find? fun b => (ans b pos).matched <;> rfl

end Packrat
