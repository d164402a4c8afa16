import Packrat.Proofs.LeftRecursion.Setting

/-! The first evaluation of a left-recursive rule, in which its cycles are found.

The rule is under way, and above it those of one of its chains (`Seeding`). The chain
comes back to the rule, or to one that an earlier chain has left behind as involved.
Either way it fails, and all of its rules are involved in the rule's head from then on
(`chain_seeds`). So no chain matches, and the rule answers by its bases (`seed_reaches`). -/
namespace Packrat
open Recognizer

def Session.Involves (s : Session) (id : HeadId) (x : RuleId) : Prop :=
  ∃ h, s.heads[id]? = some h ∧ x ∈ h.involved

/-- The rules in `stack` are under way above the left-recursive one, the frame of which belongs to
`anchor` and theirs to `joined`; those in `found` are known to be involved. -/
structure Seeding (r : Recognizer) (top : RuleId) (chains : List Chain) (pos : Nat)
    (found : List RuleId) (anchor joined : Option HeadId) (stack : List RuleId) (s : Session) :
    Prop where
  faithful : s.Faithful r
  growing : ∀ p : Nat, s.growing[p]? = none
  frames : s.frames = stack.map (⟨·, pos, joined⟩) ++ [⟨top, pos, anchor⟩]
  linked : ∀ x ∈ stack, Linked chains x
  underWay : s.memo[(top, pos)]? = some (.inProgress 0)
  head : ∀ id, anchor = some id →
    ∃ h, s.heads[id]? = some h ∧ h.isAnchor top pos = true ∧ ∀ x ∈ h.involved, Linked chains x
  involved : ∀ id, joined = some id → ∀ x ∈ stack, s.Involves id x
  known : ∀ x ∈ found, ∃ id, anchor = some id ∧ s.Involves id x
  entries : ∀ x piece rest, Tail chains ((x, piece) :: rest) → x ∉ stack →
    s.memo[(x, pos)]? = none ∨
    ∃ id, anchor = some id ∧ s.memo[(x, pos)]? = some (.involved (.fail x pos) id) ∧
      ∀ y ∈ x :: rest.map Prod.fst, s.Involves id y

variable {r : Recognizer} {top : RuleId} {chains : List Chain} {bases : List RuleId} {pos : Nat}
  {ans : RuleId → Nat → Answer} {found stack : List RuleId} {anchor joined : Option HeadId}
  {id : HeadId} {s s' : Session} {x piece : RuleId} {rest : Chain}

namespace Seeding

theorem congr (w : Seeding r top chains pos found anchor joined stack s) (hmemo : s'.memo = s.memo)
    (hframes : s'.frames = s.frames) (hheads : s'.heads = s.heads)
    (hgrowing : s'.growing = s.growing) :
    Seeding r top chains pos found anchor joined stack s' := by
  have hinvolves : s'.Involves = s.Involves := by
    funext id x
    rw [Session.Involves, hheads, Session.Involves]
  refine ⟨w.faithful.congr fun k => .inl (by rw [hmemo]), hgrowing ▸ w.growing,
    hframes.trans w.frames, w.linked,
    hmemo ▸ w.underWay, hheads ▸ w.head, hinvolves ▸ w.involved, hinvolves ▸ w.known, ?_⟩
  rw [hmemo, hinvolves]
  exact w.entries

theorem mono {found' : List RuleId} (w : Seeding r top chains pos found anchor joined stack s)
    (h : ∀ x ∈ found', x ∈ found) : Seeding r top chains pos found' anchor joined stack s :=
  { w with known := fun x hx => w.known x (h x hx) }

/-- No rule is to be evaluated anew before the rule grows. -/
theorem isEligible (w : Seeding r top chains pos found anchor joined stack s)
    (y : RuleId) (p : Nat) : ¬ s.isEligible y p = true :=
  not_eligible (w.growing p)

theorem aside (S : Setting r top chains bases pos ans)
    (w : Seeding r top chains pos found anchor joined stack s) (h : s.Aside r s') :
    Seeding r top chains pos found anchor joined stack s' := by
  have hinvolves : ∀ id y, s.Involves id y → s'.Involves id y := by
    intro id y hy
    obtain ⟨hd, hs, hmem⟩ := hy
    obtain ⟨hd', hs', heq⟩ := h.head_of hs
    obtain ⟨_, _, hsame, _⟩ := Head.eq_of_unwritten heq
    exact ⟨hd', hs', hsame ▸ hmem⟩
  refine ⟨w.faithful.aside h, h.growing ▸ w.growing, h.frames.trans w.frames, w.linked,
    (h.memo_eq S.endless_top).trans w.underWay, fun id hid => ?_,
    fun id hid y hy => hinvolves id y (w.involved id hid y hy), fun y hy => ?_,
    fun y piece rest ht hy => ?_⟩
  · obtain ⟨hd, hs, hanchor, hlinked⟩ := w.head id hid
    obtain ⟨hd', hs', heq⟩ := h.head_of hs
    obtain ⟨hrule, hpos, hsame, _⟩ := Head.eq_of_unwritten heq
    refine ⟨hd', hs', ?_, fun y hy => hlinked y (hsame ▸ hy)⟩
    rw [Head.isAnchor, hrule, hpos]
    exact hanchor
  · obtain ⟨id, hid, hmem⟩ := w.known y hy
    exact ⟨id, hid, hinvolves id y hmem⟩
  · have hy' : r.Endless y pos := S.endless ht
    rw [h.memo_eq hy']
    rcases w.entries y piece rest ht hy with hnone | hinvolved
    · exact .inl hnone
    · obtain ⟨id, hid, hmem, hall⟩ := hinvolved
      exact .inr ⟨id, hid, hmem, fun z hz => hinvolves id z (hall z hz)⟩

/-- Plain applications may be made while the cycles are found. -/
theorem hosts (S : Setting r top chains bases pos ans) (found : List RuleId)
    (anchor joined : Option HeadId) (stack : List RuleId) :
    Hosts r (Seeding r top chains pos found anchor joined stack) :=
  ⟨fun _ w => w.faithful, fun _ w y p hel => absurd hel (w.isEligible y p), fun _ _ w => w.aside S⟩

/-- One more rule of the chain is under way. -/
theorem enter (S : Setting r top chains bases pos ans)
    (w : Seeding r top chains pos found anchor none stack s)
    (ht : Tail chains ((x, piece) :: rest)) :
    Seeding r top chains pos found anchor none (x :: stack) (s.enter x pos) := by
  have hx : r.Endless x pos := S.endless ht
  have hmemo : ∀ y, y ≠ x → (s.enter x pos).memo[(y, pos)]? = s.memo[(y, pos)]? := fun y hy =>
    setEntry_other (fun h => hy (congrArg Prod.fst h)) _
  refine ⟨w.faithful.insert hx rfl, w.growing, ?_, fun y hy => ?_, ?_, w.head,
    fun _ h => (by cases h), w.known, fun y piece' rest' ht' hy => ?_⟩
  · show ⟨x, pos, none⟩ :: s.frames = _
    rw [w.frames]
    rfl
  · rcases List.mem_cons.mp hy with rfl | hy
    · exact ⟨piece, rest, ht⟩
    · exact w.linked y hy
  · rw [hmemo top (S.ne_top ht).symm]
    exact w.underWay
  · rw [List.mem_cons, not_or] at hy
    rw [hmemo y hy.1]
    exact w.entries y piece' rest' ht' hy.2

end Seeding

/-! ### Coming back -/

theorem rulesAbove_stack (stack : List RuleId) :
    Session.rulesAbove id (stack.map (⟨·, pos, none⟩) ++ [⟨top, pos, some id⟩]) = stack := by
  induction stack with
  | nil => simp [Session.rulesAbove]
  | cons x rest ih =>
    rw [List.map_cons, List.cons_append, Session.rulesAbove, List.takeWhile_cons_of_pos (by simp),
      List.map_cons]
    exact congrArg _ ih

theorem joinFrames_stack (stack : List RuleId) :
    Session.joinFrames id (stack.map (⟨·, pos, none⟩) ++ [⟨top, pos, some id⟩]) =
      stack.map (⟨·, pos, some id⟩) ++ [⟨top, pos, some id⟩] := by
  induction stack with
  | nil => exact if_pos rfl
  | cons x rest ih =>
    rw [List.map_cons, List.cons_append, Session.joinFrames, if_neg (fun h => by cases h), ih]
    rfl

namespace Seeding

/-- The head gets to involve all rules of the chain that are under way. -/
theorem involve (w : Seeding r top chains pos found (some id) none stack s) :
    Seeding r top chains pos found (some id) (some id) stack (s.involve id) := by
  obtain ⟨h, hs, hanchor, hlinked⟩ := w.head id rfl
  have hinvolve : s.involve id = { s with
      frames := stack.map (⟨·, pos, some id⟩) ++ [⟨top, pos, some id⟩]
      heads := s.heads.insert id { h with involved := stack.foldl (·.insert ·) h.involved } } := by
    rw [Session.involve, hs]
    simp only [w.frames, rulesAbove_stack, joinFrames_stack]
  have hlookup : (s.involve id).heads[id]? =
      some { h with involved := stack.foldl (·.insert ·) h.involved } := by
    rw [hinvolve]
    exact Std.HashMap.getElem?_insert_self
  have hinvolves : ∀ y, s.Involves id y → (s.involve id).Involves id y := by
    intro y hy
    obtain ⟨h', hs', hmem⟩ := hy
    cases hs.symm.trans hs'
    exact ⟨_, hlookup, mem_foldl_insert.mpr (.inl hmem)⟩
  refine ⟨w.faithful.congr fun k => .inl (by rw [memo_involve]), hinvolve ▸ w.growing,
    hinvolve ▸ rfl, w.linked,
    by rw [memo_involve, w.underWay], fun i hi => ?_, fun i hi y hy => ?_, fun y hy => ?_,
    fun y piece rest ht hy => ?_⟩
  · cases hi
    refine ⟨_, hlookup, hanchor, fun y hy => ?_⟩
    rcases mem_foldl_insert.mp hy with hy | hy
    · exact hlinked y hy
    · exact w.linked y hy
  · cases hi
    exact ⟨_, hlookup, mem_foldl_insert.mpr (.inr hy)⟩
  · obtain ⟨i, hi, hmem⟩ := w.known y hy
    cases hi
    exact ⟨id, rfl, hinvolves y hmem⟩
  · rw [memo_involve]
    rcases w.entries y piece rest ht hy with hnone | hinvolved
    · exact .inl hnone
    · obtain ⟨i, hi, hmem, hall⟩ := hinvolved
      cases hi
      exact .inr ⟨id, rfl, hmem, fun z hz => hinvolves z (hall z hz)⟩

/-- The rule is applied again where it is under way. -/
theorem reenter (w : Seeding r top chains pos found anchor none stack s) :
    ∃ id, Seeding r top chains pos found (some id) (some id) stack (s.reenter 0) := by
  have hframe : s.frame? 0 = some ⟨top, pos, anchor⟩ :=
    frame?_eq_some_iff.mpr ⟨stack.map (⟨·, pos, none⟩), [], w.frames, rfl⟩
  cases anchor with
  | some id =>
    rw [reenter_of_head hframe rfl]
    exact ⟨id, w.involve⟩
  | none =>
    rw [reenter_of_no_head hframe rfl]
    refine ⟨s.nextHead, involve ⟨w.faithful.congr fun _ => .inl rfl, w.growing, ?_,
      w.linked, w.underWay,
      fun i hi => ?_, fun _ h => (by cases h), fun y hy => ?_, fun y piece rest ht hy => ?_⟩⟩
    · have hframes := frames_newHead w.frames
      exact hframes
    · cases hi
      exact ⟨_,
        heads_newHead_self .., by simp [Head.isAnchor], fun _ h => absurd h List.not_mem_nil⟩
    · obtain ⟨i, hi, _⟩ := w.known y hy
      cases hi
    · rcases w.entries y piece rest ht hy with hnone | hinvolved
      · exact .inl hnone
      · obtain ⟨i, hi, _⟩ := hinvolved
        cases hi

theorem anchorUnderWay (w : Seeding r top chains pos found (some id) joined stack s) :
    s.anchorUnderWay id = true := by
  obtain ⟨h, hs, hanchor, _⟩ := w.head id rfl
  rw [Session.anchorUnderWay, hs, w.frames]
  simp [hanchor]

/-- The innermost rule of the chain is involved and anchors nothing. -/
theorem top_chain (S : Setting r top chains bases pos ans) (ht : Tail chains ((x, piece) :: rest))
    (w : Seeding r top chains pos found (some id) (some id) (x :: stack) s) :
    s.top = some (id, false) := by
  obtain ⟨h, hs, hanchor, _⟩ := w.head id rfl
  have hother : h.isAnchor x pos = false := by
    simp only [Head.isAnchor, Bool.and_eq_true, decide_eq_true_eq] at hanchor
    have hx := S.ne_top ht
    simp [Head.isAnchor, hanchor.1, hx.symm]
  rw [top_eq w.frames, Option.map_some, hs, Option.any_some, hother]

/-- A rule of the chain has failed, and is left behind as involved. -/
theorem leave (S : Setting r top chains bases pos ans) (ht : Tail chains ((x, piece) :: rest))
    (w : Seeding r top chains pos (rest.map Prod.fst ++ found) (some id) (some id) (x :: stack) s) :
    Seeding r top chains pos (x :: rest.map Prod.fst ++ found) (some id) (some id) stack
      (s.leave.remember x pos (.involved (.fail x pos) id)) := by
  have hmemo : ∀ y, y ≠ x →
      (s.leave.setEntry x pos (.involved (.fail x pos) id)).memo[(y, pos)]? = s.memo[(y, pos)]? :=
    fun y hy => setEntry_other (fun h => hy (congrArg Prod.fst h)) _
  have hx : s.Involves id x := w.involved id rfl x (List.mem_cons_self ..)
  have hknown : ∀ y ∈ x :: rest.map Prod.fst ++ found, s.Involves id y := by
    intro y hy
    rcases List.mem_cons.mp hy with rfl | hy
    · exact hx
    · obtain ⟨i, hi, hmem⟩ := w.known y hy
      cases hi
      exact hmem
  have hend : r.Endless x pos := S.endless ht
  rw [remember_of_not_growing (s := s.leave) (w.growing pos)]
  refine ⟨w.faithful.insert hend rfl, w.growing, ?_,
    fun y hy => w.linked y (List.mem_cons_of_mem _ hy), ?_, w.head,
    fun i hi y hy => w.involved i hi y (List.mem_cons_of_mem _ hy), fun y hy =>
      ⟨id, rfl, hknown y hy⟩,
    fun y piece' rest' ht' hy => ?_⟩
  · show s.frames.tail = _
    rw [w.frames]
    rfl
  · rw [hmemo top (S.ne_top ht).symm]
    exact w.underWay
  · by_cases hyx : y = x
    · subst hyx
      cases S.tail_unique ht ht' rfl
      exact .inr ⟨id, rfl, Std.HashMap.getElem?_insert_self,
        fun z hz => hknown z (List.mem_append_left found hz)⟩
    · rw [hmemo y hyx]
      exact w.entries y piece' rest' ht' fun hmem => (List.mem_cons.mp hmem).elim hyx hy

end Seeding

/-! ### Chains -/

/-- A chain fails, and its rules are involved in the rule's head. -/
theorem chain_seeds (S : Setting r top chains bases pos ans) {t : Chain} (ht : Tail chains t)
    (hnodup : (t.map Prod.fst).Nodup) (hstack : ∀ y ∈ t.map Prod.fst, y ∉ stack) (depth : Nat) :
    Reaches (fun s => ∃ anchor, Seeding r top chains pos found anchor none stack s)
      (r.applyWithin depth (t.entry top) pos) fun a s => a = .fail (t.entry top) pos ∧
        ∃ id, Seeding r top chains pos (t.map Prod.fst ++ found) (some id) (some id) stack s := by
  induction t generalizing stack depth with
  | nil =>
    cases depth with
    | zero => exact .lapse trivial
    | succ depth =>
      intro s hs
      obtain ⟨anchor, w⟩ := hs
      have w' : Seeding r top chains pos found anchor none stack s.counted :=
        w.congr rfl rfl rfl rfl
      rw [Chain.entry, ends_underWay S.limit (w.isEligible top pos) w.underWay]
      exact ⟨rfl, w'.reenter⟩
  | cons e rest ih =>
    obtain ⟨x, piece⟩ := e
    cases depth with
    | zero => exact .lapse trivial
    | succ depth =>
      intro s hs
      obtain ⟨anchor, w⟩ := hs
      obtain ⟨⟨rule, hrule, hbody⟩, _⟩ := S.leadsTo ht
      obtain ⟨hx, hnodup⟩ := List.nodup_cons.mp hnodup
      have w' : Seeding r top chains pos found anchor none stack s.counted :=
        w.congr rfl rfl rfl rfl
      rcases w.entries x piece rest ht (hstack x (List.mem_cons_self ..)) with hnone | hinvolved
      · have hrest : ∀ y ∈ rest.map Prod.fst, y ∉ x :: stack := by
          intro y hy hmem
          rcases List.mem_cons.mp hmem with rfl | hmem
          · exact hx hy
          · exact hstack y (List.mem_cons_of_mem _ hy) hmem
        have hfails : Reaches (Seeding r top chains pos found anchor none (x :: stack))
            (tracedBody (r.applyWithin depth) r x pos) fun a s => a = .fail x pos ∧
              ∃ id, Seeding r top chains pos (rest.map Prod.fst ++ found) (some id) (some id)
              (x :: stack) s := by
          have hinner := (ih ht.rest hnodup hrest depth).mono (fun s w => ⟨anchor, w⟩) fun _ _ h =>
            h
          refine tracedBody_reaches (fun _ _ w => w.congr rfl rfl rfl rfl) (fun a s e h => ?_) <|
            body_pair_reaches hrule hbody hinner (fun a hm s h => ?_) fun _ _ _ h => ⟨rfl, h.2⟩
          · obtain ⟨ha, id, w⟩ := h
            exact ⟨ha, id, w.congr rfl rfl rfl rfl⟩
          · rw [h.1] at hm
            cases hm
        rw [Chain.entry, ends_fresh S.limit (w.isEligible x pos) hnone]
        refine applyFresh_reaches hfails (fun a s h => ?_) _ (w'.enter S ht)
        obtain ⟨rfl, id, w⟩ := h
        exact ⟨id, .inl ⟨w.top_chain S ht, rfl, id, w.leave S ht⟩⟩
      · obtain ⟨id, rfl, hmem, hall⟩ := hinvolved
        have hknown : Seeding r top chains pos (x :: rest.map Prod.fst ++ found)
            (some id) none stack s.counted := by
          refine { w' with known := fun y hy => ?_ }
          rcases List.mem_append.mp hy with hy | hy
          · exact ⟨id, rfl, hall y hy⟩
          · exact w'.known y hy
        rw [Chain.entry, ends_involved S.limit (w.isEligible x pos) hmem w.anchorUnderWay]
        exact ⟨rfl, id, hknown.involve⟩

/-- No chain matches, and the rules of all of them are involved in the rule's head. -/
theorem chains_seed (S : Setting r top chains bases pos ans) {l : List Chain}
    (hl : ∀ chain ∈ l, chain ∈ chains) (depth : Nat) :
    Reaches (fun s => ∃ anchor, Seeding r top chains pos found anchor none [] s)
      (matchFirst (r.applyWithin depth) pos (l.map (Chain.entry top))) fun o s => o = none ∧
        ∃ anchor, Seeding r top chains pos (l.flatMap (List.map Prod.fst) ++ found) anchor none
        [] s := by
  induction l generalizing found with
  | nil => exact .pure fun s h => ⟨rfl, h⟩
  | cons chain rest ih =>
    have hchain := hl chain (List.mem_cons_self ..)
    refine .bind (chain_seeds S ⟨chain, hchain, List.suffix_refl _⟩ (S.shape.distinct chain hchain)
      (fun _ _ => List.not_mem_nil) depth) fun a s h => ?_
    obtain ⟨rfl, id, w⟩ := h
    rw [if_neg (by exact Bool.false_ne_true)]
    have hrest := @ih (chain.map Prod.fst ++ found) fun c hc => hl c (List.mem_cons_of_mem _ hc)
    have hsettled : Seeding r top chains pos (chain.map Prod.fst ++ found) (some id) none [] s :=
      { w with involved := fun _ h => (by cases h) }
    refine (hrest s ⟨some id, hsettled⟩).mono (fun o s' h => ?_) fun _ _ he => he
    obtain ⟨ho, anchor, w'⟩ := h
    refine ⟨ho, anchor, w'.mono fun y hy => ?_⟩
    simp only [List.flatMap_cons, List.mem_append] at hy ⊢
    grind

/-- The first evaluation of the rule answers by its bases, and all rules of the chains are
involved. -/
theorem seed_reaches (S : Setting r top chains bases pos ans) (depth : Nat) :
    Reaches (Seeding r top chains pos [] none none []) (tracedBody (r.applyWithin depth) r top pos)
      fun a s => a = baseAnswer ans top pos bases ∧
        ∃ id, Seeding r top chains pos (chains.flatMap (List.map Prod.fst))
        (some id) none [] s := by
  obtain ⟨rule, hrule, hbody⟩ := S.shape.rule
  have hchains : Reaches (Seeding r top chains pos [] none none [])
      (matchFirst (r.applyWithin depth) pos (chains.map (Chain.entry top))) _ :=
    (chains_seed S (fun _ h => h) depth).mono (fun s w => ⟨none, w⟩) fun _ _ h => h
  refine tracedBody_reaches (fun _ _ w => w.congr rfl rfl rfl rfl) (fun a s e h => ?_) <|
    body_choice_reaches hrule hbody hchains (fun a s h => absurd h.1 (by simp)) fun s h => ?_
  · obtain ⟨ha, id, w⟩ := h
    exact ⟨ha, id, w.congr rfl rfl rfl rfl⟩
  · obtain ⟨_, anchor, w⟩ := h
    rw [List.append_nil] at w
    have hanchor : ∃ id, anchor = some id := by
      obtain ⟨chain, more, hmore⟩ := List.exists_cons_of_ne_nil S.shape.recursive
      have hchain : chain ∈ chains := hmore ▸ List.mem_cons_self ..
      obtain ⟨e, rest, rfl⟩ := List.exists_cons_of_ne_nil (S.shape.nonempty chain hchain)
      obtain ⟨id, hid, _⟩ := w.known e.1 (List.mem_flatMap.mpr ⟨_, hchain, List.mem_cons_self ..⟩)
      exact ⟨id, hid⟩
    obtain ⟨id, rfl⟩ := hanchor
    exact (S.bases_reaches depth (Seeding.hosts S _ _ _ _) s w).mono (fun _ _ h => ⟨h.1, id, h.2⟩)
      fun _ _ he => he

end Packrat
