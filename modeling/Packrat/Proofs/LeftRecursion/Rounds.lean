import Packrat.Proofs.LeftRecursion.Setting

/-! The growth of a left-recursive rule, round by round.

While the rule grows, its entry is the match so far (`Growing`). In a round each rule of its
chains is either still to be evaluated anew or remembered with what it answers in this
round (`Round`), which is the match so far with the pieces of the chain around it. So
however the chains share rules, a round answers `roundAnswer` (`round_reaches`), and the
rounds together are the iteration of the pieces (`growRounds_reaches`). -/
namespace Packrat
open Recognizer

section
variable (r : Recognizer) (top : RuleId) (chains : List Chain) (pos : Nat) (ans : RuleId →
  Nat → Answer)

/-- Between two rounds of a head whose match so far is `best`. -/
structure Growing (id : HeadId) (best : Answer) (s : Session) : Prop where
  faithful : s.Faithful r
  growing : ∀ p : Nat, s.growing[p]? = if p = pos then some id else none
  anchor : s.memo[(top, pos)]? = some (.final best)
  head : ∃ h, s.heads[id]? = some h ∧ ∀ x, x ∈ h.involved ↔ Linked chains x

/-- In a round, where the rules in `busy` are being evaluated anew. -/
structure Round (id : HeadId) (best : Answer) (busy : List RuleId) (s : Session) : Prop where
  growth : Growing r top chains pos id best s
  eligible : ∀ h, s.heads[id]? = some h → ∀ x ∈ h.eligible, Linked chains x
  answered : ∀ h, s.heads[id]? = some h → ∀ x piece rest, Tail chains ((x, piece) :: rest) →
    x ∉ busy → x ∈ h.eligible ∨
    s.memo[(x, pos)]? = some (.final (Chain.answer ans pos best ((x, piece) :: rest)))

end

variable {r : Recognizer} {top : RuleId} {chains : List Chain} {bases : List RuleId} {pos : Nat}
  {ans : RuleId → Nat → Answer} {id : HeadId} {best : Answer} {busy : List RuleId} {s s' : Session}

theorem Growing.congr (g : Growing r top chains pos id best s) (hmemo : s'.memo = s.memo)
    (hheads : s'.heads = s.heads) (hgrowing : s'.growing = s.growing) :
    Growing r top chains pos id best s' :=
  ⟨g.faithful.congr fun k => .inl (by rw [hmemo]), fun p => hgrowing ▸ g.growing p,
    hmemo ▸ g.anchor, hheads ▸ g.head⟩

theorem Round.congr (o : Round r top chains pos ans id best busy s) (hmemo : s'.memo = s.memo)
    (hheads : s'.heads = s.heads) (hgrowing : s'.growing = s.growing) :
    Round r top chains pos ans id best busy s' :=
  ⟨o.growth.congr hmemo hheads hgrowing,
    hheads ▸ o.eligible, by rw [hheads, hmemo]; exact o.answered⟩

section
variable (S : Setting r top chains bases pos ans)
include S

theorem Growing.aside (g : Growing r top chains pos id best s) (h : s.Aside r s') :
    Growing r top chains pos id best s' := by
  obtain ⟨hd, hs, hinvolved⟩ := g.head
  obtain ⟨hd', hs', heq⟩ := h.head_of hs
  obtain ⟨_, _, hsame, _⟩ := Head.eq_of_unwritten heq
  exact ⟨g.faithful.aside h, fun p => h.growing ▸ g.growing p,
    (h.memo_eq S.endless_top).trans g.anchor, hd', hs', fun x => by rw [hsame]; exact hinvolved x⟩

theorem Round.aside (o : Round r top chains pos ans id best busy s) (h : s.Aside r s') :
    Round r top chains pos ans id best busy s' := by
  refine ⟨o.growth.aside S h, fun hd' hs' x hx => ?_, fun hd' hs' x piece rest ht hbusy => ?_⟩
  · obtain ⟨hd, hs, heq⟩ := h.head hs'
    obtain ⟨_, _, _, hsame⟩ := Head.eq_of_unwritten heq
    exact o.eligible hd hs x (hsame ▸ hx)
  · obtain ⟨hd, hs, heq⟩ := h.head hs'
    obtain ⟨_, _, _, hsame⟩ := Head.eq_of_unwritten heq
    have hx : r.Endless x pos := S.endless ht
    rw [hsame, h.memo_eq hx]
    exact o.answered hd hs x piece rest ht hbusy

end

/-- The rules that are to be evaluated anew are those of the head, at the position. -/
theorem Round.isEligible (o : Round r top chains pos ans id best busy s) {h : Head}
    (hs : s.heads[id]? = some h) (x : RuleId) (p : Nat) :
    s.isEligible x p = (decide (p = pos) && h.eligible.contains x) := by
  rw [Session.isEligible, o.growth.growing p]
  by_cases hp : p = pos
  · rw [if_pos hp, Option.bind_some, hs]
    simp [hp]
  · rw [if_neg hp]
    simp [hp]

/-- Plain applications may be made in a round. -/
theorem Round.hosts (S : Setting r top chains bases pos ans) (id : HeadId) (best : Answer)
    (busy : List RuleId) : Hosts r (Round r top chains pos ans id best busy) := by
  refine ⟨fun s o => o.growth.faithful, fun s o x p hel => ?_, fun s s' o h => o.aside S h⟩
  obtain ⟨h, hs, _⟩ := o.growth.head
  rw [o.isEligible hs, Bool.and_eq_true, decide_eq_true_eq, List.contains_iff_mem] at hel
  obtain ⟨rfl, hx⟩ := hel
  exact S.endless_linked (o.eligible h hs x hx)

/-- A rule is taken to be evaluated anew. -/
theorem Round.spend (o : Round r top chains pos ans id best busy s) (x : RuleId) :
    Round r top chains pos ans id best (x :: busy) (s.spend x pos) := by
  obtain ⟨h, hs, hinvolved⟩ := o.growth.head
  have hsub : ∀ y ∈ h.eligible.erase x, y ∈ h.eligible := fun y hy => List.mem_of_mem_erase hy
  have hspend : s.spend x pos =
      { s with heads := s.heads.insert id { h with eligible := h.eligible.erase x } } := by
    rw [Session.spend, o.growth.growing pos, if_pos rfl]
    simp only [Session.modifyHead, hs]
  have hlookup : (s.spend x pos).heads[id]? = some { h with eligible := h.eligible.erase x } := by
    rw [hspend]
    exact Std.HashMap.getElem?_insert_self
  refine ⟨⟨?_, ?_, ?_, _, hlookup, hinvolved⟩, fun h' hs' y hy => ?_,
    fun h' hs' y piece rest ht hbusy => ?_⟩
  · rw [hspend]
    exact o.growth.faithful.congr fun k => .inl rfl
  · rw [hspend]
    exact o.growth.growing
  · rw [hspend]
    exact o.growth.anchor
  · cases hlookup.symm.trans hs'
    exact o.eligible h hs y (hsub y hy)
  · cases hlookup.symm.trans hs'
    rw [List.mem_cons, not_or] at hbusy
    rw [hspend]
    rcases o.answered h hs y piece rest ht hbusy.2 with hy | hy
    · exact .inl ((List.mem_erase_of_ne hbusy.1).mpr hy)
    · exact .inr hy

/-- What a rule answers that was evaluated anew is remembered. -/
theorem Round.remember (S : Setting r top chains bases pos ans) {x piece : RuleId} {rest : Chain}
    (o : Round r top chains pos ans id best (x :: busy) s) (ht : Tail chains ((x, piece) :: rest)) :
    Round r top chains pos ans id best busy
      (s.remember x pos (.final (Chain.answer ans pos best ((x, piece) :: rest)))) := by
  obtain ⟨h, hs, hinvolved⟩ := o.growth.head
  have hremember : ∀ e, s.remember x pos e = { s with
      memo := s.memo.insert (x, pos) e
      heads := s.heads.insert id { h with written := x :: h.written } } := by
    intro e
    rw [Session.remember, show (s.setEntry x pos e).growing[pos]? = _ from o.growth.growing pos,
      if_pos rfl]
    simp only [Session.modifyHead, Session.setEntry, hs]
  generalize hanswer : Entry.final (Chain.answer ans pos best ((x, piece) :: rest)) = e
  have hlookup : (s.remember x pos e).heads[id]? = some { h with written := x :: h.written } := by
    rw [hremember]
    exact Std.HashMap.getElem?_insert_self
  have hmemo : ∀ y, y ≠ x → (s.remember x pos e).memo[(y, pos)]? = s.memo[(y, pos)]? := by
    intro y hy
    exact remember_other (fun h => hy (congrArg Prod.fst h)) e
  refine ⟨⟨o.growth.faithful.insert (S.endless ht) (memo_remember e), ?_, ?_, _,
    hlookup, hinvolved⟩, fun h' hs' y hy => ?_, fun h' hs' y piece' rest' ht' hbusy => ?_⟩
  · rw [hremember]
    exact o.growth.growing
  · rw [hmemo top (S.ne_top ht).symm]
    exact o.growth.anchor
  · cases hlookup.symm.trans hs'
    exact o.eligible h hs y hy
  · cases hlookup.symm.trans hs'
    by_cases hy : y = x
    · subst hy
      rw [← S.tail_unique ht ht' rfl, remember_self, hanswer]
      exact .inr rfl
    · rw [hmemo y hy]
      exact o.answered h hs y piece' rest' ht' fun h => (List.mem_cons.mp h).elim hy hbusy

/-- A round begins with all rules of the chains to be evaluated anew. -/
theorem Growing.startRound (g : Growing r top chains pos id best s) :
    Round r top chains pos ans id best [] (s.startRound id top pos) := by
  obtain ⟨h, hs, hinvolved⟩ := g.head
  obtain ⟨hgrowing, hlookup, hmemo⟩ := startRound_eq hs top pos
  refine ⟨⟨g.faithful.congr fun k => ?_, fun p => hgrowing ▸ g.growing p, ?_, _,
    hlookup, hinvolved⟩, fun h' hs' x hx => ?_, fun h' hs' x piece rest ht _ => ?_⟩
  · rw [hmemo k]
    split
    · exact .inr (.inl rfl)
    · exact .inl rfl
  · rw [hmemo (top, pos), if_neg (fun hk => by simpa using (List.mem_filter.mp hk.1).2)]
    exact g.anchor
  · cases hlookup.symm.trans hs'
    exact (hinvolved x).mp hx
  · cases hlookup.symm.trans hs'
    exact .inl ((hinvolved x).mpr ⟨piece, rest, ht⟩)

/-- A round has brought a longer match. -/
theorem Growing.improve (S : Setting r top chains bases pos ans)
    (g : Growing r top chains pos id best s) (a : Answer) :
    Growing r top chains pos id a (s.setEntry top pos (.final a)) :=
  ⟨g.faithful.insert S.endless_top rfl, g.growing, Std.HashMap.getElem?_insert_self, g.head⟩

theorem Chain.answer_start (ans : RuleId → Nat → Answer) (hstart : best.start = pos) (t : Chain) :
    (t.answer ans pos best).start = pos := by
  cases t with
  | nil => exact hstart
  | cons e rest =>
    rw [Chain.answer]
    split <;> rfl

theorem Chain.answer_fail {x piece : RuleId} {rest : Chain}
    (h : (answer ans pos best rest).matched = false) :
    answer ans pos best ((x, piece) :: rest) = .fail x pos :=
  if_neg fun hboth => Bool.false_ne_true (h.symm.trans hboth.1)

/-- The piece of a chain's rule, after the rule with which that begins, completes its answer. -/
theorem Setting.piece_reaches (S : Setting r top chains bases pos ans) (hstart : best.start = pos)
    {x piece : RuleId} {rest : Chain} (ht : Tail chains ((x, piece) :: rest)) (depth : Nat)
    (a : Answer) (hm : a.matched = true) :
    Reaches (fun s => a = Chain.answer ans pos best rest ∧
      Round r top chains pos ans id best busy s) (r.applyWithin depth piece a.stop) fun b s =>
        (if b.matched = true then .node x pos (b.stop - pos) [a, b] else .fail x pos) =
            Chain.answer ans pos best ((x, piece) :: rest) ∧
          Round r top chains pos ans id best busy s := by
  intro s hs
  obtain ⟨rfl, o⟩ := hs
  have hbelow := Chain.answer_start ans hstart rest
  have hq : pos ≤ (Chain.answer ans pos best rest).stop := by
    rw [Answer.stop, hbelow]
    exact Nat.le_add_right _ _
  have hpiece := S.plain_reaches (.inr ht.mem_pieces) hq depth (Round.hosts S id best busy) s o
  refine hpiece.mono (fun b s' hb => ?_) fun _ _ he => he
  obtain ⟨rfl, o'⟩ := hb
  refine ⟨?_, o'⟩
  rw [Chain.answer]
  by_cases hb : (ans piece (Chain.answer ans pos best rest).stop).matched = true
  · have hlength : (ans piece (Chain.answer ans pos best rest).stop).stop - pos =
        (Chain.answer ans pos best rest).length +
        (ans piece (Chain.answer ans pos best rest).stop).length := by
      rw [Answer.stop, (S.plain piece (.inr ht.mem_pieces) _ hq).at.2, Answer.stop, hbelow,
        Nat.add_assoc, Nat.add_sub_cancel_left]
    rw [if_pos hb, if_pos ⟨hm, hb⟩, hlength]
  · rw [if_neg hb, if_neg (fun h => hb h.2)]

section
variable (S : Setting r top chains bases pos ans) (hstart : best.start = pos)
include S hstart

/-- The rules of the chains answer what they answer in this round, evaluated anew or remembered. -/
theorem chain_reaches {t : Chain} (ht : Tail chains t) (hnodup : (t.map Prod.fst).Nodup)
    (hbusy : ∀ x ∈ t.map Prod.fst, x ∉ busy) (depth : Nat) :
    Reaches (Round r top chains pos ans id best busy) (r.applyWithin depth (t.entry top) pos)
      fun a s => a = t.answer ans pos best ∧ Round r top chains pos ans id best busy s := by
  induction t generalizing busy depth with
  | nil =>
    cases depth with
    | zero => exact .lapse trivial
    | succ depth =>
      intro s o
      obtain ⟨h, hs, _⟩ := o.growth.head
      have hel : ¬ s.isEligible top pos = true := by
        intro hel
        rw [o.isEligible hs, Bool.and_eq_true, List.contains_iff_mem] at hel
        obtain ⟨piece, rest, hlinked⟩ := o.eligible h hs top hel.2
        exact S.ne_top hlinked rfl
      rw [Chain.entry, ends_final S.limit hel o.growth.anchor]
      exact ⟨rfl, o.congr rfl rfl rfl⟩
  | cons e rest ih =>
    obtain ⟨x, piece⟩ := e
    cases depth with
    | zero => exact .lapse trivial
    | succ depth =>
      intro s o
      obtain ⟨⟨found, hfound, hbody⟩, _⟩ := S.leadsTo ht
      obtain ⟨hx, hnodup⟩ := List.nodup_cons.mp hnodup
      have o' : Round r top chains pos ans id best busy s.counted := o.congr rfl rfl rfl
      obtain ⟨h, hs, _⟩ := o.growth.head
      by_cases hel : s.isEligible x pos = true
      · rw [Chain.entry, ends_anew S.limit hel]
        have hrest : ∀ y ∈ rest.map Prod.fst, y ∉ x :: busy := by
          intro y hy hmem
          rcases List.mem_cons.mp hmem with rfl | hmem
          · exact hx hy
          · exact hbusy y (List.mem_cons_of_mem _ hy) hmem
        have hanew : Reaches (Round r top chains pos ans id best (x :: busy))
            (tracedBody (r.applyWithin depth) r x pos) fun a s =>
              a = Chain.answer ans pos best ((x, piece) :: rest) ∧
              Round r top chains pos ans id best (x :: busy) s :=
          tracedBody_reaches (fun _ _ o => o.congr rfl rfl rfl)
            (fun _ _ _ h => ⟨h.1, h.2.congr rfl rfl rfl⟩)
            (body_pair_reaches hfound hbody (ih ht.rest hnodup hrest depth)
            (S.piece_reaches hstart ht depth)
              fun a s hm h => ⟨by rw [Chain.answer_fail (h.1 ▸ hm)], h.2⟩)
        refine (hanew _ (o'.spend x)).mono (fun a s₁ ha => ?_) fun _ _ he => he
        obtain ⟨rfl, o₁⟩ := ha
        exact ⟨rfl, o₁.remember S ht⟩
      · have hentry : s.memo[(x, pos)]? =
            some (.final (Chain.answer ans pos best ((x, piece) :: rest))) :=
          (o.answered h hs x piece rest ht (hbusy x (List.mem_cons_self ..))).resolve_left
            fun hmem => hel <| by
            rw [o.isEligible hs, decide_eq_true rfl, Bool.true_and, List.contains_iff_mem]
            exact hmem
        rw [Chain.entry, ends_final S.limit hel hentry]
        exact ⟨rfl, o'⟩

/-- A round answers by the first chain that matches around the match so far, or else by a base. -/
theorem round_reaches (depth : Nat) :
    Reaches (Round r top chains pos ans id best []) (tracedBody (r.applyWithin depth) r top pos)
      fun a s => a = roundAnswer ans top pos chains bases best ∧
        Round r top chains pos ans id best [] s := by
  obtain ⟨found, hfound, hbody⟩ := S.shape.rule
  have hchains :=
    matchFirst_reaches (P := Round r top chains pos ans id best []) chains (Chain.entry top)
    (Chain.answer ans pos best) fun chain hchain =>
      chain_reaches S hstart ⟨chain, hchain, List.suffix_refl _⟩ (S.shape.distinct chain hchain)
        (fun _ _ => List.not_mem_nil) depth
  have hbases := S.bases_reaches depth (Round.hosts S id best [])
  refine tracedBody_reaches (fun _ _ o => o.congr rfl rfl rfl)
    (fun _ _ _ h => ⟨h.1, h.2.congr rfl rfl rfl⟩) <|
    body_choice_reaches hfound hbody hchains (fun a s h => ?_) fun s h => ?_
  · obtain ⟨ha, o⟩ := h
    obtain ⟨chain, hchain, rfl⟩ := Option.map_eq_some_iff.mp ha.symm
    exact ⟨by rw [roundAnswer, hchain], o⟩
  · obtain ⟨hnone, o⟩ := h
    refine (hbases s o).mono (fun o' s' h => ?_) fun _ _ he => he
    rw [h.1, roundAnswer, Option.map_eq_none_iff.mp hnone.symm]
    exact ⟨rfl, h.2⟩

end

/-- Rounds go on until no chain adds anything, and each goes around the match before. -/
theorem growRounds_reaches (S : Setting r top chains bases pos ans) (n : Nat) (growth : Growth)
    (depth : Nat) (hm : growth.best.matched = true) (hstart : growth.best.start = pos)
    (hbase : (baseAnswer ans top pos bases).length ≤ growth.best.length) :
    Reaches (Growing r top chains pos id growth.best)
      (growRounds (tracedBody (r.applyWithin depth) r) id top pos n growth)
      fun g _ => g.best.start = pos ∧ ∃ rounds, g.best = grown top pos growth.best rounds ∧
        Iterates ans chains growth.best.stop rounds g.best.stop := by
  induction n generalizing growth with
  | zero => exact .lapse trivial
  | succ n ih =>
    rw [growRounds]
    refine .bind (.modify (Q := fun _ => Round r top chains pos ans id growth.best [])
      fun s g => g.startRound) fun _ => .bind (round_reaches S hstart depth) fun a s h => ?_
    obtain ⟨rfl, o⟩ := h
    by_cases hdone : ∀ chain parts, firstRow ans chains growth.best.stop = some (chain, parts) →
      total parts = 0
    · rw [if_neg (roundAnswer_worse hm hstart top hbase hdone)]
      exact ⟨hstart, [], rfl, .stop hdone⟩
    · simp only [Classical.not_forall] at hdone
      obtain ⟨chain, parts, hrow, hadds⟩ := hdone
      obtain ⟨hanswer, hlength⟩ := roundAnswer_some hm hstart top bases hrow
      rw [if_pos (roundAnswer_better hm hstart top bases hrow hadds), ends_bind, ends_modify,
        ends_bind, ends_get]
      have hmatched : (roundAnswer ans top pos chains bases growth.best).matched = true := by
        rw [hanswer]
        rfl
      have hround : (roundAnswer ans top pos chains bases growth.best).start = pos := by
        rw [hanswer]
        rfl
      have hlonger : (baseAnswer ans top pos bases).length ≤
          (roundAnswer ans top pos chains bases growth.best).length := by
        rw [hlength]
        exact Nat.le_add_right_of_le hbase
      have hstop : (roundAnswer ans top pos chains bases growth.best).stop = growth.best.stop +
          total parts := by
        rw [Answer.stop, hround, hlength, Answer.stop, hstart, Nat.add_assoc]
      refine (ih _ hmatched hround hlonger _ (o.growth.improve S _)).mono (fun g s' h => ?_)
        fun _ _ he => he
      obtain ⟨hpos, rounds, hbest, hrounds⟩ := h
      refine ⟨hpos, (chain, parts) :: rounds, ?_, .round hrow hadds (hstop ▸ hrounds)⟩
      rw [hbest]
      show grown top pos (roundAnswer ans top pos chains bases growth.best) rounds = _
      rw [hanswer]
      rfl

end Packrat
