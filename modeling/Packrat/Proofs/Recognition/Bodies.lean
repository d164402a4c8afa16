import Packrat.Proofs.Recognition.Ends
import Packrat.Proofs.Recognition.Justified
import Packrat.Proofs.Rules.Closed

/-! What the evaluation of a body upholds.

Whatever property of the session the applications uphold, the bodies uphold, which do
nothing to the session by themselves. If each application made for a body answers as an
application may (`Recognizer.Answers`), so does the body: its match is justified by what it
is made of. A repetition ends because each item takes it further into the buffer.

This goes for all that can be said of one step after another (`Congruence`), also where two
ways to apply rules are compared. It is asked only of the applications that a body may make
(`Recognizer.Calls`), which at the offset where it is evaluated are few: a sequence goes on to
its next rule there only if those before may match nothing. -/
namespace Packrat

/-- What relates two recognitions, and says how they answer, if it relates also what is done one
after the other. -/
structure Congruence (E : Stop → Prop) (R : ∀ {α : Type}, Recognition α → Recognition α →
      (α → Prop) → Prop) :
    Prop where
  pure {α : Type} {Q : α → Prop} {a : α} : Q a → R (pure a) (pure a) Q
  throw {α : Type} {Q : α → Prop} {e : Stop} : E e → R (throw e) (throw e) Q
  bind {α β : Type} {x x' : Recognition α} {f f' : α → Recognition β} {Q : α → Prop}
    {Q' : β → Prop} : R x x' Q → (∀ a, Q a → R (f a) (f' a) Q') → R (x >>= f) (x' >>= f') Q'

theorem Congruence.mono {E : Stop → Prop}
    {R : ∀ {α : Type}, Recognition α → Recognition α → (α → Prop) → Prop} (L : Congruence E R)
    {α : Type} {x x' : Recognition α} {Q Q' : α → Prop} (h : R x x' Q) (hQ : ∀ a, Q a → Q' a) :
    R x x' Q' := by
  have hbind := L.bind h fun a ha => L.pure (hQ a ha)
  rwa [bind_pure, bind_pure] at hbind

theorem Congruence.upholds (I : Session → Prop) (E : Stop → Prop) :
    Congruence E fun x _ Q => Upholds I E x Q :=
  ⟨.pure, .throw, .bind⟩

/-- The rule may match nothing at an offset. -/
def Recognizer.MayBeEmpty (r : Recognizer) (x : RuleId) (pos : Nat) : Prop :=
  ∃ a, r.Answers x pos a ∧ a.matched = true ∧ a.length = 0

/-- A body that is evaluated at `pos` may apply a rule at `q`. -/
def RuleBody.MayApply (r : Recognizer) (pos : Nat) (y : RuleId) (q : Nat) : RuleBody → Prop
  | .sequence rules =>
    ∃ before after, rules = before ++ y :: after ∧ (q = pos → ∀ z ∈ before, r.MayBeEmpty z pos)
  | .choice rules => y ∈ rules ∧ q = pos
  | .optional child => y = child ∧ q = pos
  | .repetition child => y = child
  | .literal _ | .pattern _ | .epsilon | .endOfInput | .reference _ => False

/-- The body of a rule that is evaluated at an offset may apply another rule at another offset. -/
def Recognizer.Calls (r : Recognizer) (k k' : RuleId × Nat) : Prop :=
  r.Ahead k.2 k'.2 ∧ ∃ found, r.graph.rule? k.1 = some found ∧ found.body.MayApply r k.2 k'.1 k'.2

theorem RuleBody.MayApply.mem_children {r : Recognizer} {pos q : Nat} {y : RuleId} {body : RuleBody}
    (h : body.MayApply r pos y q) : y ∈ body.children := by
  cases body with
  | sequence rules =>
    obtain ⟨before, after, rfl, _⟩ := h
    exact List.mem_append_right _ (List.mem_cons_self ..)
  | choice rules => exact h.1
  | optional child => exact List.mem_singleton.mpr h.1
  | repetition child => exact List.mem_singleton.mpr h
  | _ => exact h.elim

theorem Recognizer.Calls.refers {r : Recognizer} {k k' : RuleId × Nat} (h : r.Calls k k') :
    r.graph.Refers k.1 k'.1 := by
  obtain ⟨_, found, hfound, hbody⟩ := h
  exact ⟨found, hfound, hbody.mem_children⟩

namespace Recognizer
variable {rec rec' : RuleId → Nat → Recognition Answer} {r : Recognizer} {I : Session → Prop}
  {E : Stop → Prop} {R : ∀ {α : Type}, Recognition α → Recognition α → (α → Prop) → Prop}

/-- Answers of rules one after the other, from one offset to another. -/
structure Row (r : Recognizer) (pos : Nat) (answers : List Answer) (stop : Nat) : Prop where
  contiguous : Contiguous pos (answers.map (·.step)) stop
  derived : ∀ a ∈ answers, a.matched ∧ a.Derived r

namespace Row
variable {pos stop : Nat} {a : Answer} {answers : List Answer}

theorem nil (pos : Nat) : r.Row pos [] pos := ⟨rfl, nofun⟩

theorem cons {rule : RuleId} (ha : r.Answers rule pos a) (hm : a.matched = true)
    (h : r.Row a.stop answers stop) : r.Row pos (a :: answers) stop := by
  refine ⟨⟨ha.start_eq, h.contiguous⟩, fun b hb => ?_⟩
  rcases List.mem_cons.mp hb with rfl | hb
  · exact ⟨hm, ha.derived hm⟩
  · exact h.derived b hb

theorem snoc {rule : RuleId} (h : r.Row pos answers stop) (ha : r.Answers rule stop a)
    (hm : a.matched = true) : r.Row pos (answers ++ [a]) a.stop := by
  induction answers generalizing pos with
  | nil =>
    obtain rfl := h.contiguous
    exact cons ha hm (nil _)
  | cons b rest ih =>
    have hrest := ih ⟨h.contiguous.2, fun c hc => h.derived c (List.mem_cons_of_mem _ hc)⟩
    refine ⟨⟨h.contiguous.1, hrest.contiguous⟩, fun c hc => ?_⟩
    rcases List.mem_cons.mp hc with rfl | hc
    · exact h.derived _ (List.mem_cons_self ..)
    · exact hrest.derived c hc

theorem ahead (h : r.Row pos answers stop) : r.Ahead pos stop := by
  refine ahead_of_contiguous h.contiguous fun s hs => ?_
  obtain ⟨a, ha, rfl⟩ := List.mem_map.mp hs
  exact (h.derived a ha).2.ahead

theorem sum_length (h : r.Row pos answers stop) :
    ((answers.map (·.step)).map (·.length)).sum = stop - pos := by
  have := h.contiguous.sum_length
  omega

theorem stop_eq (h : r.Row pos answers stop) : pos + (stop - pos) = stop := by
  have := h.ahead.le
  omega

end Row

/-! ### Several rules -/

theorem matchEach_congr (L : Congruence E R) (rules : List RuleId) {pos : Nat}
    (hrec : ∀ before y after q, rules = before ++ y :: after → r.Ahead pos q →
      (q = pos → ∀ z ∈ before, r.MayBeEmpty z pos) → R (rec y q) (rec' y q) (r.Answers y q)) :
    R (matchEach rec rules pos) (matchEach rec' rules pos) fun o =>
      ∀ answers stop, o = some (answers, stop) →
        answers.map (·.rule) = rules ∧ r.Row pos answers stop := by
  induction rules generalizing pos with
  | nil =>
    refine L.pure fun answers stop h => ?_
    cases h
    exact ⟨rfl, .nil _⟩
  | cons y rest ih =>
    refine L.bind (hrec [] y rest pos rfl (.refl pos) fun _ _ hz => absurd hz List.not_mem_nil)
      fun a ha => ?_
    by_cases hm : a.matched = true
    · rw [if_pos hm, if_pos hm]
      refine L.bind (ih fun before z after q hsplit hq hempty => ?_) fun o ho => L.pure
        fun answers stop h => ?_
      · refine hrec (y :: before) z after q (congrArg _ hsplit) ((ha.ahead hm).trans hq) fun hpos =>
          ?_
        -- What comes after a match is applied where it began only if it is a match of nothing.
        have hle := hq.le
        obtain ⟨hstop, hlength⟩ : a.stop = pos ∧ a.length = 0 := by
          simp only [Answer.stop, ha.start_eq] at hle ⊢
          omega
        intro w hw
        rcases List.mem_cons.mp hw with rfl | hw
        · exact ⟨a, ha, hm, hlength⟩
        · exact hstop ▸ hempty (hpos.trans hstop.symm) w hw
      · obtain ⟨⟨answers', stop'⟩, rfl, h⟩ := Option.map_eq_some_iff.mp h
        cases h
        obtain ⟨hrules, hrow⟩ := ho _ _ rfl
        exact ⟨by rw [List.map_cons, hrules, ha.rule_eq], hrow.cons ha hm⟩
    · rw [if_neg hm, if_neg hm]
      refine L.pure fun answers stop h => ?_
      cases h

theorem matchFirst_congr (L : Congruence E R) (rules : List RuleId) {pos : Nat}
    (hrec : ∀ y ∈ rules, R (rec y pos) (rec' y pos) (r.Answers y pos)) :
    R (matchFirst rec pos rules) (matchFirst rec' pos rules) fun o => ∀ a, o = some a →
      a.matched = true ∧ ∃ y ∈ rules, r.Answers y pos a := by
  induction rules with
  | nil => exact L.pure nofun
  | cons y rest ih =>
    refine L.bind (hrec y (List.mem_cons_self ..)) fun a ha => ?_
    by_cases hm : a.matched = true
    · rw [if_pos hm, if_pos hm]
      refine L.pure fun b hb => ?_
      cases hb
      exact ⟨hm, y, List.mem_cons_self .., ha⟩
    · rw [if_neg hm, if_neg hm]
      refine L.mono (ih fun z hz => hrec z (List.mem_cons_of_mem _ hz)) fun o ho b hb => ?_
      obtain ⟨hm, z, hz, hb⟩ := ho b hb
      exact ⟨hm, z, List.mem_cons_of_mem _ hz, hb⟩

/-- The answers that a repetition is made of. -/
structure Items (r : Recognizer) (rule : RuleId) (pos : Nat) (answers : List Answer) (stop : Nat) :
    Prop where
  row : r.Row pos answers stop
  nonempty : ∀ a ∈ answers, a.rule = rule ∧ a.length ≠ 0

theorem matchMany_congr (L : Congruence E R) (rule : RuleId) (start : Nat)
    (hrec : ∀ q, r.Ahead start q → R (rec rule q) (rec' rule q) (r.Answers rule q)) {n : Nat}
    {items : List Answer} {pos : Nat} (hitems : r.Items rule start items.reverse pos)
    (hn : r.remaining pos < n) :
    R (matchMany rec rule n items pos) (matchMany rec' rule n items pos) fun o =>
      r.Items rule start o.1.reverse o.2 := by
  induction n generalizing items pos with
  | zero => exact absurd hn (Nat.not_lt_zero _)
  | succ n ih =>
    refine L.bind (hrec pos hitems.row.ahead) fun a ha => ?_
    by_cases hgo : a.matched = true ∧ a.length ≠ 0
    · rw [if_pos (by simpa using hgo), if_pos (by simpa using hgo)]
      obtain ⟨hm, hlength⟩ := hgo
      have hstop : a.stop = pos + a.length := by rw [Answer.stop, ha.start_eq]
      have hahead := ha.ahead hm
      refine ih ⟨?_, fun b hb => ?_⟩ ?_
      · rw [List.reverse_cons]
        exact hitems.row.snoc ha hm
      · rcases List.mem_cons.mp (List.mem_reverse.mp hb) with rfl | hb
        · exact ⟨ha.rule_eq, hlength⟩
        · exact hitems.nonempty b (List.mem_reverse.mpr hb)
      · simp only [Ahead, remaining] at hahead hn ⊢
        omega
    · rw [if_neg (by simpa using hgo), if_neg (by simpa using hgo)]
      exact L.pure hitems

/-! ### One rule -/

variable {rule : RuleId} {pos : Nat}

theorem orStop_congr (L : Congruence E R) {α : Type} {o : Except RuleError α} {Q : α → Prop}
    (hok : ∀ a, o = .ok a → Q a) (herror : ∀ e, o = .error e → ∀ i, E (.dangling i)) :
    R (orStop o rule) (orStop o rule) Q := by
  cases o with
  | ok a => exact L.pure (hok a rfl)
  | error e =>
    cases e with
    | dangling i => exact L.throw (herror _ rfl i)
    | _ => exact L.throw (herror _ rfl rule)

theorem orStop_upholds {α : Type} {o : Except RuleError α} {Q : α → Prop}
    (hok : ∀ a, o = .ok a → Q a) (herror : ∀ e, o = .error e → ∀ i, E (.dangling i)) :
    Upholds I E (orStop o rule) Q := orStop_congr (.upholds I E) hok herror

/-- The rule of a single answer that a match is made of. -/
theorem Answers.single {found : Rule} {a : Answer} {y : RuleId}
    (hfound : r.graph.rule? rule = some found) (ha : r.Answers y pos a) (hm : a.matched = true)
    (hbody : a.step.rule = y → a.step.start = pos →
      found.body.Justifies r.buffer ⟨rule, pos, true, a.length⟩ [a.step]) :
    r.Answers rule pos (.node rule pos a.length [a]) := by
  refine Answers.node hfound (fun c hc => ?_) (hbody ha.rule_eq ha.start_eq)
  obtain rfl := List.mem_singleton.mp hc
  exact ⟨hm, ha.derived hm⟩

/-- Answers of the rules of a sequence, one after the other, make a match of it. -/
theorem Answers.sequence {found : Rule} {rules : List RuleId} {answers : List Answer} {stop : Nat}
    (hfound : r.graph.rule? rule = some found) (hb : found.body = .sequence rules)
    (hrules : rules ≠ []) (hmap : answers.map (·.rule) = rules) (h : r.Row pos answers stop) :
    r.Answers rule pos (.node rule pos (stop - pos) answers) := by
  refine Answers.node hfound h.derived ?_
  rw [hb]
  refine ⟨hrules, ?_, ?_, h.sum_length⟩
  · rw [List.map_map]
    exact hmap
  · rw [Step.stop, h.stop_eq]
    exact h.contiguous

theorem Answers.repetition {found : Rule} {child : RuleId} {answers : List Answer} {stop : Nat}
    (hfound : r.graph.rule? rule = some found) (hb : found.body = .repetition child)
    (h : r.Items child pos answers stop) :
    r.Answers rule pos (.node rule pos (stop - pos) answers) := by
  refine Answers.node hfound h.row.derived ?_
  rw [hb]
  refine ⟨fun c hc => ?_, ?_, h.row.sum_length⟩
  · obtain ⟨a, ha, rfl⟩ := List.mem_map.mp hc
    exact h.nonempty a ha
  · rw [Step.stop, h.row.stop_eq]
    exact h.row.contiguous

/-- The evaluation of a body answers as an application may, if the applications that it makes do. -/
theorem body_congr (L : Congruence E R) (rec' : RuleId → Nat → Recognition Answer)
    (hrec : ∀ y q, r.Calls (rule, pos) (y, q) → R (rec y q) (rec' y q) (r.Answers y q))
    (hdangling : r.graph.rule? rule = none → ∀ i, E (.dangling i))
    (herror : ∀ source, E (.error (.emptyMatch rule source pos)))
    (hreference : ∀ found, r.graph.rule? rule = some found → found.body.isReference = true →
      E (.error (.unresolvedReference rule))) :
    R (body rec r rule pos) (body rec' r rule pos) (r.Answers rule pos) := by
  refine L.bind (orStop_congr L (fun _ h => RuleGraph.rule_eq_ok.mp h)
    fun _ h => hdangling (RuleGraph.rule?_of_rule_error h)) fun found hfound => ?_
  replace hrec : ∀ y q, r.Ahead pos q → found.body.MayApply r pos y q →
      R (rec y q) (rec' y q) (r.Answers y q) :=
    fun y q hq happly => hrec y q ⟨hq, found, hfound, happly⟩
  have hempty : ∀ length, found.body.Justifies r.buffer ⟨rule, pos, true, length⟩ [] →
      r.Answers rule pos (.node rule pos length []) := fun _ h =>
    Answers.node hfound (fun _ hc => absurd hc List.not_mem_nil) h
  cases hb : found.body with
  | literal text =>
    rw [hb] at hempty
    dsimp only
    by_cases hprefix : (r.buffer.suffix? pos).any text.toList.isPrefixOf = true
    · rw [if_pos hprefix]
      refine L.pure (hempty _ ?_)
      obtain ⟨rest, hrest, hstarts⟩ := (Option.any_eq_true ..).mp hprefix
      obtain ⟨more, rfl⟩ := List.isPrefixOf_iff_prefix.mp hstarts
      rw [utf8ByteSize_eq]
      exact ⟨rfl, Buffer.slice?_of_append hrest⟩
    · rw [if_neg hprefix]
      exact L.pure (.fail rule pos)
  | pattern p =>
    rw [hb] at hempty
    dsimp only
    cases hmatch : (r.buffer.suffix? pos).bind p.matchLength with
    | none => exact L.pure (.fail rule pos)
    | some length =>
      cases length with
      | zero => exact L.throw (herror _)
      | succ n => exact L.pure (hempty _ ⟨rfl, Nat.succ_pos n, hmatch⟩)
  | sequence rules =>
    rw [hb] at hrec
    dsimp only
    by_cases hrules : rules.isEmpty = true
    · rw [if_pos hrules, if_pos hrules]
      exact L.pure (.fail rule pos)
    · rw [if_neg hrules, if_neg hrules]
      refine L.bind (matchEach_congr L rules fun before y after q hsplit hq hempty =>
        hrec y q hq ⟨before, after, hsplit, hempty⟩) fun o ho => ?_
      cases o with
      | none => exact L.pure (.fail rule pos)
      | some matched =>
        obtain ⟨hmap, hrow⟩ := ho _ _ rfl
        exact L.pure (Answers.sequence hfound hb (fun h => hrules (by rw [h]; rfl)) hmap hrow)
  | choice rules =>
    rw [hb] at hrec
    refine L.bind (matchFirst_congr L rules fun y hy => hrec y pos (.refl pos) ⟨hy, rfl⟩)
      fun o ho => ?_
    cases o with
    | none => exact L.pure (.fail rule pos)
    | some a =>
      obtain ⟨hm, y, hy, ha⟩ := ho a rfl
      refine L.pure (Answers.single hfound ha hm fun hrule hstart => ?_)
      rw [hb]
      exact ⟨_, rfl, hrule ▸ hy, hstart, rfl⟩
  | optional child =>
    rw [hb] at hrec hempty
    refine L.bind (hrec child pos (.refl pos) ⟨rfl, rfl⟩) fun a ha => ?_
    by_cases hm : a.matched = true
    · rw [if_pos hm]
      refine L.pure (Answers.single hfound ha hm fun hrule hstart => ?_)
      rw [hb]
      exact .inr ⟨_, rfl, hrule, hstart, rfl⟩
    · rw [if_neg hm]
      exact L.pure (hempty 0 (.inl ⟨rfl, rfl⟩))
  | repetition child =>
    rw [hb] at hrec
    refine L.bind (matchMany_congr L child pos (fun q hq => hrec child q hq rfl)
      ⟨.nil _, fun a ha => absurd ha List.not_mem_nil⟩ (Nat.lt_succ_self _)) fun o ho => ?_
    exact L.pure (Answers.repetition hfound hb ho)
  | epsilon =>
    rw [hb] at hempty
    exact L.pure (hempty 0 ⟨rfl, rfl⟩)
  | endOfInput =>
    rw [hb] at hempty
    dsimp only
    by_cases hpos : pos = r.buffer.size
    · rw [if_pos hpos]
      exact L.pure (hempty 0 ⟨rfl, rfl, hpos⟩)
    · rw [if_neg hpos]
      exact L.pure (.fail rule pos)
  | reference target => exact L.throw (hreference found hfound (by rw [hb]; rfl))

/-- What the applications uphold that a body makes, its evaluation upholds. -/
theorem body_upholds
    (hrec : ∀ y q, r.Calls (rule, pos) (y, q) → Upholds I E (rec y q) (r.Answers y q))
    (hdangling : r.graph.rule? rule = none → ∀ i, E (.dangling i))
    (herror : ∀ source, E (.error (.emptyMatch rule source pos)))
    (hreference : ∀ found, r.graph.rule? rule = some found → found.body.isReference = true →
      E (.error (.unresolvedReference rule))) :
    Upholds I E (body rec r rule pos) (r.Answers rule pos) :=
  body_congr (.upholds I E) rec hrec hdangling herror hreference

/-! ### Reports -/

/-- Reports change nothing but the log. -/
theorem tracedBody_ends {P : Session → Prop} {Q : Answer → Session → Prop}
    {E : Stop → Session → Prop} (hP : ∀ s e, P s → P (s.record e))
    (hQ : ∀ a s e, Q a s → Q a (s.record e)) (hE : ∀ stop s e, E stop s → E stop (s.record e))
    (hdisplay : ∀ e, r.graph.display rule = .error e → ∀ i s, P s → E (.dangling i) s)
    (hbody : ∀ s, P s → Ends (body rec r rule pos) s Q E) {s : Session} (hs : P s) :
    Ends (tracedBody rec r rule pos) s Q E := by
  rw [tracedBody]
  by_cases htrace : r.trace = true
  · rw [if_pos htrace, ends_bind]
    cases hd : r.graph.display rule with
    | error e => cases e <;> exact hdisplay _ hd _ s hs
    | ok text =>
      rw [show orStop (.ok text) rule = pure text from rfl, ends_pure, ends_bind,
        ends_record, ends_bind, ends_note, ends_bind, ends_outcomeOf]
      refine (hbody _ (hP _ _ (hP _ _ hs))).mono (fun a s' h => ?_) fun stop s' h => ?_
      · exact hQ a _ _ (hQ a _ _ h)
      · cases stop with
        | error e => exact hE _ _ _ (hE _ _ _ h)
        | _ => exact hE _ _ _ h
  · rw [if_neg htrace]
    exact hbody s hs

theorem tracedBody_upholds (hlog : ∀ s e, I s → I (s.record e))
    {Q : Answer → Prop} (hbody : Upholds I E (body rec r rule pos) Q)
    (hdisplay : ∀ e, r.graph.display rule = .error e → ∀ i, E (.dangling i)) :
    Upholds I E (tracedBody rec r rule pos) Q := fun _ hs =>
  tracedBody_ends hlog (fun _ s e h => ⟨h.1, hlog s e h.2⟩) (fun _ s e h => ⟨h.1, hlog s e h.2⟩)
    (fun e he i _ hs => ⟨hdisplay e he i, hs⟩) hbody hs

theorem tracedBody_reaches {P : Session → Prop} {Q : Answer → Session → Prop}
    (hP : ∀ s e, P s → P (s.record e)) (hQ : ∀ a s e, Q a s → Q a (s.record e))
    (hbody : Reaches P (body rec r rule pos) Q) :
    Reaches P (tracedBody rec r rule pos) Q := fun _ hs =>
  tracedBody_ends hP hQ (fun _ _ _ h => h) (fun _ _ _ _ _ => trivial) hbody hs

end Recognizer

end Packrat
