import Packrat.Proofs.Regex.Enclosing

/-! The parts of a run, enclosed.

Numbers, escapes and bracketed sets are read the same whether the text ends or is enclosed. What a
closing parenthesis completes that the end of the text leaves open goes past it. There is one
exception: after `\b`, a brace with nothing behind it is an error, and with a closing parenthesis
behind it it is left to be read as a count (`Torn`). -/
namespace Packrat.Regex.Reader

/-! ### Numbers -/

theorem hexDigits_local (n value : Nat) : Local (hexDigits n value) := by
  induction n generalizing value with
  | zero => exact .pure value
  | succ n ih =>
    unfold hexDigits
    exact next_local.bind fun c => (Local.lift _).bind fun digit => skipBlanks_local.bind
      fun _ => ih _

theorem hexBraced_local (n : Nat) (value : Option Nat) : Local (hexBraced n value) := by
  induction n generalizing value with
  | zero => exact .failure
  | succ n ih =>
    unfold hexBraced
    refine skipBlanks_local.bind fun _ => next_local.bind fun c => ?_
    split
    · exact skipBlanks_local.bind fun _ => .lift value
    · exact (Local.lift _).bind fun digit => ih _

theorem hexBraced_agree (n : Nat) (value : Option Nat) :
    Agree n (hexBraced n value) (hexBraced (n + 1) value) := by
  induction n generalizing value with
  | zero => exact .zero _ _
  | succ n ih =>
    unfold hexBraced
    refine skipBlanks_local.agree fun _ => .bind_lt next_lt fun c => ?_
    split
    · exact .refl _ _
    · exact (Local.lift _).agree fun digit => ih _

theorem hexChar_local (digits : Nat) : Local (hexChar digits) := by
  unfold hexChar
  refine .get_bind (fun s => ?_) fun _ _ => rfl
  refine skipBlanks_local.bind fun _ => (accept_local (by decide)).bind fun braced => ?_
  split
  · exact .rounds (f := (hexBraced · none)) (hexBraced_agree · none) fun n =>
      (hexBraced_local n none).bind fun value => .lift _
  · exact (hexDigits_local digits 0).bind fun value => (Local.guarded _).bind fun _ => .lift _

theorem decimalDigits_local (n : Nat) (value : Option Nat) : Local (decimalDigits n value) := by
  induction n generalizing value with
  | zero => exact .failure
  | succ n ih =>
    unfold decimalDigits
    refine .peek_bind_same (fun o => ?_) (by simp)
    split
    · split
      · exact next_local.discard.bind fun _ => skipBlanks_local.bind fun _ => ih _
      · exact Local.lift value
    · exact Local.lift value

theorem decimalDigits_agree (n : Nat) (value : Option Nat) :
    Agree n (decimalDigits n value) (decimalDigits (n + 1) value) := by
  induction n generalizing value with
  | zero => exact .zero _ _
  | succ n ih =>
    unfold decimalDigits
    refine .peek fun o => ?_
    split
    · split
      · refine .bind_lt discard_next_lt fun _ => skipBlanks_local.agree fun _ => ih _
      · exact .refl _ _
    · exact .refl _ _

theorem count_local : Local count := by
  unfold count
  refine dropSpace_local.bind fun _ => .rounds (f := (decimalDigits · none))
    (decimalDigits_agree · none) fun n => ?_
  exact (decimalDigits_local n none).bind fun value => dropSpace_local.bind fun _ =>
    skipBlanks_local.bind fun _ => (Local.guarded _).bind fun _ => .pure value

/-! ### Single characters -/

/-- The letters of a boundary's name go up to the closing parenthesis. -/
theorem boundaryName_local (n : Nat) (name : List Char) :
    LocalBut (fun after _ s => s.rest = ')' :: after) (boundaryName n name) := by
  induction n generalizing name with
  | zero => exact .of_local .failure
  | succ n ih =>
    unfold boundaryName
    refine .peek_bind (fun o => ?_) fun after s hrest => .apart (fun a s' h => ?_) fun _ => rfl
    · split
      · split
        · exact .bind next_local.discard (fun _ => .bind skipBlanks_local (fun _ => ih _) nofun)
            nofun
        · exact .of_local (.pure _)
      · exact .of_local .failure
    · cases h
      exact .inr (by rw [State.enclosed, hrest, List.nil_append])

theorem boundaryName_agree (n : Nat) (name : List Char) :
    Agree n (boundaryName n name) (boundaryName (n + 1) name) := by
  induction n generalizing name with
  | zero => exact .zero _ _
  | succ n ih =>
    unfold boundaryName
    refine .peek fun o => ?_
    split
    · split
      · exact .bind_lt discard_next_lt fun _ => skipBlanks_local.agree fun _ => ih _
      · exact .refl _ _
    · exact .refl _ _

theorem namedBoundary_local : Local namedBoundary := by
  unfold namedBoundary
  refine .rounds (f := (boundaryName · [])) (boundaryName_agree · []) fun n => ?_
  refine (boundaryName_local n []).bind (fun name => next_local.bind fun c => ?_)
    fun after name s hrest a s' h => ?_
  · dsimp only
    split
    · exact Local.failure.bind fun _ => .lift _
    · exact Local.lift _
  · obtain ⟨c, s₁, hnext, h⟩ := run_bind_eq_some.mp h
    rw [run_next_cons hrest] at hnext
    cases hnext
    cases h

/-- The text goes on with a brace that nothing stands in before the closing parenthesis. -/
def Torn (after : List Char) (s : State) : Prop :=
  ∃ blanks, blanked s.flags blanks = [] ∧ s.rest = '{' :: (blanks ++ ')' :: after)

theorem run_wordBoundary_plain {s : State} (h : s.rest.head? ≠ some '{') :
    wordBoundary.run s = some (.boundary, s) := by
  unfold wordBoundary
  change (ite _ _ _ : Read WordCondition).run s = _
  rw [if_pos h]
  rfl

theorem run_wordBoundary_brace {s : State} {rest : List Char} (h : s.rest = '{' :: rest) :
    wordBoundary.run s = (blanked s.flags rest).head?.bind fun c =>
      if isBoundaryName c then namedBoundary.run { s with rest := blanked s.flags rest }
      else some (.boundary, s) := by
  unfold wordBoundary
  change (ite _ _ _ : Read WordCondition).run s = _
  rw [if_neg (by simp [h]), StateT.run_bind, StateT.run_get]
  simp only [Option.pure_def, Option.bind_eq_bind, Option.bind_some, StateT.run_bind,
    run_discard_next h, run_skipBlanks]
  cases hhead : blanked s.flags rest with
  | nil => rfl
  | cons c more =>
    change (ite _ _ _ : Read WordCondition).run _ = ite _ _ _
    split <;> rfl

theorem wordBoundary_suffix {s s' : State} {a : WordCondition}
    (h : wordBoundary.run s = some (a, s')) : s'.rest <:+ s.rest := by
  by_cases hbrace : s.rest.head? = some '{'
  · obtain ⟨rest, hrest⟩ := List.head?_eq_some_iff.mp hbrace
    rw [run_wordBoundary_brace hrest] at h
    obtain ⟨c, -, h⟩ := Option.bind_eq_some_iff.mp h
    split at h
    · have hnamed : s'.rest <:+ blanked s.flags rest := namedBoundary_local.suffix h
      exact hrest ▸ (hnamed.trans (blanked_suffix s.flags rest)).trans (List.suffix_cons _ _)
    · cases h
      exact List.suffix_rfl
  · rw [run_wordBoundary_plain hbrace] at h
    cases h
    exact List.suffix_rfl

theorem wordBoundary_parallel {s : State} {rest : List Char} (h : s.rest = '{' :: rest)
    (after : List Char) :
    Parallel (fun _ => Torn after) after (wordBoundary.run s)
      (wordBoundary.run (s.enclosed after)) := by
  have hmore : (s.enclosed after).rest = '{' :: (rest ++ ')' :: after) := by
    rw [State.enclosed, h, List.cons_append]
  rw [run_wordBoundary_brace h, run_wordBoundary_brace hmore]
  change Parallel _ after _ ((blanked s.flags (rest ++ ')' :: after)).head?.bind
    fun c => if isBoundaryName c then
    namedBoundary.run { s with rest := blanked s.flags (rest ++ ')' :: after) }
    else some (_, s.enclosed after))
  rcases blanked_append s.flags rest after with hsame | ⟨hempty, hle⟩
  · rw [hsame]
    cases hblanked : blanked s.flags rest with
    | nil =>
      -- The end of the text is an error here, and a closing parenthesis is no name.
      refine .apart (fun a s' h => ?_) fun _ => rfl
      cases h
      exact .inr ⟨rest, hblanked, hmore⟩
    | cons c more =>
      dsimp only [List.cons_append, List.head?_cons, Option.bind_some]
      split
      · have hnamed : LocalBut (fun after _ s => Torn after s) namedBoundary :=
          .of_local namedBoundary_local
        exact hnamed.parallel after { s with rest := c :: more }
      · exact .same _ s
  · rw [hempty]
    refine .apart (fun a s' h => ?_) fun _ => rfl
    obtain ⟨c, -, h⟩ := Option.bind_eq_some_iff.mp h
    split at h
    · exact .inl ((namedBoundary_local.length_le h).trans hle)
    · cases h
      exact .inr ⟨rest, hempty, hmore⟩

theorem wordBoundary_local : LocalBut (fun after _ s => Torn after s) wordBoundary where
  suffix := wordBoundary_suffix
  parallel after s := by
    by_cases hbrace : s.rest.head? = some '{'
    · obtain ⟨rest, hrest⟩ := List.head?_eq_some_iff.mp hbrace
      exact wordBoundary_parallel hrest after
    · rw [run_wordBoundary_plain hbrace, run_wordBoundary_plain ?_]
      · exact .same _ s
      · cases hrest : s.rest <;> simp_all [State.enclosed]

/-! ### Classes -/

theorem bracedName_local (n : Nat) (name : List Char) : Local (bracedName n name) := by
  induction n generalizing name with
  | zero => exact .failure
  | succ n ih =>
    unfold bracedName
    refine skipBlanks_local.bind fun _ => next_local.bind fun c => ?_
    split
    · exact Local.pure _
    · exact ih _

theorem bracedName_agree (n : Nat) (name : List Char) :
    Agree n (bracedName n name) (bracedName (n + 1) name) := by
  induction n generalizing name with
  | zero => exact .zero _ _
  | succ n ih =>
    unfold bracedName
    refine skipBlanks_local.agree fun _ => .bind_lt next_lt fun c => ?_
    split
    · exact .refl _ _
    · exact ih _

theorem className_local : Local className := by
  unfold className
  refine skipBlanks_local.bind fun _ => (accept_local (by decide)).bind fun braced => ?_
  split
  · exact .rounds (f := (bracedName · [])) (bracedName_agree · []) fun n =>
      (bracedName_local n []).bind fun name => .pure _
  · refine next_local.bind fun c => ?_
    dsimp only
    split
    · exact Local.failure.bind fun _ => .pure _
    · exact Local.pure _

section Classes
variable (classes : ClassTable)

theorem namedClass_local (negated : Bool) : Local (namedClass classes negated) := by
  unfold namedClass
  exact .get_bind (fun s => className_local.bind fun name => (Local.lift _).bind fun set =>
    (Local.guarded _).bind fun _ => .lift _) fun _ _ => rfl

/-- Only a word boundary may be followed by a torn brace. -/
theorem escape_local :
    LocalBut (fun after a s => (∃ b, a = .assertion b) ∧ Torn after s) (escape classes) := by
  unfold escape
  refine .get_bind (fun s => .bind next_local (fun c => ?_) nofun) fun _ _ => rfl
  by_cases hself : isEscapable c = true
  · rw [if_pos hself]
    exact .of_local (.pure _)
  rw [if_neg hself]
  by_cases hword : c = 'b'
  · subst hword
    refine wordBoundary_local.bind (fun condition => .of_local (.pure _))
      fun after b s htorn a s' h => .inr ?_
    cases h
    exact ⟨⟨_, rfl⟩, htorn⟩
  · refine .of_local ?_
    split
    all_goals first
      | exact Local.pure _
      | exact (hexChar_local _).map _
      | exact (namedClass_local classes _).map _
      | exact (Local.lift _).map _
      | exact Local.failure
      | exact absurd rfl hword

theorem atom_local : LocalBut (fun after _ s => Torn after s) (atom classes) := by
  unfold atom
  refine .get_bind (fun s => .bind next_local (fun c => ?_) nofun) fun _ _ => rfl
  split
  · refine .bind (escape_local classes) (fun a => .of_local (.pure _)) ?_
    rintro after _ s ⟨⟨b, rfl⟩, htorn⟩ e s' h
    cases h
    exact .inr htorn
  · exact .of_local (((Local.lift _).map _).bind fun a => .pure _)
  all_goals exact .of_local ((Local.pure _).bind fun a => .pure _)

theorem setAtom_local : LocalBut (fun _ a _ => ∃ b, a = .assertion b) (setAtom classes) := by
  unfold setAtom
  refine .bind next_local (fun c => ?_) nofun
  split
  · exact .mono (escape_local classes) fun _ _ _ h => h.1
  · exact .of_local (.pure _)

/-! ### Bracketed sets -/

theorem afterDash_append (f : Flags) (text after : List Char) :
    afterDash f (text ++ ')' :: after) = (afterDash f text).or (some ')') := by
  unfold afterDash
  split
  · rw [dropWhile_blank_append]
    cases text.dropWhile CharSet.blank.contains with
    | nil => rfl
    | cons c rest =>
      by_cases hc : c = '#'
      · simp only [hc, List.cons_append, List.head?_cons, if_true, List.drop_succ_cons,
          List.drop_zero]
        rw [dropWhile_blank_append, List.head?_append]
        rfl
      · simp only [List.cons_append, List.head?_cons, Option.some.injEq, hc, if_false]
        rw [← List.cons_append, dropWhile_blank_append, List.head?_append]
        rfl
  · rw [List.head?_append]
    rfl

theorem isRange_append (f : Flags) (text after : List Char) :
    isRange f (text ++ ')' :: after) = isRange f text := by
  have hother : ∀ (c : Option Char) (d : Char), d ≠ ')' →
      (c.or (some ')') != some d) = (c != some d) := by
    intro c d hd
    cases c with
    | none => simpa [bne] using hd.symm
    | some c => rfl
  cases text with
  | nil => rfl
  | cons c rest =>
    by_cases hc : c = '-'
    · subst hc
      change (afterDash f (rest ++ ')' :: after) != _ && afterDash f (rest ++ ')' :: after) != _) =
        _
      rw [afterDash_append, hother _ _ (by decide), hother _ _ (by decide)]
      rfl
    · simp [isRange, hc]

theorem itemFrom_local (first : Atom) : Local (itemFrom classes first) := by
  unfold itemFrom
  refine .get_bind (fun s => ?_) fun s after => ?_
  · split
    · refine next_local.discard.bind fun _ => skipBlanks_local.bind fun _ => ?_
      split
      · refine LocalBut.bind (setAtom_local classes) (fun last => ?_) ?_
        · split
          · exact Local.lift _
          · exact Local.failure
        · rintro after _ s ⟨b, rfl⟩ item s' h
          cases h
      · exact Local.failure
    · split
      · exact Local.lift _
      · exact Local.pure _
      · exact Local.failure
  · dsimp only [State.enclosed]
    rw [isRange_append]

theorem run_itemFrom_assertion (a : Assertion) (s : State) :
    (itemFrom classes (.assertion a)).run s = none := by
  unfold itemFrom
  change (ite _ _ _ : Read SetPiece).run s = none
  split
  · refine Option.eq_none_iff_forall_ne_some.mpr fun p h => ?_
    obtain ⟨_, s₁, -, h⟩ := run_bind_eq_some.mp h
    obtain ⟨_, s₂, -, h⟩ := run_bind_eq_some.mp h
    cases h
  · rfl

theorem setItem_local : Local (setItem classes) := by
  unfold setItem
  refine LocalBut.bind (setAtom_local classes)
    (fun first => skipBlanks_local.bind fun _ => itemFrom_local classes first) ?_
  rintro after _ s ⟨b, rfl⟩ item s' h
  obtain ⟨_, s₁, -, h⟩ := run_bind_eq_some.mp h
  cases (run_itemFrom_assertion classes b s₁).symm.trans h

/-- A name ends inside of the text, or the closing parenthesis is a part of it. -/
theorem span_append {p : Char → Bool} (hp : p ')' = true) (text after : List Char) :
    (∃ name stop rest, text.span p = (name, stop :: rest) ∧
      (text ++ ')' :: after).span p = (name, stop :: (rest ++ ')' :: after))) ∨
    (text.span p).2 = [] ∧ ')' ∈ ((text ++ ')' :: after).span p).1 := by
  simp only [List.span_eq_takeWhile_dropWhile]
  induction text with
  | nil => simp [hp]
  | cons c rest ih =>
    by_cases hc : p c = true
    · rcases ih with ⟨name, stop, more, htext, hmore⟩ | ⟨hall, hmem⟩
      · refine .inl ⟨c :: name, stop, more, ?_, ?_⟩ <;> simp_all
      · refine .inr ⟨?_, ?_⟩ <;> simp_all
    · exact .inl ⟨[], c, rest, by simp [hc], by simp [hc]⟩

theorem namedSet?_paren {name : List Char} (h : ')' ∈ name) :
    namedSet? (String.ofList name) = none := by
  have hne : ∀ known : String, ')' ∉ known.toList → String.ofList name ≠ known := by
    rintro known hknown rfl
    rw [String.toList_ofList] at hknown
    exact hknown h
  unfold namedSet?
  split <;> first
    | rfl
    | exact absurd ‹String.ofList name = _› (hne _ (by decide))

/-- What stands between the colons of a named set, or behind the first one and a caret. -/
theorem named?_append (text after : List Char) : named? (text ++ ')' :: after) =
    (named? text).map fun (set, negated, rest) => (set, negated, rest ++ ')' :: after) := by
  have hother : ∀ {c d : Char} (text : List Char), ¬ (c = '[' ∧ d = ':') →
      named? (c :: d :: text) = none := by
    intro c d text hcd
    unfold named?
    split
    · simp_all
    · rfl
  match text with
  | [] => rfl
  | [c] =>
    rw [List.cons_append, List.nil_append, hother after (by simp)]
    simp [named?]
  | c :: d :: text =>
    by_cases hcd : c = '[' ∧ d = ':'
    · obtain ⟨rfl, rfl⟩ := hcd
      have hcaret : (text ++ ')' :: after).head? = some '^' ↔ text.head? = some '^' := by
        cases text <;> simp
      have hname : (if text.head? = some '^' then (text ++ ')' :: after).drop 1
            else text ++ ')' :: after) =
          (if text.head? = some '^' then text.drop 1 else text) ++ ')' :: after := by
        cases text <;> simp
        split <;> rfl
      simp only [List.cons_append, named?, hcaret, hname, Option.bind_eq_bind, Option.pure_def]
      rcases span_append (p := fun x => decide (x ≠ ':')) (by decide)
        (if text.head? = some '^' then text.drop 1 else text) after with
        ⟨name, stop, rest, htext, hmore⟩ | ⟨hall, hmem⟩
      · rw [htext, hmore]
        cases rest with
        | nil => simp
        | cons e rest =>
          by_cases hend : stop = ':' ∧ e = ']'
          · obtain ⟨rfl, rfl⟩ := hend
            cases hset : namedSet? (String.ofList name) <;> simp [hset]
          · simp only [List.cons_append]
            split <;> split <;> simp_all
      · generalize List.span _ _ = read at hall
        generalize List.span _ _ = readMore at hmem
        obtain ⟨name, rest⟩ := read
        obtain ⟨nameMore, restMore⟩ := readMore
        cases hall
        dsimp only
        split
        next heq =>
          cases heq
          rw [namedSet?_paren hmem]
          rfl
        next => rfl
    · rw [List.cons_append, List.cons_append, hother _ hcd, hother _ hcd]
      rfl

theorem nextInSet?_append (f : Flags) (text after : List Char) :
    nextInSet? f (text ++ ')' :: after) =
    (nextInSet? f text).map fun (token, rest) => (token, rest ++ ')' :: after) := by
  fun_cases nextInSet? f text with
  | case1 rest named negated more h =>
    rw [List.cons_append, nextInSet?, ← List.cons_append, named?_append, h]
    cases hset : adjusted? f negated named <;> simp [hset]
  | case2 rest h =>
    rw [List.cons_append, nextInSet?, ← List.cons_append, named?_append, h]
    rfl
  | case3 | case4 | case5 | case6 => rfl
  | case7 =>
    rcases text with _ | ⟨c, _ | ⟨d, rest⟩⟩
    · rfl
    all_goals
      unfold nextInSet?
      split <;> simp_all

theorem named?_suffix {text rest : List Char} {set : CharSet} {negated : Bool}
    (h : named? text = some (set, negated, rest)) : rest <:+ text.tail := by
  unfold named? at h
  split at h
  next text =>
    dsimp only at h
    split at h
    next name rest' hspan =>
      obtain ⟨set, -, h⟩ := Option.bind_eq_some_iff.mp h
      cases h
      rw [List.span_eq_takeWhile_dropWhile] at hspan
      have hmore : ':' :: ']' :: rest <:+ if text.head? = some '^' then text.drop 1 else text :=
        (Prod.mk.inj hspan).2 ▸ List.dropWhile_suffix _
      refine ((List.suffix_cons ']' rest).trans (List.suffix_cons ':' _)).trans (hmore.trans ?_)
      split
      · exact (List.drop_suffix 1 text).trans (List.suffix_cons ':' text)
      · exact List.suffix_cons ':' text
    next => cases h
  next => cases h

/-- What is not left to be read as an item is taken off the text. -/
theorem nextInSet?_suffix {f : Flags} {text rest : List Char} {token : SetToken}
    (h : nextInSet? f text = some (token, rest)) :
    token = .item ∧ rest = text ∨ rest <:+ text.tail ∧ text ≠ [] := by
  revert h
  fun_cases nextInSet? f text with
  | case1 more named negated past hnamed =>
    intro h
    rw [hnamed] at h
    obtain ⟨set, -, h⟩ := Option.map_eq_some_iff.mp h
    cases h
    exact .inr ⟨named?_suffix hnamed, nofun⟩
  | case2 more hnamed =>
    intro h
    rw [hnamed] at h
    cases h
    exact .inr ⟨List.suffix_rfl, nofun⟩
  | case3 =>
    intro h
    cases h
    exact .inr ⟨List.suffix_rfl, nofun⟩
  | case4 | case5 | case6 =>
    intro h
    cases h
    exact .inr ⟨List.suffix_cons _ _, nofun⟩
  | case7 =>
    intro h
    cases h
    exact .inl ⟨rfl, rfl⟩

theorem setToken_local : Local setToken := by
  refine takeFront_local (fun h => ?_) fun f text after => .inl (nextInSet?_append f text after)
  rcases nextInSet?_suffix h with ⟨-, rfl⟩ | ⟨hsuffix, -⟩
  · exact List.suffix_rfl
  · exact hsuffix.trans (List.tail_suffix _)

theorem leadingDashes_local (n : Nat) (items : List SetPiece) : Local (leadingDashes n items) := by
  induction n generalizing items with
  | zero => exact .failure
  | succ n ih =>
    unfold leadingDashes
    refine (accept_local (by decide)).bind fun dash => ?_
    split
    · exact skipBlanks_local.bind fun _ => ih _
    · exact Local.pure items

theorem accept_lt {c : Char} {s s' : State} (h : (accept c).run s = some (true, s')) :
    s'.rest.length < s.rest.length := by
  obtain ⟨o, s₁, hpeek, h⟩ := run_bind_eq_some.mp h
  cases hpeek
  split at h
  · obtain ⟨u, s₂, hnext, h⟩ := run_bind_eq_some.mp h
    cases h
    exact discard_next_lt hnext
  · cases h

theorem leadingDashes_agree (n : Nat) (items : List SetPiece) :
    Agree n (leadingDashes n items) (leadingDashes (n + 1) items) := by
  induction n generalizing items with
  | zero => exact .zero _ _
  | succ n ih =>
    unfold leadingDashes
    refine .of_run fun s dash s' hs h => ?_
    cases dash with
    | false => rfl
    | true =>
      refine skipBlanks_local.agree (fun _ => ih _) s' ?_
      exact Nat.lt_of_lt_of_le (accept_lt h) (Nat.le_of_lt_succ hs)

theorem setStart_local : Local setStart := by
  unfold setStart
  refine skipBlanks_local.bind fun _ => (accept_local (by decide)).bind fun negated =>
    skipBlanks_local.bind fun _ =>
      .rounds (f := (leadingDashes · [])) (leadingDashes_agree · []) fun n =>
        (leadingDashes_local n []).bind fun items => ?_
  dsimp only
  split
  · refine (accept_local (by decide)).bind fun bracket => ?_
    split
    · exact skipBlanks_local.bind fun _ => .pure _
    · exact Local.pure _
  · exact Local.pure _

theorem setRest_local (n : Nat) (left : Option (SetOp × SetPiece)) (items : List SetPiece) :
    Local (setRest classes n left items) := by
  induction n generalizing left items with
  | zero => exact .failure
  | succ n ih =>
    unfold setRest
    refine skipBlanks_local.bind fun _ => .get_bind (fun s => setToken_local.bind fun token => ?_)
      fun _ _ => rfl
    cases token with
    | named set => exact ih _ _
    | opening =>
      exact setStart_local.bind fun start => (ih _ _).bind fun inner => (Local.lift _).bind
        fun set => ih _ _
    | operation op => exact ih _ _
    | closing => exact Local.pure _
    | item => exact (setItem_local classes).bind fun item => ih _ _

theorem setToken_lt {s s' : State} {token : SetToken} (h : setToken.run s = some (token, s')) :
    token = .item ∨ s'.rest.length < s.rest.length := by
  rw [setToken, run_takeFront] at h
  obtain ⟨⟨token, rest⟩, hnext, h⟩ := Option.map_eq_some_iff.mp h
  cases h
  refine (nextInSet?_suffix hnext).imp And.left fun ⟨hsuffix, hne⟩ => ?_
  have hpos : 0 < s.rest.length := List.length_pos_of_ne_nil hne
  have hle := hsuffix.length_le
  rw [List.length_tail] at hle
  exact lt_of_le_of_lt hle (by omega)

theorem setAtom_lt {s s' : State} {a : Atom} (h : (setAtom classes).run s = some (a, s')) :
    s'.rest.length < s.rest.length := by
  obtain ⟨c, s₁, hnext, h⟩ := run_bind_eq_some.mp h
  refine lt_of_le_of_lt ?_ (next_lt hnext)
  split at h
  · exact (escape_local classes).length_le h
  · cases h
    exact le_rfl

theorem setItem_lt {s s' : State} {item : SetPiece}
    (h : (setItem classes).run s = some (item, s')) : s'.rest.length < s.rest.length := by
  obtain ⟨first, s₁, hatom, h⟩ := run_bind_eq_some.mp h
  have hle : s'.rest.length ≤ s₁.rest.length :=
    (skipBlanks_local.bind fun _ => itemFrom_local classes first).length_le h
  exact lt_of_le_of_lt hle (setAtom_lt classes hatom)

theorem setRest_agree (n : Nat) (left : Option (SetOp × SetPiece)) (items : List SetPiece) :
    Agree n (setRest classes n left items) (setRest classes (n + 1) left items) := by
  induction n generalizing left items with
  | zero => exact .zero _ _
  | succ n ih =>
    unfold setRest
    refine skipBlanks_local.agree fun _ => .get fun s => .of_run fun s₁ token s₂ hs h => ?_
    have hround : ∀ {x y : Read SetPiece}, token ≠ .item → Agree n x y →
        x.run s₂ = y.run s₂ := fun hne hagree =>
      hagree s₂ (Nat.lt_of_lt_of_le ((setToken_lt h).resolve_left hne) (Nat.le_of_lt_succ hs))
    cases token with
    | named set => exact hround nofun (ih _ _)
    | opening =>
      exact hround nofun (setStart_local.agree fun start =>
        .bind (ih _ _) (setRest_local classes n none start.2).length_le fun inner =>
          (Local.lift _).agree fun set => ih _ _)
    | operation op => exact hround nofun (ih _ _)
    | closing => rfl
    | item =>
      exact Agree.bind_lt (setItem_lt classes) (fun item => ih _ _) s₂
        ((setToken_local.length_le h).trans_lt hs)

theorem bracketed_local : Local (bracketed classes) := by
  unfold bracketed
  refine .get_bind (fun s => setStart_local.bind fun start => ?_) fun _ _ => rfl
  exact .rounds (f := (setRest classes · none start.2)) (setRest_agree classes · none start.2)
    fun n => (setRest_local classes n none start.2).bind fun inner =>
      (Local.lift _).bind fun set => .pure _

end Classes

end Packrat.Regex.Reader
