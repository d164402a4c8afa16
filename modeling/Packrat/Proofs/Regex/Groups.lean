import Packrat.Proofs.Regex.Contents

/-! Groups, enclosed.

The contents of a group are read up to its closing parenthesis as they are read up to the end of the
text (`group_local`). A torn brace does no harm to that: as a count it is an error too
(`group_torn`). -/
namespace Packrat.Regex.Reader

/-! ### How a group begins -/

theorem flagList_suffix {f f' : Flags} {seen seen' : List Char} {on : Bool} {text rest : List Char}
    {stop : Char} (h : flagList f seen on text = some (f', seen', stop, rest)) : rest <:+ text := by
  induction text generalizing f seen on with
  | nil => cases h
  | cons c more ih =>
    unfold flagList at h
    split at h
    · split at h
      · cases h
      · cases h
        exact List.suffix_cons _ _
    split at h
    · cases h
    split at h
    · exact (ih h).trans (List.suffix_cons c more)
    · obtain ⟨g, -, h⟩ := Option.bind_eq_some_iff.mp h
      exact (ih h).trans (List.suffix_cons c more)

/-- Flags end inside of the text, or else at the closing parenthesis if anywhere. -/
theorem flagList_append (f : Flags) (seen : List Char) (on : Bool) (text after : List Char) :
    (∃ g seen' stop rest, flagList f seen on text = some (g, seen', stop, rest) ∧
      flagList f seen on (text ++ ')' :: after) = some (g, seen', stop, rest ++ ')' :: after)) ∨
    flagList f seen on text = none ∧
      ∀ g seen' stop rest, flagList f seen on (text ++ ')' :: after) = some (g, seen', stop, rest) →
        rest.length ≤ after.length := by
  induction text generalizing f seen on with
  | nil =>
    refine .inr ⟨rfl, fun g seen' stop rest h => ?_⟩
    rw [List.nil_append, flagList, if_pos (.inr rfl)] at h
    split at h
    · cases h
    · cases h
      exact le_rfl
  | cons c more ih =>
    rw [List.cons_append, flagList, flagList]
    split
    · split
      · exact .inr ⟨rfl, fun _ _ _ _ h => by cases h⟩
      · exact .inl ⟨f, seen, c, more, rfl, rfl⟩
    split
    · exact .inr ⟨rfl, fun _ _ _ _ h => by cases h⟩
    split
    · exact ih _ _ _
    · cases f.set c on with
      | none => exact .inr ⟨rfl, fun _ _ _ _ h => by cases h⟩
      | some g => exact ih _ _ _

theorem groupName?_suffix {text name rest : List Char} (h : groupName? text = some (name, rest)) :
    rest <:+ text := by
  unfold groupName? at h
  split at h
  next first more stop rest hspan =>
    obtain ⟨_, -, h⟩ := Option.bind_eq_some_iff.mp h
    cases h
    rw [List.span_eq_takeWhile_dropWhile] at hspan
    have hrest : stop :: rest <:+ text := (Prod.mk.inj hspan).2 ▸ List.dropWhile_suffix _
    exact (List.suffix_cons stop rest).trans hrest
  next => cases h

theorem not_isName_paren {first : Char} {more : List Char} (h : ')' ∈ first :: more) :
    (isNameStart first && more.all isNameRest) = false := by
  have halphabetic : CharSet.alphabetic.contains ')' = false := by decide +kernel
  have hnumeric : CharSet.numeric.contains ')' = false := by decide +kernel
  have hstart : isNameStart ')' = false := by simp [isNameStart, halphabetic]
  have hrest : isNameRest ')' = false := by simp [isNameRest, halphabetic, hnumeric]
  rcases List.mem_cons.mp h with rfl | hmem
  · rw [hstart, Bool.false_and]
  · rw [Bool.and_eq_false_iff]
    exact .inr (List.all_eq_false.mpr ⟨')', hmem, by simp [hrest]⟩)

/-- A closing parenthesis is no part of a name. -/
theorem groupName?_append (text after : List Char) : groupName? (text ++ ')' :: after) =
    (groupName? text).map fun (name, rest) => (name, rest ++ ')' :: after) := by
  unfold groupName?
  rcases span_append (p := fun x => decide (x ≠ '>')) (by decide) text after with
    ⟨name, stop, rest, htext, hmore⟩ | ⟨hall, hmem⟩
  · rw [htext, hmore]
    cases name with
    | nil => rfl
    | cons first more =>
      dsimp only
      cases isNameStart first && more.all isNameRest <;> rfl
  · generalize List.span _ text = read at hall
    generalize List.span _ _ = readMore at hmem
    obtain ⟨name, rest⟩ := read
    obtain ⟨nameMore, restMore⟩ := readMore
    cases hall
    dsimp only
    split
    next heq =>
      cases heq
      rw [not_isName_paren hmem]
      cases name <;> rfl
    next => cases name <;> rfl

theorem nameHead?_suffix {text rest : List Char} {head : GroupHead}
    (h : nameHead? text = some (head, rest)) : rest <:+ text := by
  obtain ⟨⟨name, past⟩, hname, h⟩ := Option.map_eq_some_iff.mp h
  cases h
  exact groupName?_suffix hname

theorem nameHead?_append (text after : List Char) : nameHead? (text ++ ')' :: after) =
    (nameHead? text).map fun (head, rest) => (head, rest ++ ')' :: after) := by
  rw [nameHead?, groupName?_append, nameHead?]
  cases groupName? text <;> rfl

theorem flagHead?_suffix {f : Flags} {text rest : List Char} {head : GroupHead}
    (h : flagHead? f text = some (head, rest)) : rest <:+ text := by
  obtain ⟨⟨flags, seen, stop, past⟩, hflags, h⟩ := Option.bind_eq_some_iff.mp h
  dsimp only at h
  split at h
  · cases h
    exact flagList_suffix hflags
  · obtain ⟨_, -, h⟩ := Option.bind_eq_some_iff.mp h
    cases h
    exact flagList_suffix hflags

theorem flagHead?_append (f : Flags) (text after : List Char) :
    flagHead? f (text ++ ')' :: after) = (flagHead? f text).map
      (fun (head, rest) => (head, rest ++ ')' :: after)) ∨ flagHead? f text = none ∧
        ∀ head rest, flagHead? f (text ++ ')' :: after) = some (head, rest) →
        rest.length ≤ after.length := by
  unfold flagHead?
  rcases flagList_append f [] true text after with
    ⟨flags, seen, stop, rest, htext, hmore⟩ | ⟨hnone, hpast⟩
  · rw [htext, hmore]
    refine .inl ?_
    dsimp only [Option.bind_eq_bind, Option.bind_some]
    split
    · rfl
    · cases !seen.isEmpty <;> rfl
  · rw [hnone]
    refine .inr ⟨rfl, fun head rest h => ?_⟩
    obtain ⟨⟨flags, seen, stop, past⟩, hflags, h⟩ := Option.bind_eq_some_iff.mp h
    have hle := hpast flags seen stop past hflags
    dsimp only at h
    split at h
    · cases h
      exact hle
    · obtain ⟨_, -, h⟩ := Option.bind_eq_some_iff.mp h
      cases h
      exact hle

theorem groupHead?_suffix {f : Flags} {text rest : List Char} {head : GroupHead}
    (h : groupHead? f text = some (head, rest)) : rest <:+ text := by
  unfold groupHead? at h
  split at h
  · exact (nameHead?_suffix h).trans ⟨['?', 'P', '<'], rfl⟩
  · exact (nameHead?_suffix h).trans ⟨['?', '<'], rfl⟩
  · exact (flagHead?_suffix h).trans (List.suffix_cons _ _)
  · cases h
    exact List.suffix_rfl

theorem groupHead?_append (f : Flags) (text after : List Char) :
    groupHead? f (text ++ ')' :: after) = (groupHead? f text).map
      (fun (head, rest) => (head, rest ++ ')' :: after)) ∨ groupHead? f text = none ∧
        ∀ head rest, groupHead? f (text ++ ')' :: after) = some (head, rest) →
        rest.length ≤ after.length := by
  fun_cases groupHead? f text with
  | case1 | case2 => exact .inl (nameHead?_append _ after)
  | case3 text hlong hshort =>
    have hflags : groupHead? f ('?' :: text ++ ')' :: after) = flagHead? f
        (text ++ ')' :: after) := by
      unfold groupHead?
      split <;> rcases text with _ | ⟨c, _ | ⟨d, text⟩⟩ <;> simp_all
    rw [hflags]
    exact flagHead?_append f text after
  | case4 =>
    refine .inl ?_
    unfold groupHead?
    split <;> rcases text with _ | ⟨c, text⟩ <;> simp_all

theorem run_newGroup (name : Option (List Char)) (s : State) : (newGroup name).run s =
    if name.all (· ∉ s.names) then
      some (.group (some s.groups) s.flags,
      { s with groups := s.groups + 1, names := name.toList ++ s.names })
    else none := by
  unfold newGroup
  rw [StateT.run_bind, StateT.run_get]
  dsimp only [Option.pure_def, Option.bind_eq_bind, Option.bind_some]
  cases name.all (· ∉ s.names) <;> rfl

theorem newGroup_local (name : Option (List Char)) : Local (newGroup name) where
  suffix {s _ _} h := by
    rw [run_newGroup] at h
    split at h
    · cases h
      exact List.suffix_rfl
    · cases h
  parallel after s := by
    rw [run_newGroup, run_newGroup]
    change Parallel _ after _ (if name.all (· ∉ s.names) then _ else none)
    split
    · exact .same _ { s with groups := s.groups + 1, names := name.toList ++ s.names }
    · exact .none

theorem groupStart_local : Local groupStart := by
  unfold groupStart
  refine skipBlanks_local.bind fun _ => (takeFront_local groupHead?_suffix groupHead?_append).bind
    fun head => ?_
  cases head with
  | capture name => exact newGroup_local name
  | plain flags => exact Local.pure _
  | directive flags => exact Local.pure _

/-! ### Repetitions -/

theorem boundsFrom_local (lo : Nat) : Local (boundsFrom lo) := by
  unfold boundsFrom
  have hclose : ∀ hi : Option Nat, Local (do
      if (← next) ≠ '}' then failure
      guard (hi.all (lo ≤ ·))
      return (lo, hi)) := by
    intro hi
    refine next_local.bind fun c => ?_
    dsimp only
    split
    · exact Local.failure.bind fun _ => (Local.guarded _).bind fun _ => .pure _
    · exact (Local.guarded _).bind fun _ => .pure _
  refine (accept_local (by decide)).bind fun comma => ?_
  dsimp only
  split
  · refine skipBlanks_local.bind fun _ => .peek_bind_same (fun c => ?_) rfl
    split
    · exact (Local.pure _).bind hclose
    · exact (count_local.map _).bind hclose
  · exact (Local.pure _).bind hclose

theorem bounds_local : Local bounds := by
  unfold bounds
  exact skipBlanks_local.bind fun _ => count_local.bind boundsFrom_local

theorem timesOf_local (op : Char) : Local (timesOf op) := by
  unfold timesOf
  split
  · exact .pure _
  · exact .pure _
  · exact .pure _
  · exact bounds_local.bind fun b => skipBlanks_local.bind fun _ => .pure b

/-- What follows the number of repetitions. -/
theorem greed_local (lo : Nat) (hi : Option Nat) (p : Piece) : Local (do
    let short ← accept '?'
    return ⟨.repeated lo hi (short == (← get).flags.swapGreed) p.expr, p.depth + 1, true⟩ :
      Read Piece) :=
  (accept_local (by decide)).bind fun short => .get_bind (fun s => Local.pure _) fun _ _ => rfl

theorem repetition_local (op : Char) (p : Piece) : Local (repetition op p) := by
  unfold repetition
  exact (Local.guarded _).bind fun _ => (timesOf_local op).bind fun times =>
    greed_local times.1 times.2 p

/-- A closing parenthesis is no number of repetitions. -/
theorem count_paren {after : List Char} {s : State} (h : s.rest = ')' :: after) :
    count.run s = none := by
  obtain ⟨_, flags, groups, names⟩ := s
  cases h
  rfl

theorem bounds_torn {blanks after : List Char} {s s' : State} {b : Nat × Option Nat}
    (hblanks : blanked s.flags blanks = []) (hrest : s.rest = blanks ++ ')' :: after)
    (h : bounds.run s = some (b, s')) : s'.rest.length ≤ after.length := by
  obtain ⟨_, s₁, hskip, h⟩ := run_bind_eq_some.mp h
  rw [run_skipBlanks, hrest] at hskip
  cases hskip
  obtain ⟨lo, s₂, hcount, h⟩ := run_bind_eq_some.mp h
  rcases blanked_append s.flags blanks after with hsame | ⟨-, hle⟩
  · rw [hblanks, List.nil_append] at hsame
    cases (count_paren hsame).symm.trans hcount
  · exact ((boundsFrom_local lo).length_le h).trans ((count_local.length_le hcount).trans hle)

theorem repetition_torn {blanks after : List Char} {s s' : State} {p q : Piece}
    (hblanks : blanked s.flags blanks = []) (hrest : s.rest = blanks ++ ')' :: after)
    (h : (repetition '{' p).run s = some (q, s')) : s'.rest.length ≤ after.length := by
  obtain ⟨_, s₁, hguard, h⟩ := run_bind_eq_some.mp h
  obtain rfl : s = s₁ := by
    unfold guard at hguard
    split at hguard <;> cases hguard
    rfl
  obtain ⟨times, s₂, htimes, h⟩ := run_bind_eq_some.mp h
  obtain ⟨b, s₃, hbounds, htimes⟩ := run_bind_eq_some.mp htimes
  calc s'.rest.length ≤ s₂.rest.length := (greed_local times.1 times.2 p).length_le h
    _ ≤ s₃.rest.length := (skipBlanks_local.bind fun _ => .pure b).length_le htimes
    _ ≤ after.length := bounds_torn hblanks hrest hbounds

/-! ### Contents -/

theorem modify_flags_local (flags : Flags) : Local (modify ({ · with flags }) : Read Unit) :=
  .modify (fun _ => List.suffix_rfl) fun _ _ => rfl

section Classes
variable (classes : ClassTable)

/-- A torn brace is no repetition before the closing parenthesis. -/
theorem group_torn {n : Nat} (hlocal : ∀ branches parts, Local (group classes n branches parts))
    {branches parts : List Piece} {p q : Piece} {after : List Char} {s s' : State}
    (htorn : Torn after s)
    (h : (group classes (n + 1) branches (p :: parts)).run s = some (q, s')) :
    s'.rest.length ≤ after.length := by
  obtain ⟨blanks, hblanks, hrest⟩ := htorn
  unfold group at h
  obtain ⟨_, s₁, hskip, h⟩ := run_bind_eq_some.mp h
  have hsame : blanked s.flags s.rest = s.rest := by
    rw [hrest, blanked]
    split <;> rfl
  rw [run_skipBlanks, hsame] at hskip
  cases hskip
  have hpeek : peek.run s = some (some '{', s) := by
    change some (s.rest.head?, s) = _
    rw [hrest]
    rfl
  obtain ⟨c, s₁, hpeek', h⟩ := run_bind_eq_some.mp h
  cases hpeek.symm.trans hpeek'
  obtain ⟨_, s₂, hnext, h⟩ := run_bind_eq_some.mp h
  cases (run_discard_next hrest).symm.trans hnext
  obtain ⟨r, s₃, hrepeat, h⟩ := run_bind_eq_some.mp h
  have htorn : s₃.rest.length ≤ after.length :=
    repetition_torn (s := { s with rest := blanks ++ ')' :: after }) hblanks rfl hrepeat
  exact ((hlocal branches (r :: parts)).length_le h).trans htorn

theorem group_local (n : Nat) (branches parts : List Piece) :
    Local (group classes n branches parts) := by
  induction n using Nat.strong_induction_on generalizing branches parts with
  | h n ih =>
    cases n with
    | zero => exact .failure
    | succ n =>
      have hless := ih
      replace ih := ih n (Nat.lt_succ_self n)
      unfold group
      refine skipBlanks_local.bind fun _ => .peek_bind_same (fun o => ?_) rfl
      cases o with
      | none => exact Local.pure _
      | some c =>
        dsimp only
        split
        · exact Local.pure _
        · exact next_local.discard.bind fun _ => ih _ _
        · refine next_local.discard.bind fun _ => groupStart_local.bind fun start => ?_
          cases start with
          | directive flags => exact (modify_flags_local flags).bind fun _ => ih _ _
          | group index inside =>
            refine .get_bind (fun s => (modify_flags_local inside).bind fun _ => (ih [] []).bind
              fun p => next_local.bind fun c => ?_) fun _ _ => rfl
            split
            · exact Local.failure.bind fun _ => (modify_flags_local s.flags).bind fun _ => ih _ _
            · exact (modify_flags_local s.flags).bind fun _ => ih _ _
        · exact next_local.discard.bind fun _ => (bracketed_local classes).bind fun set => ih _ _
        · split
          · refine next_local.discard.bind fun _ => ?_
            cases parts with
            | nil => exact .failure
            | cons p parts => exact (repetition_local c p).bind fun q => ih _ _
          · refine LocalBut.bind (atom_local classes) (fun e => ih _ _)
              fun after e s htorn q s' h => .inl ?_
            cases n with
            | zero => cases h
            | succ n => exact group_torn classes (hless n (by omega)) htorn h

theorem atom_lt {s s' : State} {e : Expr} (h : (atom classes).run s = some (e, s')) :
    s'.rest.length < s.rest.length := by
  obtain ⟨s₀, s₁, hget, h⟩ := run_bind_eq_some.mp h
  cases hget
  obtain ⟨c, s₂, hnext, h⟩ := run_bind_eq_some.mp h
  refine lt_of_le_of_lt ?_ (next_lt hnext)
  split at h
  · obtain ⟨a, s₃, hescape, h⟩ := run_bind_eq_some.mp h
    cases h
    exact (escape_local classes).length_le hescape
  · obtain ⟨a, s₃, hset, h⟩ := run_bind_eq_some.mp h
    cases h
    exact ((Local.lift _).map _).length_le hset
  all_goals
    cases h
    exact le_rfl

theorem group_agree (n : Nat) (branches parts : List Piece) :
    Agree n (group classes n branches parts) (group classes (n + 1) branches parts) := by
  induction n generalizing branches parts with
  | zero => exact .zero _ _
  | succ n ih =>
    unfold group
    refine skipBlanks_local.agree fun _ => .peek fun o => ?_
    cases o with
    | none => exact .refl _ _
    | some c =>
      dsimp only
      split
      · exact .refl _ _
      · exact .bind_lt discard_next_lt fun _ => ih _ _
      · refine .bind_lt discard_next_lt fun _ => groupStart_local.agree fun start => ?_
        cases start with
        | directive flags => exact (modify_flags_local flags).agree fun _ => ih _ _
        | group index inside =>
          refine .get fun s => (modify_flags_local inside).agree fun _ =>
            .bind (ih [] []) (group_local classes n [] []).length_le fun p =>
              next_local.agree fun c => ?_
          split
          · exact Local.failure.agree fun _ => (modify_flags_local s.flags).agree fun _ => ih _ _
          · exact (modify_flags_local s.flags).agree fun _ => ih _ _
      · exact .bind_lt discard_next_lt fun _ => (bracketed_local classes).agree fun set => ih _ _
      · split
        · refine .bind_lt discard_next_lt fun _ => ?_
          cases parts with
          | nil => exact .refl _ _
          | cons p parts => exact (repetition_local c p).agree fun q => ih _ _
        · exact .bind_lt (atom_lt classes) fun e => ih _ _

end Classes

end Packrat.Regex.Reader
