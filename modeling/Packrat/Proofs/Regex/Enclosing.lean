import Packrat.Regex.Reader
import Mathlib.Data.List.Infix
import Mathlib.Data.Option.Basic

/-! Reading the contents of a group.

A reader goes on in the same way whether the text ends or a closing parenthesis comes behind it, as
long as it does not pass that place. Where it passes it, the parenthesis is taken for a part of
something that the text by itself leaves open, or it lies in a comment. -/
namespace Packrat.Regex.Reader
variable {α β : Type}

/-- The same text with a closing parenthesis and more behind it. -/
def State.enclosed (s : State) (after : List Char) : State :=
  { s with rest := s.rest ++ ')' :: after }

/-- What is read of a text, and of the same text enclosed. Something else than by itself is read
only past the closing parenthesis, or where `E` says so. -/
inductive Parallel (E : α → State → Prop) (after : List Char) :
    Option (α × State) → Option (α × State) → Prop where
  | same (a : α) (s : State) : Parallel E after (some (a, s)) (some (a, s.enclosed after))
  /-- The parenthesis lies in a comment at the end of the text. -/
  | swallowed (a : α) {s : State} : s.rest = [] → after = [] →
      Parallel E after (some (a, s)) (some (a, s))
  | apart {x x' : Option (α × State)} :
      (∀ a s, x' = some (a, s) → s.rest.length ≤ after.length ∨ E a s) → (after = [] → x = none) →
      Parallel E after x x'

theorem Parallel.none {E : α → State → Prop} {after : List Char} : Parallel E after none none :=
  .apart (fun _ _ h => by cases h) fun _ => rfl

/-- A reader that leaves a part of its text, and reads the same of it if it is enclosed, apart from
`E`. -/
structure LocalBut (E : List Char → α → State → Prop) (r : Read α) : Prop where
  suffix : ∀ {s a s'}, r.run s = some (a, s') → s'.rest <:+ s.rest
  parallel : ∀ after s, Parallel (E after) after (r.run s) (r.run (s.enclosed after))

/-- A reader that reads the same of a text if it is enclosed. -/
abbrev Local (r : Read α) : Prop := LocalBut (fun _ _ _ => False) r

/-! ### Readers made of others -/

theorem run_bind_eq_some {x : Read α} {f : α → Read β} {s s' : State} {b : β} :
    (x >>= f).run s = some (b, s') ↔ ∃ a s₁, x.run s = some (a, s₁) ∧
    (f a).run s₁ = some (b, s') := by
  simp [StateT.run_bind, Option.bind_eq_some_iff]

namespace LocalBut
variable {E : List Char → α → State → Prop} {E' : List Char → β → State → Prop} {x : Read α}
  {f : α → Read β}

theorem length_le (h : LocalBut E x) {s s' : State} {a : α} (hx : x.run s = some (a, s')) :
    s'.rest.length ≤ s.rest.length := (h.suffix hx).length_le

theorem bind (hx : LocalBut E x) (hf : ∀ a, LocalBut E' (f a))
    (hE : ∀ after a s, E after a s → ∀ b s', (f a).run s = some (b, s') →
      s'.rest.length ≤ after.length ∨ E' after b s') :
    LocalBut E' (x >>= f) where
  suffix h := by
    obtain ⟨a, s₁, hxs, hfs⟩ := run_bind_eq_some.mp h
    exact ((hf a).suffix hfs).trans (hx.suffix hxs)
  parallel after s := by
    rw [StateT.run_bind, StateT.run_bind]
    generalize x.run s = y, x.run (s.enclosed after) = y', hx.parallel after s = hxs
    cases hxs with
    | same a s₁ => exact (hf a).parallel after s₁
    | @swallowed a s₁ hrest hafter =>
      dsimp only [Option.bind_eq_bind, Option.bind_some]
      cases hfs : (f a).run s₁ with
      | none => exact .none
      | some y => exact .swallowed y.1 (List.suffix_nil.mp (hrest ▸ (hf a).suffix hfs)) hafter
    | apart hend hnone =>
      refine .apart (fun b s' hb => ?_) fun hafter => by rw [hnone hafter]; rfl
      obtain ⟨⟨a, s₁⟩, hxs, hfs⟩ := Option.bind_eq_some_iff.mp hb
      rcases hend a s₁ hxs with hle | hexcept
      · exact .inl (((hf a).length_le hfs).trans hle)
      · exact hE after a s₁ hexcept b s' hfs

theorem mono {E' : List Char → α → State → Prop} (hx : LocalBut E x)
    (hE : ∀ after a s, E after a s → E' after a s) : LocalBut E' x where
  suffix := hx.suffix
  parallel after s := by
    generalize x.run s = y, x.run (s.enclosed after) = y', hx.parallel after s = hxs
    cases hxs with
    | same a s₁ => exact .same a s₁
    | swallowed a hrest hafter => exact .swallowed a hrest hafter
    | apart hend hnone => exact .apart (fun a s ha => (hend a s ha).imp_right (hE after a s)) hnone

theorem of_local (hx : Local x) : LocalBut E x := hx.mono fun _ _ _ => False.elim

theorem get_bind {f : State → Read α} (hf : ∀ s, LocalBut E (f s))
    (hsame : ∀ s after, (f (s.enclosed after)).run (s.enclosed after) = (f s).run
        (s.enclosed after)) :
    LocalBut E (get >>= f) where
  suffix {s _ _} h := (hf s).suffix h
  parallel after s := by
    change Parallel _ after ((f s).run s) ((f (s.enclosed after)).run (s.enclosed after))
    rw [hsame]
    exact (hf s).parallel after s

end LocalBut

namespace Local
variable {x : Read α} {f : α → Read β}

theorem bind (hx : Local x) (hf : ∀ a, Local (f a)) : Local (x >>= f) :=
  LocalBut.bind hx hf fun _ _ _ hE => hE.elim

theorem pure (a : α) : Local (pure a : Read α) where
  suffix h := by cases h; exact List.suffix_rfl
  parallel after s := .same a s

theorem failure : Local (failure : Read α) where
  suffix h := by cases h
  parallel after s := .none

theorem lift (o : Option α) : Local (liftM o : Read α) := by
  cases o with
  | none => exact failure
  | some a => exact pure a

theorem guarded (p : Prop) [Decidable p] : Local (guard p : Read Unit) := by
  unfold guard
  split
  · exact pure ()
  · exact failure

theorem map (hx : Local x) (f : α → β) : Local (f <$> x) := by
  rw [← bind_pure_comp]
  exact hx.bind fun a => pure (f a)

theorem discard (hx : Local x) : Local (discard x) := hx.map _

theorem modify {g : State → State} (hsuffix : ∀ s, (g s).rest <:+ s.rest)
    (hg : ∀ s after, g (s.enclosed after) = (g s).enclosed after) :
    Local (modify g : Read Unit) where
  suffix {s _ _} h := by cases h; exact hsuffix s
  parallel after s := by
    change Parallel _ after (some ((), g s)) (some ((), g (s.enclosed after)))
    rw [hg]
    exact .same () (g s)

end Local

theorem LocalBut.map {E : List Char → α → State → Prop} {E' : List Char → β → State → Prop}
    {x : Read α} {f : α → β} (hx : LocalBut E x)
    (hE : ∀ after a s, E after a s → E' after (f a) s) : LocalBut E' (f <$> x) := by
  rw [← bind_pure_comp]
  refine hx.bind (fun a => .of_local (.pure (f a))) fun after a s hexcept b s' h => .inr ?_
  cases h
  exact hE after a s hexcept

/-! ### Characters -/

@[simp] theorem run_next_nil {s : State} (h : s.rest = []) : next.run s = none := by
  obtain ⟨rest, flags, groups, names⟩ := s
  cases h
  rfl

@[simp] theorem run_next_cons {s : State} {c : Char} {rest : List Char} (h : s.rest = c :: rest) :
    next.run s = some (c, { s with rest }) := by
  obtain ⟨_, flags, groups, names⟩ := s
  cases h
  rfl

theorem run_discard_next {s : State} {c : Char} {rest : List Char} (h : s.rest = c :: rest) :
    (discard next).run s = some ((), { s with rest }) := by
  change (next.run s).bind (fun p => some ((), p.2)) = _
  rw [run_next_cons h]
  rfl

theorem next_local : Local next where
  suffix {s c s'} h := by
    cases hrest : s.rest with
    | nil => rw [run_next_nil hrest] at h; cases h
    | cons d rest =>
      rw [run_next_cons hrest] at h
      cases h
      exact List.suffix_cons _ _
  parallel after s := by
    cases hrest : s.rest with
    | nil =>
      have hend : (s.enclosed after).rest = ')' :: after := by
        rw [State.enclosed, hrest, List.nil_append]
      rw [run_next_nil hrest, run_next_cons hend]
      exact .apart (fun a s' h => by cases h; exact .inl le_rfl) fun _ => rfl
    | cons c rest =>
      have hmore : (s.enclosed after).rest = c :: (rest ++ ')' :: after) := by
        rw [State.enclosed, hrest, List.cons_append]
      rw [run_next_cons hrest, run_next_cons hmore]
      exact .same c { s with rest }

theorem LocalBut.peek_bind {E : List Char → α → State → Prop} {f : Option Char → Read α}
    (hf : ∀ c, LocalBut E (f c)) (hend : ∀ after s, s.rest = [] →
      Parallel (E after) after ((f none).run s) ((f (some ')')).run (s.enclosed after))) :
    LocalBut E (peek >>= f) where
  suffix {s _ _} h := (hf s.rest.head?).suffix h
  parallel after s := by
    change Parallel _ after ((f s.rest.head?).run s)
      ((f (s.rest ++ ')' :: after).head?).run (s.enclosed after))
    cases hrest : s.rest with
    | nil => exact hend after s hrest
    | cons c rest => exact (hf (some c)).parallel after s

/-- The end of the text and a closing parenthesis come to the same. -/
theorem LocalBut.peek_bind_same {E : List Char → α → State → Prop} {f : Option Char → Read α}
    (hf : ∀ c, LocalBut E (f c)) (hsame : f none = f (some ')')) : LocalBut E (peek >>= f) :=
  .peek_bind hf fun after s _ => hsame ▸ (hf none).parallel after s

theorem accept_local {c : Char} (hc : c ≠ ')') : Local (accept c) := by
  unfold accept
  refine .peek_bind_same (fun o => ?_) (by simp [hc.symm])
  split
  · exact next_local.discard.bind fun _ => .pure true
  · exact Local.pure false

/-! ### Blanks -/

theorem dropBlanks_suffix (inComment : Bool) (text : List Char) :
    dropBlanks inComment text <:+ text := by
  induction text generalizing inComment with
  | nil => exact List.suffix_rfl
  | cons c rest ih =>
    unfold dropBlanks
    split
    · exact (ih _).trans (List.suffix_cons c rest)
    split
    · exact (ih _).trans (List.suffix_cons c rest)
    split
    · exact (ih _).trans (List.suffix_cons c rest)
    · exact List.suffix_rfl

theorem dropBlanks_append (inComment : Bool) (text after : List Char) :
    dropBlanks inComment (text ++ ')' :: after) = dropBlanks inComment text ++ ')' :: after ∨
      dropBlanks inComment text = [] ∧ (dropBlanks inComment (text ++ ')' :: after)).length ≤
        after.length := by
  induction text generalizing inComment with
  | nil =>
    cases inComment with
    | false => exact .inl rfl
    | true => exact .inr ⟨rfl, (dropBlanks_suffix true after).length_le⟩
  | cons c rest ih =>
    simp only [List.cons_append, dropBlanks]
    split
    · exact ih _
    split
    · exact ih _
    split
    · exact ih _
    · exact .inl rfl

/-- The text past blanks and comments if these do not count. -/
def blanked (f : Flags) (text : List Char) : List Char :=
  if f.verbose then dropBlanks false text else text

theorem blanked_suffix (f : Flags) (text : List Char) : blanked f text <:+ text := by
  unfold blanked
  split
  · exact dropBlanks_suffix false text
  · exact List.suffix_rfl

theorem blanked_append (f : Flags) (text after : List Char) :
    blanked f (text ++ ')' :: after) = blanked f text ++ ')' :: after ∨
      blanked f text = [] ∧ (blanked f (text ++ ')' :: after)).length ≤ after.length := by
  unfold blanked
  split
  · exact dropBlanks_append false text after
  · exact .inl rfl

theorem run_skipBlanks (s : State) :
    skipBlanks.run s = some ((), { s with rest := blanked s.flags s.rest }) := by
  change some ((), ite ..) = _
  unfold blanked
  split <;> rfl

theorem skipBlanks_local : Local skipBlanks where
  suffix {s _ _} h := by
    rw [run_skipBlanks] at h
    cases h
    exact blanked_suffix s.flags s.rest
  parallel after s := by
    rw [run_skipBlanks, run_skipBlanks]
    rcases blanked_append s.flags s.rest after with hsame | ⟨hempty, hle⟩
    · dsimp only [State.enclosed]
      rw [hsame]
      exact .same () { s with rest := blanked s.flags s.rest }
    · dsimp only [State.enclosed]
      cases after with
      | nil =>
        rw [hempty, List.eq_nil_of_length_eq_zero (Nat.le_zero.mp hle)]
        exact .swallowed () rfl rfl
      | cons c after => exact .apart (fun a s' h => by cases h; exact .inl hle) nofun

theorem dropWhile_blank_append (text after : List Char) :
    (text ++ ')' :: after).dropWhile CharSet.blank.contains =
      text.dropWhile CharSet.blank.contains ++ ')' :: after := by
  have hblank : CharSet.blank.contains ')' = false := rfl
  rw [List.dropWhile_append]
  split <;> simp_all

theorem dropSpace_local : Local dropSpace :=
  .modify (fun s => List.dropWhile_suffix _)
  fun s after => by simp only [State.enclosed, dropWhile_blank_append]

/-! ### What is found at the front -/

section Front
variable {find : Flags → List Char → Option (α × List Char)}

theorem run_takeFront (find : Flags → List Char → Option (α × List Char)) (s : State) :
    (takeFront find).run s = (find s.flags s.rest).map fun (a, rest) => (a, { s with rest }) := by
  unfold takeFront
  rw [StateT.run_bind, StateT.run_get]
  dsimp only [Option.pure_def, Option.bind_eq_bind, Option.bind_some]
  cases find s.flags s.rest <;> rfl

theorem takeFront_local (hsuffix : ∀ {f text a rest}, find f text = some (a, rest) → rest <:+ text)
    (happend : ∀ f text after,
      find f (text ++ ')' :: after) = (find f text).map
        (fun (a, rest) => (a, rest ++ ')' :: after)) ∨
        find f text = none ∧ ∀ a rest, find f (text ++ ')' :: after) = some (a, rest) →
        rest.length ≤ after.length) :
    Local (takeFront find) where
  suffix {s _ _} h := by
    rw [run_takeFront] at h
    obtain ⟨⟨a, rest⟩, hfind, h⟩ := Option.map_eq_some_iff.mp h
    cases h
    exact hsuffix hfind
  parallel after s := by
    rw [run_takeFront, run_takeFront]
    change Parallel _ after _ ((find s.flags (s.rest ++ ')' :: after)).map _)
    rcases happend s.flags s.rest after with hsame | ⟨hnone, hpast⟩
    · rw [hsame]
      cases find s.flags s.rest with
      | none => exact .none
      | some p => exact .same p.1 { s with rest := p.2 }
    · rw [hnone]
      refine .apart (fun a s' h => .inl ?_) fun _ => rfl
      obtain ⟨⟨a, rest⟩, hfind, h⟩ := Option.map_eq_some_iff.mp h
      cases h
      exact hpast a rest hfind

end Front

/-! ### Rounds

A reader that goes round is given more rounds than there are characters; how many more does not
matter. -/

/-- The same is read of every text shorter than `k`. -/
def Agree (k : Nat) (x y : Read α) : Prop := ∀ s : State, s.rest.length < k → x.run s = y.run s

namespace Agree
variable {k : Nat} {x y : Read α} {f g : α → Read β}

theorem refl (k : Nat) (x : Read α) : Agree k x x := fun _ _ => rfl

theorem zero (x y : Read α) : Agree 0 x y := fun _ hs => absurd hs (Nat.not_lt_zero _)

theorem bind (hx : Agree k x y)
    (hle : ∀ {s a s'}, x.run s = some (a, s') → s'.rest.length ≤ s.rest.length)
    (hf : ∀ a, Agree k (f a) (g a)) : Agree k (x >>= f) (y >>= g) := fun s hs => by
  rw [StateT.run_bind, StateT.run_bind, ← hx s hs]
  cases hxs : x.run s with
  | none => rfl
  | some p => exact hf p.1 p.2 ((hle hxs).trans_lt hs)

theorem of_run (h : ∀ s a s', s.rest.length < k → x.run s = some (a, s') →
      (f a).run s' = (g a).run s') :
    Agree k (x >>= f) (x >>= g) := fun s hs => by
  rw [StateT.run_bind, StateT.run_bind]
  cases hxs : x.run s with
  | none => rfl
  | some p => exact h s p.1 p.2 hs hxs

theorem get {f g : State → Read α} (h : ∀ s, Agree k (f s) (g s)) :
    Agree k (get >>= f) (get >>= g) :=
  fun s hs => h s s hs

theorem peek {f g : Option Char → Read α} (h : ∀ c, Agree k (f c) (g c)) :
    Agree k (peek >>= f) (peek >>= g) :=
  fun s hs => h s.rest.head? s hs

theorem bind_lt (hlt : ∀ {s a s'}, x.run s = some (a, s') → s'.rest.length < s.rest.length)
    (hf : ∀ a, Agree k (f a) (g a)) : Agree (k + 1) (x >>= f) (x >>= g) :=
  of_run fun _ a s' hs h => hf a s' (Nat.lt_of_lt_of_le (hlt h) (Nat.le_of_lt_succ hs))

/-- More rounds than enough come to the same. -/
theorem of_le {f : Nat → Read α} (h : ∀ n, Agree n (f n) (f (n + 1))) {n m : Nat} (hle : n ≤ m) :
    Agree n (f n) (f m) := by
  induction m, hle using Nat.le_induction with
  | base => exact refl n (f n)
  | succ m hle ih => exact fun s hs => (ih s hs).trans (h m s (hs.trans_le hle))

end Agree

theorem LocalBut.agree {E : List Char → α → State → Prop} {k : Nat} {x : Read α} {f g : α → Read β}
    (hx : LocalBut E x) (hf : ∀ a, Agree k (f a) (g a)) : Agree k (x >>= f) (x >>= g) :=
  .bind (.refl k x) hx.length_le hf

theorem next_lt {s s' : State} {c : Char} (h : next.run s = some (c, s')) :
    s'.rest.length < s.rest.length := by
  cases hrest : s.rest with
  | nil => rw [run_next_nil hrest] at h; cases h
  | cons d rest =>
    rw [run_next_cons hrest] at h
    cases h
    exact Nat.lt_succ_self _

theorem discard_next_lt {s s' : State} {u : Unit} (h : (discard next).run s = some (u, s')) :
    s'.rest.length < s.rest.length := by
  obtain ⟨p, hnext, hp⟩ : ∃ p, next.run s = some p ∧ some ((), p.2) = some (u, s') :=
    Option.bind_eq_some_iff.mp h
  cases hp
  exact next_lt hnext

/-- A reader that is given more rounds than there are characters. -/
theorem LocalBut.rounds {E : List Char → β → State → Prop} {f : Nat → Read α} {g : α → Read β}
    (hagree : ∀ n, Agree n (f n) (f (n + 1))) (h : ∀ n, LocalBut E (f n >>= g)) :
    LocalBut E (get >>= fun s => f (s.rest.length + 1) >>= g) where
  suffix {s _ _} hrun := (h (s.rest.length + 1)).suffix hrun
  parallel after s := by
    have hmore : (f (s.rest.length + 1) >>= g).run s =
        (f ((s.enclosed after).rest.length + 1) >>= g).run s := by
      rw [StateT.run_bind, StateT.run_bind, Agree.of_le hagree _ s (Nat.lt_succ_self _)]
      simp [State.enclosed]
    change Parallel _ after ((f (s.rest.length + 1) >>= g).run s)
      ((f ((s.enclosed after).rest.length + 1) >>= g).run _)
    rw [hmore]
    exact (h _).parallel after s

end Packrat.Regex.Reader
