import Packrat.Proofs.Recognition.Heads
import Packrat.Proofs.Recognition.Justified

/-! What is remembered while a recognition goes on.

`Remembered r c s`: an entry is in progress exactly where a frame is under way, and holds
its number, what grows has a final entry, what was answered for good is remembered, and
whatever answer is remembered is one that an application may give. With the heads this is
`Disciplined r c s`, which each operation of a session keeps. -/
namespace Packrat

/-- The entry holds an answer. -/
def Entry.Answered : Entry → Prop
  | .inProgress _ => False
  | .involved .. | .final _ => True

/-- What an entry may hold: an answer as an application may give, and with it a head at its
position. -/
def Entry.Sound (r : Recognizer) (s : Session) (k : Key) : Entry → Prop
  | .inProgress _ => True
  | .involved a id => r.Answers k.1 k.2 a ∧ ∃ x, s.Knows id (x, k.2)
  | .final a => r.Answers k.1 k.2 a

structure Remembered (r : Recognizer) (c : Scene) (s : Session) : Prop where
  inProgress : ∀ (k : Key) (number : Nat),
    s.memo[k]? = some (.inProgress number) ↔ (Scene.frameKeys c.trail).reverse[number]? = some k
  grown : ∀ a ∈ c.trail, a.grows.isSome → ∃ ans, s.memo[a.key]? = some (.final ans)
  sound : ∀ (k : Key) (e : Entry), s.memo[k]? = some e → e.Sound r s k
  settled : ∀ k a, c.settled k a → s.memo[k]? = some (.final a)

structure Disciplined (r : Recognizer) (c : Scene) (s : Session) : Prop where
  tracked : Tracked r.graph c s
  remembered : Remembered r c s

section
variable {r : Recognizer} {g : RuleGraph} {c c' : Scene} {s s' : Session}

theorem Entry.Sound.mono {k : Key} {e : Entry} (h : e.Sound r s k)
    (hknows : ∀ id k, s.Knows id k → s'.Knows id k) : e.Sound r s' k := by
  cases e with
  | inProgress number => trivial
  | involved a id =>
    obtain ⟨ha, x, hx⟩ := h
    exact ⟨ha, x, hknows id _ hx⟩
  | final a => exact h

/-- An operation that keeps whatever is to be kept in mind keeps all that is known. -/
theorem Tracked.knows_stable (t : Tracked g c s)
    (hop : ∀ id k, Tracked g (c.know id k) s → Tracked g (c'.know id k) s') (id : HeadId) (k : Key)
    (hk : s.Knows id k) : s'.Knows id k :=
  (hop id k (t.know hk)).known id k (.inr ⟨rfl, rfl⟩)

namespace Remembered

/-- An entry in progress is that of an application under way. -/
theorem underWay (m : Remembered r c s) {k : Key} {number : Nat}
    (h : s.memo[k]? = some (.inProgress number)) : ∃ a ∈ c.trail, a.grows = none ∧ a.key = k := by
  have hmem := List.mem_of_getElem? ((m.inProgress k number).mp h)
  exact mem_frameKeys.mp (List.mem_reverse.mp hmem)

theorem congr (m : Remembered r c s) (hmemo : s'.memo = s.memo)
    (hknows : ∀ id k, s.Knows id k → s'.Knows id k) : Remembered r c s' := by
  refine ⟨fun k n => hmemo ▸ m.inProgress k n, fun a ha hg => hmemo ▸ m.grown a ha hg,
    fun k e he => ?_, fun k a hk => hmemo ▸ m.settled k a hk⟩
  exact (m.sound k e (hmemo ▸ he)).mono hknows

/-- Only what is under way and what is settled matters. -/
theorem rescope (m : Remembered r c s) (htrail : c'.trail = c.trail)
    (hsettled : c'.settled = c.settled) : Remembered r c' s :=
  ⟨htrail ▸ m.inProgress, htrail ▸ m.grown, m.sound, hsettled ▸ m.settled⟩

/-- An entry is put in place of one that was not in progress. -/
theorem setEntry (m : Remembered r c s) {x : RuleId} {pos : Nat} {e : Entry}
    (hsound : e.Sound r s (x, pos)) (he : e.Answered) (hsettled : ∀ a, ¬ c.settled (x, pos) a)
    (hframe : ∀ a ∈ c.trail, a.grows = none → a.key ≠ (x, pos))
    (hgrown : ∀ a ∈ c.trail, a.grows.isSome → a.key = (x, pos) → ∃ ans, e = .final ans) :
    Remembered r c (s.setEntry x pos e) := by
  refine ⟨fun k number => ?_, fun a ha hg => ?_, fun k e' he' => ?_, fun k a hk => ?_⟩
  · by_cases hk : k = (x, pos)
    · subst hk
      rw [Session.setEntry, Std.HashMap.getElem?_insert_self]
      refine ⟨fun h => ?_, fun h => ?_⟩
      · cases h
        exact he.elim
      · obtain ⟨a, ha, hg, hk⟩ := mem_frameKeys.mp (List.mem_reverse.mp (List.mem_of_getElem? h))
        exact absurd hk (hframe a ha hg)
    · rw [setEntry_other hk]
      exact m.inProgress k number
  · by_cases hk : a.key = (x, pos)
    · obtain ⟨ans, rfl⟩ := hgrown a ha hg hk
      rw [hk]
      exact ⟨ans, Std.HashMap.getElem?_insert_self⟩
    · rw [setEntry_other hk]
      exact m.grown a ha hg
  · by_cases hk : k = (x, pos)
    · subst hk
      rw [Session.setEntry, Std.HashMap.getElem?_insert_self] at he'
      cases he'
      exact hsound
    · rw [setEntry_other hk] at he'
      exact m.sound k e' he'
  · have hne : k ≠ (x, pos) := fun h => hsettled a (h ▸ hk)
    rw [setEntry_other hne]
    exact m.settled k a hk

theorem dropEntry (m : Remembered r c s) {x : RuleId} {pos : Nat}
    (hfree : ¬ c.Reserved c.trail (x, pos)) : Remembered r c (s.dropEntry x pos) := by
  have hne : ∀ a ∈ c.trail, a.key ≠ (x, pos) :=
    fun a ha hk => hfree (.inl (mem_keys.mpr ⟨a, ha, hk⟩))
  have hdrop : (s.dropEntry x pos).memo[(x, pos)]? = none := Std.HashMap.getElem?_erase_self
  refine ⟨fun k number => ?_, fun a ha hg => ?_, fun k e he => ?_, fun k a hk => ?_⟩
  · by_cases hk : k = (x, pos)
    · subst hk
      rw [hdrop]
      refine ⟨nofun, fun h => ?_⟩
      obtain ⟨a, ha, _, hk⟩ := mem_frameKeys.mp (List.mem_reverse.mp (List.mem_of_getElem? h))
      exact absurd hk (hne a ha)
    · rw [dropEntry_other hk]
      exact m.inProgress k number
  · rw [dropEntry_other (hne a ha)]
    exact m.grown a ha hg
  · by_cases hk : k = (x, pos)
    · subst hk
      rw [hdrop] at he
      cases he
    · exact m.sound k e (dropEntry_other hk ▸ he)
  · have hk' : k ≠ (x, pos) := fun h => hfree (.inr ⟨a, h ▸ hk⟩)
    rw [dropEntry_other hk']
    exact m.settled k a hk

/-- A frame is left: its entry, until now in progress, is another or none. -/
theorem popFrame {x : RuleId} {pos : Nat} (m : Remembered r (c.push ⟨x, pos, none⟩) s)
    (hfree : ¬ c.Reserved c.trail (x, pos)) (hknows : ∀ id k, s.Knows id k → s'.Knows id k)
    (hmemo : ∀ k, k ≠ (x, pos) → s'.memo[k]? = s.memo[k]?)
    (hentry : ∀ e, s'.memo[(x, pos)]? = some e → e.Answered ∧ e.Sound r s' (x, pos)) :
    Remembered r c s' := by
  have hne : ∀ a ∈ c.trail, a.key ≠ (x, pos) :=
    fun a ha hk => hfree (.inl (mem_keys.mpr ⟨a, ha, hk⟩))
  refine ⟨fun k number => ?_, fun a ha hg => ?_, fun k e he => ?_, fun k a hk => ?_⟩
  · by_cases hk : k = (x, pos)
    · subst hk
      refine ⟨fun h => absurd (hentry _ h).1 id, fun h => ?_⟩
      obtain ⟨a, ha, _, hk⟩ := mem_frameKeys.mp (List.mem_reverse.mp (List.mem_of_getElem? h))
      exact absurd hk (hne a ha)
    · have hpush := m.inProgress k number
      rw [show Scene.frameKeys (c.push ⟨x, pos, none⟩).trail = (x, pos) ::
        Scene.frameKeys c.trail from rfl, List.reverse_cons, List.getElem?_append] at hpush
      rw [hmemo k hk, hpush]
      by_cases hlt : number < (Scene.frameKeys c.trail).reverse.length
      · rw [if_pos hlt]
      · rw [if_neg hlt, List.getElem?_eq_none (Nat.le_of_not_lt hlt)]
        refine ⟨fun h => ?_, nofun⟩
        obtain rfl := List.mem_singleton.mp (List.mem_of_getElem? h)
        exact absurd rfl hk
  · rw [hmemo _ (hne a ha)]
    exact m.grown a (List.mem_cons_of_mem _ ha) hg
  · by_cases hk : k = (x, pos)
    · subst hk
      exact (hentry e he).2
    · rw [hmemo k hk] at he
      exact (m.sound k e he).mono hknows
  · have hk' : k ≠ (x, pos) := fun h => hfree (.inr ⟨a, h ▸ hk⟩)
    rw [hmemo k hk']
    exact m.settled k a hk

/-- A growth begins or ends where the entry is final. -/
theorem popGrowth {x : RuleId} {pos : Nat} {id : HeadId}
    (m : Remembered r (c.push ⟨x, pos, some id⟩) s) : Remembered r c s :=
  ⟨m.inProgress, fun a ha => m.grown a (List.mem_cons_of_mem _ ha), m.sound, m.settled⟩

theorem pushGrowth {x : RuleId} {pos : Nat} {id : HeadId} (m : Remembered r c s)
    (hfinal : ∃ ans, s.memo[(x, pos)]? = some (.final ans)) :
    Remembered r (c.push ⟨x, pos, some id⟩) s := by
  refine ⟨m.inProgress, fun a ha hg => ?_, m.sound, m.settled⟩
  rcases List.mem_cons.mp ha with rfl | ha
  · exact hfinal
  · exact m.grown a ha hg

theorem enter (m : Remembered r c s) {x : RuleId} {pos : Nat}
    (hfree : ¬ c.Reserved c.trail (x, pos))
    (hlength : s.frames.length = (Scene.frameKeys c.trail).length) :
    Remembered r (c.push ⟨x, pos, none⟩) (s.enter x pos) := by
  have hne : ∀ a ∈ c.trail, a.key ≠ (x, pos) :=
    fun a ha hk => hfree (.inl (mem_keys.mpr ⟨a, ha, hk⟩))
  have hother : ∀ k, k ≠ (x, pos) → (s.enter x pos).memo[k]? = s.memo[k]? :=
    fun k hk => setEntry_other hk _
  have hentry : (s.enter x pos).memo[(x, pos)]? = some (.inProgress s.frames.length) :=
    Std.HashMap.getElem?_insert_self
  have hnumber : ∀ number, number < (Scene.frameKeys c.trail).reverse.length →
      (Scene.frameKeys c.trail).reverse[number]? ≠ some (x, pos) := by
    intro number _ h
    obtain ⟨a, ha, _, hk⟩ := mem_frameKeys.mp (List.mem_reverse.mp (List.mem_of_getElem? h))
    exact hne a ha hk
  refine ⟨fun k number => ?_, fun a ha hg => ?_, fun k e he => ?_, fun k a hk => ?_⟩
  · rw [show Scene.frameKeys (c.push ⟨x, pos, none⟩).trail = (x, pos) ::
      Scene.frameKeys c.trail from rfl, List.reverse_cons, List.getElem?_append]
    by_cases hk : k = (x, pos)
    · subst hk
      rw [hentry, hlength]
      by_cases hlt : number < (Scene.frameKeys c.trail).reverse.length
      · rw [if_pos hlt]
        refine ⟨fun h => ?_, fun h => absurd h (hnumber number hlt)⟩
        cases h
        simp at hlt
      · rw [if_neg hlt]
        rw [List.length_reverse] at hlt ⊢
        grind
    · rw [hother k hk, m.inProgress k number]
      by_cases hlt : number < (Scene.frameKeys c.trail).reverse.length
      · rw [if_pos hlt]
      · rw [if_neg hlt, List.getElem?_eq_none (Nat.le_of_not_lt hlt)]
        refine ⟨nofun, fun h => ?_⟩
        obtain rfl := List.mem_singleton.mp (List.mem_of_getElem? h)
        exact absurd rfl hk
  · rcases List.mem_cons.mp ha with rfl | ha
    · cases hg
    · rw [hother _ (hne a ha)]
      exact m.grown a ha hg
  · by_cases hk : k = (x, pos)
    · subst hk
      rw [hentry] at he
      cases he
      trivial
    · exact (m.sound k e (hother k hk ▸ he)).mono fun _ _ h => h
  · have hk' : k ≠ (x, pos) := fun h => hfree (.inr ⟨a, h ▸ hk⟩)
    rw [hother k hk']
    exact m.settled k a hk

end Remembered

end

end Packrat
