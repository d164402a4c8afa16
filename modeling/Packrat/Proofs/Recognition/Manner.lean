import Packrat.Proofs.Recognition.Asking

/-! What is known of frames and heads throughout an application.

Entries and the lists of rules that a head deals with change all the time; frames, the keys of
heads and what grows change in a few places only: an application is entered and left, a head is
made or involved, an anchor grows and its head is released. A `Manner` is something that is known
of a session as long as these go in a certain way. What is known depends on what is under way, so
there is a state that says so; a state is changed for the evaluation of a body, and comes back.
The one thing that may go another way is how an application finds itself under way or involved
(`Manner.Breaks`).

An application that does not break it keeps what is known, if the evaluations of bodies do that it
makes, and makes them only where it is known (`Manner.step_heeds`). -/
namespace Packrat

/-- The sessions have the same frames and the same anchors, and the same heads grow. -/
structure Session.Alike (s s' : Session) : Prop where
  frames : s'.frames = s.frames
  next : s'.nextHead = s.nextHead
  heads : ∀ id : HeadId, (s'.heads[id]?).map Head.key = (s.heads[id]?).map Head.key
  growing : s'.growing = s.growing

namespace Session.Alike
variable {s s' s'' : Session}

theorem refl (s : Session) : s.Alike s := ⟨rfl, rfl, fun _ => rfl, rfl⟩

theorem trans (h : s.Alike s') (h' : s'.Alike s'') : s.Alike s'' :=
  ⟨h'.frames.trans h.frames, h'.next.trans h.next, fun id => (h'.heads id).trans (h.heads id),
  h'.growing.trans h.growing⟩

/-- A head is the one that it was before. -/
theorem head (h : s.Alike s') {id : HeadId} {hd' : Head} (hs : s'.heads[id]? = some hd') :
    ∃ hd, s.heads[id]? = some hd ∧ hd'.key = hd.key := by
  have hkey := h.heads id
  rw [hs] at hkey
  obtain ⟨hd, hthere, heq⟩ := Option.map_eq_some_iff.mp hkey.symm
  exact ⟨hd, hthere, heq.symm⟩

/-- The rest of a session does not matter. -/
theorem rest (s : Session) (memo : Std.HashMap Key Entry) (steps : Nat) (log : Array Event) :
    s.Alike { s with memo, steps, log } := ⟨rfl, rfl, fun _ => rfl, rfl⟩

theorem modifyHead (s : Session) (id : HeadId) {f : Head → Head} (hf : ∀ h, (f h).key = h.key) :
    s.Alike (s.modifyHead id f) := by
  exact ⟨frames_modifyHead f, nextHead_modifyHead f, heads_modifyHead_map Head.key hf,
    growing_modifyHead f⟩

theorem remember (s : Session) (x : RuleId) (pos : Nat) (e : Entry) :
    s.Alike (s.remember x pos e) := by
  have hentry : s.Alike (s.setEntry x pos e) := rest ..
  rw [Session.remember]
  split
  · exact hentry.trans (modifyHead _ _ fun _ => rfl)
  · exact hentry

theorem spend (s : Session) (x : RuleId) (pos : Nat) : s.Alike (s.spend x pos) := by
  rw [Session.spend]
  split
  · exact modifyHead _ _ fun _ => rfl
  · exact refl s

theorem discard (s : Session) (id : HeadId) (x : RuleId) (pos : Nat) :
    s.Alike (s.discard id x pos) := by
  have hhead : s.Alike (s.modifyHead id fun h => { h with written := [] }) :=
    modifyHead s id fun _ => rfl
  refine ⟨frames_discard .., nextHead_discard .., fun i => ?_, growing_discard ..⟩
  rw [heads_discard]
  exact hhead.heads i

theorem startRound (s : Session) (id : HeadId) (x : RuleId) (pos : Nat) :
    s.Alike (s.startRound id x pos) :=
  (discard s id x pos).trans (modifyHead _ _ fun _ => rfl)

theorem committed (s : Session) (pos : Nat) (entries : List (RuleId × Entry)) :
    s.Alike (entries.foldl (fun s (y, e) => s.remember y pos e) s) := by
  induction entries generalizing s with
  | nil => exact refl s
  | cons entry rest ih => exact (remember s entry.1 pos entry.2).trans (ih _)

end Session.Alike

/-- Something that is known of sessions in the states of what is under way. -/
structure Manner (κ : Type) where
  Holds : κ → Session → Prop
  /-- An application that is begun in this session is not allowed for. -/
  Breaks : RuleId → Nat → Session → Prop
  /-- The state in which a body is evaluated in a frame. -/
  frame : κ → Key → κ
  /-- The state in which an anchor has left its frame, and its head is there still. -/
  left : κ → HeadId → Key → κ
  /-- The state in which that head grows. -/
  grown : κ → HeadId → Key → κ
  alike : ∀ {k s s'}, Holds k s → s.Alike s' → Holds k s'
  enter : ∀ {k s} x pos, Holds k s → Holds (frame k (x, pos)) (s.enter x pos)
  leave : ∀ {k key s}, Holds (frame k key) s → (∀ id, s.top ≠ some (id, true)) → Holds k s.leave
  leave_anchor : ∀ {k key s id}, Holds (frame k key) s → s.top = some (id, true) →
    Holds (left k id key) s.leave
  startGrowth : ∀ {k s id} x pos, Holds (left k id (x, pos)) s →
    Holds (grown k id (x, pos)) (s.startGrowth id pos)
  endGrowth : ∀ {k s s' id x pos}, Holds (left k id (x, pos)) s → Holds (grown k id (x, pos)) s' →
    Holds (left k id (x, pos)) (s'.endGrowth id x pos s.growing[pos]?)
  release : ∀ {k s id key}, Holds (left k id key) s → Holds k (s.release id)
  reenter : ∀ {k s x pos number}, Holds k s → ¬ s.isEligible x pos = true → ¬ Breaks x pos s →
    s.memo[(x, pos)]? = some (.inProgress number) → Holds k (s.reenter number)
  involve : ∀ {k s x pos seed id}, Holds k s → ¬ s.isEligible x pos = true → ¬ Breaks x pos s →
    s.memo[(x, pos)]? = some (.involved seed id) → s.anchorUnderWay id = true →
    Holds k (s.involve id)

namespace Manner
open Recognizer
variable {κ : Type} {M : Manner κ} {r : Recognizer} {work : Work} {k : κ} {s : Session}
  {x : RuleId} {pos : Nat} {id : HeadId}

/-- A state in which an application of the rule at a key evaluates its body. -/
inductive Along (M : Manner κ) (k : κ) (key : Key) : κ → Prop where
  /-- Anew, in a round of growth further out. -/
  | anew : M.Along k key k
  | frame : M.Along k key (M.frame k key)
  | grown (id : HeadId) : M.Along k key (M.grown k id key)

/-- A body is evaluated by the application, where what is to be known is known. -/
def Fits (M : Manner κ) (k : κ) (key : Key) (y : RuleId) (q : Nat) (t : Session) : Prop :=
  (y, q) = key ∧ ∃ k', M.Along k key k' ∧ M.Holds k' t

section
variable (hwork : ∀ k', M.Along k (x, pos) k' → ∀ s, M.Holds k' s →
  Ends (work x pos) s (fun _ => M.Holds k') fun _ => M.Holds k')
include hwork

theorem call {k' : κ} (halong : M.Along k (x, pos) k') :
    Keeps (M.Fits k (x, pos)) (M.Holds k') (fun work => work x pos) work := fun s hs =>
  .call ⟨rfl, k', halong, hs⟩ (hwork k' halong s hs)

theorem growRounds_keeps (n : Nat) (growth : Growth) :
    Keeps (M.Fits k (x, pos)) (M.Holds (M.grown k id (x, pos)))
      (fun work => growRounds work id x pos n growth) work := by
  induction n generalizing growth with
  | zero => exact fun _ hs => .const hs
  | succ n ih =>
    intro s hs
    refine (heeds_modify _).mpr ((call hwork (.grown id) _ (M.alike hs (.startRound ..))).bind
      fun a s' hs' => ?_)
    refine .ite (fun _ => ?_) fun _ => .const hs'
    exact (heeds_modify _).mpr (heeds_get.mpr (ih _ _ (M.alike hs' (.rest ..))))

theorem grow_heeds (seed : Answer) (hs : M.Holds (M.left k id (x, pos)) s) :
    Heeds (M.Fits k (x, pos)) (fun work => grow work r id x pos seed) work s
      (fun _ => M.Holds (M.left k id (x, pos))) fun _ => M.Holds (M.left k id (x, pos)) := by
  have hend : ∀ (o : Except Stop Growth) s', M.Holds (M.grown k id (x, pos)) s' →
      Ends (endGrow r id x pos s.growing[pos]? o) s' (fun _ => M.Holds (M.left k id (x, pos)))
        fun _ => M.Holds (M.left k id (x, pos)) := by
    intro o s' hs'
    rw [endGrow, ends_bind, ends_modify, ends_bind, ends_result]
    have hended := M.endGrowth hs hs'
    cases o with
    | error e => exact hended
    | ok growth =>
      dsimp only
      rw [ends_bind, ends_modify, ends_bind, ends_modify, ends_bind]
      have hkept := M.alike hended ((Session.Alike.committed _ pos growth.committed).trans
        (.remember _ x pos (.final growth.best)))
      cases r.graph.rule x with
      | ok found => exact M.alike hkept (.rest ..)
      | error e => cases e <;> exact hkept
  refine heeds_get.mpr ((heeds_modify _).mpr ?_)
  have hrounds : Keeps (M.Fits k (x, pos)) (M.Holds (M.grown k id (x, pos)))
      (fun work => growRounds work id x pos (r.remaining pos + 1) { best := seed }) work :=
    growRounds_keeps hwork _ _
  exact (hrounds _ (M.startGrowth x pos hs)).outcome (fun _ s' hs' => .const (hend _ s' hs'))
    (fun _ s' hs' => .const (hend _ s' hs')) fun _ _ => rfl

/-- An application that leaves its frame keeps what is known, with its head released if it has
anchored one. -/
theorem leaveWith_heeds (o : Except Stop Answer) (hs : M.Holds (M.frame k (x, pos)) s) :
    Heeds (M.Fits k (x, pos)) (fun work => leaveWith work r x pos o) work s (fun _ => M.Holds k)
      fun _ => M.Holds k := by
  refine heeds_get.mpr ((heeds_modify _).mpr ?_)
  have hplain : (∀ id, s.top ≠ some (id, true)) → M.Holds k s.leave := M.leave hs
  have hanchor : ∀ id, s.top = some (id, true) → M.Holds (M.left k id (x, pos)) s.leave :=
    fun id => M.leave_anchor hs
  generalize s.top = top at hplain hanchor
  cases o with
  | error e =>
    dsimp only
    refine .const ?_
    rw [ends_bind, ends_modify]
    rcases top with _ | ⟨id, _ | _⟩
    · exact M.alike (hplain nofun) (.rest ..)
    · exact M.alike (hplain nofun) (.rest ..)
    · exact M.release (M.alike (hanchor id rfl) (.rest ..))
  | ok a =>
    rcases top with _ | ⟨id, anchors⟩
    · exact .const (M.alike (hplain nofun) (.remember ..))
    cases anchors with
    | false => exact .const (M.alike (hplain nofun) (.remember ..))
    | true =>
      have hleft := M.alike (hanchor id rfl) (.remember s.leave x pos (.final a))
      refine (heeds_modify _).mpr (.ite (fun _ => ?_) fun _ => .const (M.release hleft))
      exact (grow_heeds hwork a hleft).outcome (fun _ _ h => .const (M.release h))
        (fun _ _ h => .const (M.release h)) fun _ _ => rfl

theorem applyFresh_heeds (hs : M.Holds k s) :
    Heeds (M.Fits k (x, pos)) (fun work => applyFresh work r x pos) work s (fun _ => M.Holds k)
      fun _ => M.Holds k :=
  (heeds_modify _).mpr ((call hwork .frame _ (M.enter x pos hs)).outcome
    (fun a _ h => leaveWith_heeds hwork (.ok a) h)
    (fun e _ h => leaveWith_heeds hwork (.error e) h) fun work s' =>
      (leaveWith_stops work r x pos .exhausted s').stops)

/-- An application keeps what is known unless it breaks it, and evaluates bodies only where it is
known. -/
theorem step_heeds (hs : M.Holds k s) (hbreaks : ¬ M.Breaks x pos s.counted) :
    Heeds (M.Fits k (x, pos)) (fun work => step work r x pos) work s
      (fun _ => M.Holds k) fun _ => M.Holds k := by
  have hcounted : M.Holds k s.counted := M.alike hs (.rest ..)
  refine Heeds.bind (P := fun _ s' => s' = s.counted)
    (.const ((tick_ends r s).mono (fun _ _ h => h) fun e s' h => ?_)) fun _ s' hs' => ?_
  · exact h.1 ▸ hcounted
  subst hs'
  refine heeds_get.mpr (.ite (fun _ => (heeds_modify _).mpr ?_) fun hel => heeds_get.mpr ?_)
  · refine (call hwork .anew _ (M.alike hcounted (.spend ..))).bind fun a s' h => .const ?_
    exact M.alike h (.remember ..)
  · cases hentry : s.counted.remembered? x pos with
    | none => exact applyFresh_heeds hwork hcounted
    | some e =>
      cases e with
      | final a => exact .const hcounted
      | inProgress number => exact .const (M.reenter hcounted hel hbreaks hentry)
      | involved seed id =>
        refine heeds_get.mpr
          (.ite (fun hunder => .const (M.involve hcounted hel hbreaks hentry hunder)) fun _ => ?_)
        refine heeds_get.mpr (.ite (fun _ => .const hcounted) fun _ => (heeds_modify _).mpr ?_)
        exact applyFresh_heeds hwork (M.alike hcounted (.rest ..))

end

end Manner

end Packrat
