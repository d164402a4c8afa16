import Packrat.Proofs.Recognition.Cycles
import Packrat.Proofs.Recognition.Marking

/-! Plain applications evaluate no body twice.

As long as no head is made, an application either finds an answer or evaluates the body of its rule,
and then its answer is remembered for good. So all evaluations that are made on the way from one
session to a later one are of what the first one remembers nothing of, and the later one remembers
these answers and what was remembered before (`Session.Logs`, `Session.Fills`). This goes from
applications over bodies to applications (`markedWithin_books`); where a head is made on the way
nothing is said, for the number of heads that were made never goes down (`headsMade`). Plain
applications make none (`apply_plain`). -/
namespace Packrat

def Event.applied? : Event → Option Span
  | .opened (.apply rule pos) => some (.apply rule pos)
  | _ => none

/-- The span of the evaluation of a rule's body at a position. -/
def Recognizer.span (r : Recognizer) (k : Key) : Except RuleError Span :=
  (Span.apply · k.2) <$> r.graph.display k.1

namespace Session
variable {r : Recognizer} {s s' s'' : Session} {ks ks' : List Key} {x : RuleId} {pos : Nat}

/-- The spans of evaluations, in the order in which they were opened. -/
def spans (s : Session) : List Span := s.log.toList.filterMap Event.applied?

/-- No head is known of. -/
structure Quiet (s : Session) : Prop where
  frames : ∀ f ∈ s.frames, f.head = none
  growing : ∀ pos : Nat, s.growing[pos]? = none
  memo : ∀ (k : Key) a id, s.memo[k]? ≠ some (.involved a id)

/-- In the later session the evaluations of these bodies are marked as well, and reported if
evaluations are traced. -/
structure Logs (r : Recognizer) (s s' : Session) (ks : List Key) : Prop where
  evaluated : s'.evaluated = s.evaluated ++ ks
  spans : r.trace = true → s'.spans.map .ok = s.spans.map .ok ++ ks.map r.span

/-- In the later session answers are remembered of all these, of which nothing was, and all else is
as it was. -/
structure Fills (s s' : Session) (ks : List Key) : Prop where
  frames : s'.frames = s.frames
  growing : s'.growing = s.growing
  nodup : ks.Nodup
  fresh : ∀ k ∈ ks, s.memo[k]? = none
  made : ∀ k ∈ ks, ∃ a, s'.memo[k]? = some (.final a)
  kept : ∀ k ∉ ks, s'.memo[k]? = s.memo[k]?

/-- All that counts for what is evaluated is the log. -/
theorem evaluated_of_log (h : s'.log = s.log) :
    s'.evaluated = s.evaluated := by rw [evaluated, h, evaluated]

theorem spans_of_log (h : s'.log = s.log) : s'.spans = s.spans := by rw [spans, h, spans]

@[simp] theorem evaluated_record (s : Session) (e : Event) :
    (s.record e).evaluated = s.evaluated ++ e.marked?.toList := by
  cases h : e.marked? <;> simp [evaluated, record, h]

@[simp] theorem spans_record (s : Session) (e : Event) :
    (s.record e).spans = s.spans ++ e.applied?.toList := by
  cases h : e.applied? <;> simp [spans, record, h]

/-- Marks are no spans of evaluations. -/
theorem spans_unmarked (s : Session) : s.unmarked.spans = s.spans := by
  have hmark : ∀ e : Event, (if e.marked? = none then e.applied? else none) = e.applied? := by
    intro e
    cases e with
    | opened span => cases span <;> rfl
    | closed | note => rfl
  simp [spans, unmarked, sift, withRecord, dropMarks, List.filterMap_filter, hmark]

theorem Logs.of_log (h : s'.log = s.log) : Logs r s s' [] :=
  ⟨by rw [evaluated_of_log h, List.append_nil],
    fun _ => by rw [spans_of_log h, List.map_nil, List.append_nil]⟩

theorem Logs.trans (h : Logs r s s' ks) (h' : Logs r s' s'' ks') : Logs r s s'' (ks ++ ks') :=
  ⟨by rw [h'.evaluated, h.evaluated, List.append_assoc],
    fun htrace => by rw [h'.spans htrace, h.spans htrace, List.map_append, List.append_assoc]⟩

theorem Fills.nothing (hframes : s'.frames = s.frames) (hgrowing : s'.growing = s.growing)
    (hmemo : s'.memo = s.memo) :
    Fills s s' [] := ⟨hframes, hgrowing, List.nodup_nil, nofun, nofun, fun _ _ => by rw [hmemo]⟩

theorem Fills.trans (h : Fills s s' ks) (h' : Fills s' s'' ks') : Fills s s'' (ks ++ ks') := by
  have hapart : ∀ k ∈ ks, k ∉ ks' := by
    intro k hk hk'
    obtain ⟨a, ha⟩ := h.made k hk
    cases ha.symm.trans (h'.fresh k hk')
  refine ⟨h'.frames.trans h.frames, h'.growing.trans h.growing, ?nodup, fun k hk => ?fresh,
    fun k hk => ?made, fun k hk => ?kept⟩
  case nodup => exact List.nodup_append.mpr ⟨h.nodup, h'.nodup,
    fun k hk k' hk' heq => hapart k hk (heq ▸ hk')⟩
  case fresh =>
    by_cases hold : k ∈ ks
    · exact h.fresh k hold
    · rw [← h.kept k hold]
      exact h'.fresh k ((List.mem_append.mp hk).resolve_left hold)
  case made =>
    by_cases hnew : k ∈ ks'
    · exact h'.made k hnew
    · rw [h'.kept k hnew]
      exact h.made k ((List.mem_append.mp hk).resolve_right hnew)
  case kept =>
    rw [List.mem_append, not_or] at hk
    rw [h'.kept k hk.2, h.kept k hk.1]

theorem Quiet.fills (hs : s.Quiet) (h : Fills s s' ks) : s'.Quiet where
  frames := h.frames ▸ hs.frames
  growing := h.growing ▸ hs.growing
  memo k a id hk := by
    by_cases hmade : k ∈ ks
    · obtain ⟨b, hb⟩ := h.made k hmade
      cases hb.symm.trans hk
    · exact hs.memo k a id (h.kept k hmade ▸ hk)

theorem Quiet.enter (hs : s.Quiet) : (s.enter x pos).Quiet where
  frames := List.forall_mem_cons.mpr ⟨rfl, hs.frames⟩
  growing := hs.growing
  memo k a id hk := by
    by_cases hown : k = (x, pos)
    · subst hown
      cases hk.symm.trans Std.HashMap.getElem?_insert_self
    · exact hs.memo k a id ((setEntry_other hown _).symm.trans hk)

/-- The answer of a body is remembered beside those that were needed for it. -/
theorem Fills.leave {a : Answer} (hs : s.Quiet) (hnone : s.memo[(x, pos)]? = none)
    (h : Fills (s.enter x pos) s' ks) :
    Fills s (s'.leave.remember x pos (.final a)) ((x, pos) :: ks) := by
  have hself : (s.enter x pos).memo[(x, pos)]? = some (.inProgress s.frames.length) :=
    Std.HashMap.getElem?_insert_self
  have hother : ∀ k, k ≠ (x, pos) → (s.enter x pos).memo[k]? = s.memo[k]? :=
    fun k hk => setEntry_other hk _
  have hown : (x, pos) ∉ ks := by
    intro hk
    cases hself.symm.trans (h.fresh _ hk)
  have hgrowing : s'.leave.growing = s.growing := h.growing
  have hremember : s'.leave.remember x pos (.final a) = s'.leave.setEntry x pos (.final a) :=
    remember_of_not_growing (hgrowing ▸ hs.growing pos) _
  have hleft : ∀ k, k ≠ (x, pos) → (s'.leave.remember x pos (.final a)).memo[k]? =
      s'.memo[k]? := fun k hk =>
    remember_other hk _
  refine ⟨?frames, hremember ▸ hgrowing, List.nodup_cons.mpr ⟨hown, h.nodup⟩, fun k hk => ?fresh,
    fun k hk => ?made, fun k hk => ?kept⟩
  case frames =>
    rw [hremember]
    exact congrArg List.tail h.frames
  case fresh =>
    rcases List.mem_cons.mp hk with rfl | hk
    · exact hnone
    · rw [← hother k fun heq => hown (heq ▸ hk)]
      exact h.fresh k hk
  case made =>
    rcases List.mem_cons.mp hk with rfl | hk
    · exact ⟨a, remember_self _⟩
    · rw [hleft k fun heq => hown (heq ▸ hk)]
      exact h.made k hk
  case kept =>
    obtain ⟨hne, hk⟩ := not_or.mp fun hor => hk (List.mem_cons.mpr hor)
    rw [hleft k hne, h.kept k hk, hother k hne]

/-- Unless a head was made, all that was evaluated up to the later session was evaluated once, and
is remembered there. -/
def Balanced (r : Recognizer) (s s' : Session) : Prop :=
  s'.nextHead = s.nextHead → ∃ ks, Logs r s s' ks ∧ Fills s s' ks

/-- What is known of any two sessions of a run. -/
structure Books (r : Recognizer) (s s' : Session) : Prop where
  heads : s.nextHead ≤ s'.nextHead
  balanced : s.Quiet → s.Balanced r s'

theorem Books.refl (s : Session) : s.Books r s :=
  ⟨Nat.le_refl _, fun _ _ => ⟨[], .of_log rfl, .nothing rfl rfl rfl⟩⟩

theorem Books.trans (h : s.Books r s') (h' : s'.Books r s'') : s.Books r s'' := by
  refine ⟨Nat.le_trans h.heads h'.heads, fun hs hsame => ?_⟩
  obtain ⟨ks, hlogs, hfills⟩ := h.balanced hs (Nat.le_antisymm (hsame ▸ h'.heads) h.heads)
  obtain ⟨ks', hlogs', hfills'⟩ :=
    h'.balanced (hs.fills hfills) (Nat.le_antisymm (hsame ▸ h.heads) h'.heads)
  exact ⟨ks ++ ks', hlogs.trans hlogs', hfills.trans hfills'⟩

end Session

open Session

/-! ### Heads that were made -/

theorem nextHead_reenter (s : Session) (number : Nat) :
    s.nextHead ≤ (s.reenter number).nextHead := by
  refine reenter_cases (P := fun s' => s.nextHead ≤ s'.nextHead) (Nat.le_refl _)
    (fun _ id _ _ => ?_) fun f _ _ => ?_
  · exact (nextHead_involve s id).ge
  · rw [nextHead_involve]
    exact Nat.le_succ _

/-- At least so many heads have been made. -/
def headsMade : Manner HeadId where
  Holds n s := n ≤ s.nextHead
  Breaks _ _ _ := False
  frame n _ := n
  left n _ _ := n
  grown n _ _ := n
  alike hn halike := halike.next ▸ hn
  enter _ _ hn := hn
  leave hn _ := hn
  leave_anchor hn _ := hn
  startGrowth _ _ hn := hn
  endGrowth _ hn := Nat.le_trans hn (Alike.discard ..).next.ge
  release hn := hn
  reenter hn _ _ _ := Nat.le_trans hn (nextHead_reenter ..)
  involve hn _ _ _ _ := (nextHead_involve ..).symm ▸ hn

namespace Recognizer
variable {r : Recognizer} {x : RuleId} {pos : Nat}

theorem nextHead_le (c : Call) : c.session.nextHead ≤ (c.run r).2.nextHead :=
  (headsMade.kept (k := c.session.nextHead) (fun _ _ _ => id) (Nat.le_refl _)).ends

theorem nextHead_markedWithin (r : Recognizer) (depth : Nat) (x : RuleId) (pos : Nat)
    (s : Session) : s.nextHead ≤ (r.markedWithin depth x pos s).2.nextHead := by
  have hsame := congrArg Session.nextHead (markedWithin_sameBut r depth x pos s s rfl).2
  exact Nat.le_trans (nextHead_le ⟨.apply, depth, x, pos, s⟩) hsame.ge

theorem nextHead_markedBody (r : Recognizer) (depth : Nat) (x : RuleId) (pos : Nat) (s : Session) :
    s.nextHead ≤ (markedBody (r.markedWithin depth) r x pos s).2.nextHead := by
  have hsame := congrArg Session.nextHead
    (markedBody_sameBut (r := r) (markedWithin_sameBut r depth) x pos s s rfl).2
  exact Nat.le_trans (nextHead_le ⟨.evaluate, depth, x, pos, s⟩) hsame.ge

/-! ### Bodies -/

/-- The work keeps books wherever it begins. -/
def Booked (r : Recognizer) {α : Type} (w : Recognition α) : Prop :=
  ∀ s, Ends w s (fun _ s' => s.Books r s') fun _ _ => True

theorem booked_compositional (r : Recognizer) (work : Work) :
    Compositional fun w => Booked r (w work) where
  pure _ s := Books.refl s
  throw _ _ := trivial
  bind h hf s := by
    rw [ends_bind]
    exact (h s).mono (fun a s' hs' => (hf a s').mono (fun _ _ hs'' => hs'.trans hs'')
      fun _ _ _ => trivial) fun _ _ _ => trivial

/-- The same, where the evaluation of one more body is marked, which is not answered for yet. -/
structure Evaluated (r : Recognizer) (k : Key) (s s' : Session) : Prop where
  heads : s.nextHead ≤ s'.nextHead
  balanced : s.Quiet → s'.nextHead = s.nextHead → ∃ ks, Logs r s s' (k :: ks) ∧ Fills s s' ks

/-- What is written into the log before a body and after it does not matter, but for its own
mark. -/
theorem evaluated_of_books {k : Key} {s t : Session} {log log' : Array Event} {steps steps' : Nat}
    (h : (s.withRecord log steps).Books r t) (hopen : Logs r s (s.withRecord log steps) [k])
    (hclose : Logs r t (t.withRecord log' steps') []) :
    Evaluated r k s (t.withRecord log' steps') := by
  refine ⟨h.heads, fun hs hsame => ?_⟩
  obtain ⟨ks, hlogs, hfills⟩ := h.balanced ⟨hs.frames, hs.growing, hs.memo⟩ hsame
  have hall := (hopen.trans hlogs).trans hclose
  rw [List.append_nil] at hall
  exact ⟨ks, hall, hfills.frames, hfills.growing, hfills.nodup, hfills.fresh, hfills.made,
    hfills.kept⟩

theorem markedBody_evaluated {work : Work} (hwork : ∀ y q, Booked r (work y q)) (x : RuleId)
    (pos : Nat) (s : Session) :
    Ends (markedBody work r x pos) s (fun _ s' => Evaluated r (x, pos) s s') fun _ _ => True := by
  have hbody : Booked r (body work r x pos) := (booked_compositional r work).body hwork x pos
  rw [markedBody, ends_bind, ends_record, tracedBody]
  by_cases htrace : r.trace = true
  · rw [if_pos htrace, ends_bind]
    cases hdisplay : r.graph.display x with
    | error e => cases e <;> trivial
    | ok text =>
      rw [show orStop (.ok text) x = pure text from rfl, ends_pure, ends_bind, ends_record,
        ends_bind, ends_note, ends_bind, ends_outcomeOf]
      have hspan : r.span (x, pos) = .ok (.apply text pos) := by rw [span, hdisplay]; rfl
      have hopen : ∀ n,
          Logs r s (((s.record (.mark (x, pos))).record (.opened (.apply text pos))).record
          (.note n)) [(x, pos)] := fun n =>
        ⟨by simp [Event.mark, Event.marked?], fun _ => by simp [Event.mark, Event.applied?, hspan]⟩
      have hclose : ∀ s' n, Logs r s' ((s'.record (.note n)).record (.closed (.apply text pos)))
          [] := fun s' n =>
        ⟨by simp [Event.marked?], fun _ => by simp [Event.applied?]⟩
      refine (hbody _).mono (fun a s' h => ?_) fun e _ _ => by cases e <;> trivial
      exact evaluated_of_books (t := s') h (hopen _) (hclose s' _)
  · rw [if_neg htrace]
    have hopen : Logs r s (s.record (.mark (x, pos))) [(x, pos)] :=
      ⟨by simp [Event.mark, Event.marked?], fun htrue => absurd htrue htrace⟩
    exact (hbody _).mono (fun a s' h => evaluated_of_books (t := s') h hopen (.of_log rfl))
      fun _ _ _ => trivial

/-! ### Applications -/

section
variable {eval : Work} {s : Session} (hs : s.Quiet)
  (heval : ∀ t, Ends (eval x pos) t (fun _ s' => Evaluated r (x, pos) t s') fun _ _ => True)
  (hmade : ∀ n t, n ≤ t.nextHead → n ≤ (eval x pos t).2.nextHead)
include hs heval hmade

/-- An application of which nothing is remembered answers for its body, and for all that was
evaluated for it. -/
theorem applyFresh_books (hnone : s.memo[(x, pos)]? = none) :
    Ends (applyFresh eval r x pos) s (fun _ s' => s.Balanced r s') fun _ _ => True := by
  rw [applyFresh, ends_bind, ends_modify, ends_bind, ends_outcomeOf]
  refine (heval (s.enter x pos)).mono (fun a s₁ h => ?_) fun e s₁ _ => ?_
  · by_cases hsame : s₁.nextHead = s.nextHead
    · obtain ⟨ks, hlogs, hfills⟩ := h.balanced hs.enter hsame
      have htop : s₁.top = none := by
        rw [Session.top, hfills.frames]
        rfl
      rw [leaveWith, ends_bind, ends_get, ends_bind, ends_modify, htop]
      refine fun _ => ⟨(x, pos) :: ks, ?_, hfills.leave hs hnone⟩
      have henter : Logs r s (s.enter x pos) [] := .of_log rfl
      have hleave : Logs r s₁ (s₁.leave.remember x pos (.final a)) [] :=
        .of_log ((remember_blind x pos _).keeps s₁.leave).1
      have hall := (henter.trans hlogs).trans hleave
      rwa [List.append_nil] at hall
    · -- A head was made, and the frame is left with it or grows.
      have hlt : s.nextHead + 1 ≤ s₁.nextHead :=
        Nat.lt_of_le_of_ne h.heads fun heq => hsame heq.symm
      have hheeds : Heeds (headsMade.Fits (s.nextHead + 1) (x, pos))
          (fun work => leaveWith work r x pos (.ok a)) eval s₁
          (fun _ s' => s.nextHead + 1 ≤ s'.nextHead) fun _ s' => s.nextHead + 1 ≤ s'.nextHead :=
        headsMade.leaveWith_heeds (fun n _ t hn => ends_session.mpr (hmade n t hn)) (.ok a) hlt
      exact hheeds.ends.mono (fun _ s' hle heq => absurd (heq ▸ hle) (Nat.not_succ_le_self _))
        fun _ _ _ => trivial
  · exact (leaveWith_stops eval r x pos e s₁).mono (fun _ _ h => h.elim) fun _ _ _ => trivial

/-- An application that ends in a session in which no more heads were made has not met its rule
under way, or involved. -/
theorem step_books (hlimit : r.stepLimit = none) :
    Ends (step eval r x pos) s (fun _ s' => s.Balanced r s') fun _ _ => True := by
  have hcounted : s.counted.Quiet := ⟨hs.frames, hs.growing, hs.memo⟩
  have hlog : Logs r s s.counted [] := .of_log rfl
  have hsame : Fills s s.counted [] := .nothing rfl rfl rfl
  rw [step, ends_bind, ends_tick hlimit, ends_bind, ends_get,
    if_neg (not_eligible (hcounted.growing pos)), ends_bind, ends_get]
  cases hentry : s.counted.remembered? x pos with
  | none =>
    refine (applyFresh_books hcounted heval hmade hentry).mono (fun _ s' h hnext => ?_)
      fun _ _ _ => trivial
    obtain ⟨ks, hlogs, hfills⟩ := h hnext
    exact ⟨ks, hlog.trans hlogs, hsame.trans hfills⟩
  | some e =>
    cases e with
    | final a => exact fun _ => ⟨[], hlog, hsame⟩
    | involved seed id => exact absurd hentry (hs.memo (x, pos) seed id)
    | inProgress number =>
      dsimp only
      rw [ends_bind, ends_modify]
      have hknown : ∀ f, s.counted.frame? number = some f → f.head = none := fun f hf =>
        hs.frames f (List.mem_reverse.mp (List.mem_of_getElem? hf))
      refine reenter_cases (P := s.Balanced r) ?_ (fun f id hf hhead => ?_) fun f _ _ hmade => ?_
      · exact fun _ => ⟨[], hlog, hsame⟩
      · cases (hknown f hf).symm.trans hhead
      · rw [nextHead_involve] at hmade
        exact absurd hmade (Nat.succ_ne_self _)

end

theorem markedWithin_books (hlimit : r.stepLimit = none) (depth : Nat) (x : RuleId) (pos : Nat) :
    Booked r (r.markedWithin depth x pos) := by
  induction depth generalizing x pos with
  | zero => exact fun _ => trivial
  | succ depth ih =>
    intro s
    have hmade : Ends (r.markedWithin (depth + 1) x pos) s (fun _ s' => s.nextHead ≤ s'.nextHead)
        fun _ s' => s.nextHead ≤ s'.nextHead := ends_session.mpr (nextHead_markedWithin ..)
    by_cases hs : s.Quiet
    · have hbooks := step_books hs (markedBody_evaluated ih x pos)
        (fun n t hn => Nat.le_trans hn (nextHead_markedBody ..)) hlimit
      exact (hmade.and hbooks).mono (fun _ s' h => ⟨h.1, fun _ => h.2⟩) fun _ _ _ => trivial
    · exact hmade.mono (fun _ _ hle => ⟨hle, fun hquiet => absurd hquiet hs⟩) fun _ _ _ => trivial

theorem markedApply_books (hlimit : r.stepLimit = none) (x : RuleId) (pos : Nat) :
    Booked r (r.markedApply x pos) := by
  rw [markedApply]
  split
  · exact markedWithin_books hlimit _ x pos
  · exact fun _ => trivial

/-! ### Whole sessions -/

theorem quiet_start : ({} : Session).Quiet :=
  ⟨nofun, fun _ => Std.HashMap.getElem?_empty, fun k _ _ => memo_start k _⟩

/-- Where a session remembers something of these keys and of no others, it remembers as much as
there are keys. -/
theorem size_memo {s : Session} {ks : List Key} (hnodup : ks.Nodup)
    (hks : ∀ k, k ∈ s.memo ↔ k ∈ ks) : s.memo.size = ks.length := by
  have hperm : s.memo.keys.Perm ks :=
    (List.perm_ext_iff_of_nodup Std.HashMap.nodup_keys hnodup).mpr
    fun k => by rw [Std.HashMap.mem_keys, hks]
  rw [← Std.HashMap.length_keys, hperm.length_eq]

section
variable (hclosed : r.graph.Closed) (hlimit : r.stepLimit = none)
include hclosed hlimit

/-- Plain applications that answer make no head, and evaluate no body of which anything is
remembered. -/
theorem markedAfter_books {calls : List (RuleId × Nat)} {s t : Session}
    (hst : s.unmarked = t.unmarked) (hs : s.Quiet) (ht : Disciplined r {} t)
    (hunbiased : t.Unbiased r) (hplain : ∀ call ∈ calls, ∃ result, r.Plain call.1 call.2 result)
    (hanswers : ∀ outcome ∈ r.applyAll calls t, ∃ a, outcome = .ok a) :
    t.Aside r (r.sessionAfter calls t) ∧
      ∃ ks, Logs r s (r.markedAfter calls s) ks ∧ Fills s (r.markedAfter calls s) ks := by
  induction calls generalizing s t with
  | nil => exact ⟨.refl t, [], .of_log rfl, .nothing rfl rfl rfl⟩
  | cons call rest ih =>
    obtain ⟨x, pos⟩ := call
    obtain ⟨⟨result, hcall⟩, hrest⟩ := List.forall_mem_cons.mp hplain
    obtain ⟨⟨a, ha⟩, hlater⟩ := List.forall_mem_cons.mp hanswers
    obtain ⟨_, haside⟩ := apply_plain hlimit (hclosed.closedFrom x) hcall ht hunbiased
    obtain ⟨houtcome, hafter⟩ := markedApply_sameBut r x pos s t hst
    have hnext : s.nextHead = t.nextHead := (congrArg Session.nextHead hst :)
    have hnext' : (r.markedApply x pos s).2.nextHead = (r.apply x pos t).2.nextHead :=
      (congrArg Session.nextHead hafter :)
    have hbooks := (markedApply_books hlimit x pos s).of_ok (houtcome.trans ha)
    obtain ⟨ks, hlogs, hfills⟩ := hbooks.balanced hs (by rw [hnext', haside.nextHead, hnext])
    obtain ⟨haside', ks', hlogs', hfills'⟩ :=
      ih hafter (hs.fills hfills) (apply_disciplined x pos ht) (haside.unbiased hunbiased)
      hrest hlater
    exact ⟨haside.trans haside', ks ++ ks', hlogs.trans hlogs', hfills.trans hfills'⟩

/-- In a session of plain applications that all answer no body is evaluated twice for the same rule
and position, and no head is made. There is an entry for each body that was evaluated, and for
nothing else; and where evaluations are traced, the spans are those of these bodies in the same
order. What is evaluated is seen from marks, which are all that the marked session has more. -/
theorem applyAll_once {calls : List (RuleId × Nat)}
    (hplain : ∀ call ∈ calls, ∃ result, r.Plain call.1 call.2 result)
    (hanswers : ∀ outcome ∈ r.applyAll calls {}, ∃ a, outcome = .ok a) :
    let s := r.sessionAfter calls {}
    let marked := r.markedAfter calls {}
    marked.unmarked = s.unmarked ∧ marked.evaluated.Nodup ∧ s.nextHead = 0 ∧
    s.heads.isEmpty = true ∧
      s.memo.size = marked.evaluated.length ∧ (∀ k, k ∈ s.memo ↔ k ∈ marked.evaluated) ∧
      (r.trace = true → s.spans.map .ok = marked.evaluated.map r.span) := by
  intro s marked
  obtain ⟨haside, ks, hlogs, hfills⟩ :=
    markedAfter_books hclosed hlimit rfl quiet_start (.start r) (unbiased_start r) hplain hanswers
  have hsame : marked.unmarked = s.unmarked := unmarked_markedAfter r calls rfl
  have hmemo : marked.memo = s.memo := (congrArg Session.memo hsame :)
  have hevaluated : marked.evaluated = ks := hlogs.evaluated
  have hkeys : ∀ k, k ∈ s.memo ↔ k ∈ marked.evaluated := by
    intro k
    rw [hevaluated, Std.HashMap.mem_iff_isSome_getElem?, ← hmemo]
    by_cases hk : k ∈ ks
    · obtain ⟨a, ha⟩ := hfills.made k hk
      simp [marked, ha, hk]
    · have hnone : marked.memo[k]? = none := (hfills.kept k hk).trans Std.HashMap.getElem?_empty
      simp [hnone, hk]
  have hnodup : marked.evaluated.Nodup := hevaluated ▸ hfills.nodup
  refine ⟨hsame, hnodup, haside.nextHead, ?heads, size_memo hnodup hkeys, hkeys,
    fun htrace => ?spans⟩
  case heads =>
    rw [Std.HashMap.isEmpty_iff_forall_not_mem]
    intro id hid
    have hnone : s.heads[id]? = none :=
      Option.map_eq_none_iff.mp ((haside.heads id).trans (by simp))
    rw [Std.HashMap.mem_iff_isSome_getElem?, hnone] at hid
    cases hid
  case spans =>
    rw [← spans_unmarked, ← hsame, spans_unmarked, hevaluated]
    exact hlogs.spans htrace

end

set_option maxRecDepth 20000 in
/-- The item at the end of the input is found again by the repetition, and all of the repetition by
the application after it. -/
theorem applyAll_once_items :
    let g : RuleGraph := ⟨#[⟨"items", .repetition ⟨1⟩, {}⟩, ⟨"item", .literal "x", {}⟩]⟩
    let r : Recognizer := { graph := g, buffer := .ofList ['x', 'x'], trace := true }
    let calls : List (RuleId × Nat) := [(⟨1⟩, 2), (⟨0⟩, 0), (⟨0⟩, 0)]
    let s := r.sessionAfter calls {}
    let marked := r.markedAfter calls {}
    g.Closed ∧ r.stepLimit = none ∧ (∀ call ∈ calls, ∃ result, r.Plain call.1 call.2 result) ∧
      (∀ outcome ∈ r.applyAll calls {}, ∃ a, outcome = .ok a) ∧ s.steps = 6 ∧
      marked.evaluated = [(⟨1⟩, 2), (⟨0⟩, 0), (⟨1⟩, 0), (⟨1⟩, 1)] ∧ marked.unmarked = s.unmarked ∧
      marked.evaluated.Nodup ∧ s.nextHead = 0 ∧ s.memo.size = 4 ∧
      s.spans.map .ok = marked.evaluated.map r.span := by
  intro g r calls s marked
  have hclosed : g.Closed := by decide
  have hplain : ∀ call ∈ calls, ∃ result, r.Plain call.1 call.2 result := by
    simp only [calls, List.forall_mem_cons]
    exact ⟨⟨_, 1, rfl⟩, ⟨_, 4, rfl⟩, ⟨_, 4, rfl⟩, nofun⟩
  have hanswers : ∀ outcome ∈ r.applyAll calls {}, ∃ a, outcome = .ok a := by
    have houtcomes : r.applyAll calls {} = [.ok (.fail ⟨1⟩ 2),
        .ok (.node ⟨0⟩ 0 2 [.node ⟨1⟩ 0 1 [], .node ⟨1⟩ 1 1 []]),
        .ok (.node ⟨0⟩ 0 2 [.node ⟨1⟩ 0 1 [], .node ⟨1⟩ 1 1 []])] := by cbv
    rw [houtcomes]
    simp
  have hsteps : (r.sessionAfter calls {}).steps = 6 := by cbv
  have hevaluated : (r.markedAfter calls {}).evaluated = [(⟨1⟩, 2), (⟨0⟩, 0), (⟨1⟩, 0),
      (⟨1⟩, 1)] := by cbv
  obtain ⟨hsame, hnodup, hheads, _, hsize, _, hspans⟩ := applyAll_once hclosed rfl hplain hanswers
  exact ⟨hclosed, rfl, hplain, hanswers, hsteps, hevaluated, hsame, hnodup, hheads,
    hsize.trans (congrArg _ hevaluated), hspans rfl⟩

end Recognizer

end Packrat
