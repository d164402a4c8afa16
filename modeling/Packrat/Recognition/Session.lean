import Packrat.Recognition.Event

/-! The state of a recognition: remembered answers, and what is known of the applications under way.

Each application under way has a frame. When a rule is applied again where it is still
being applied, the frame of the first application becomes the anchor of a head, and
every frame above it is involved in that head. What an involved rule answers holds
only as long as the anchor's answer does; so it is remembered as such, and the rule
is evaluated anew in each round in which the anchor's answer grows. -/
namespace Packrat

/-- Heads are numbered, and no number is used twice. -/
abbrev HeadId := Nat

/-- An application under way. -/
structure Frame where
  rule : RuleId
  pos : Nat
  /-- The head that the frame anchors or is involved in. -/
  head : Option HeadId := none
deriving DecidableEq, Repr

def Frame.join (f : Frame) (id : HeadId) : Frame := { f with head := some id }

/-- A cycle of applications at one position, known by its anchor. -/
structure Head where
  rule : RuleId
  pos : Nat
  /-- The rules between the anchor and its second application. -/
  involved : List RuleId := []
  /-- The involved rules that are still to be evaluated anew in this round of growth. -/
  eligible : List RuleId := []
  /-- The rules whose answers at the position were remembered in this round. -/
  written : List RuleId := []
deriving DecidableEq, Repr

def Head.isAnchor (h : Head) (rule : RuleId) (pos : Nat) : Bool := h.rule = rule && h.pos = pos

/-- What is remembered of a rule at a position. -/
inductive Entry where
  /-- The rule is under way, in the frame of this number. -/
  | inProgress (frame : Nat)
  /-- The answer of a rule that was involved in a head. -/
  | involved (seed : Answer) (head : HeadId)
  | final (answer : Answer)

structure Session where
  memo : Std.HashMap (RuleId × Nat) Entry := ∅
  /-- The applications under way, the innermost first. -/
  frames : List Frame := []
  heads : Std.HashMap HeadId Head := ∅
  nextHead : HeadId := 0
  /-- The head that grows at a position. -/
  growing : Std.HashMap Nat HeadId := ∅
  /-- How often a rule was applied. -/
  steps : Nat := 0
  log : Array Event := #[]

namespace Session

def record (s : Session) (e : Event) : Session := { s with log := s.log.push e }

def modifyHead (s : Session) (id : HeadId) (f : Head → Head) : Session :=
  match s.heads[id]? with
  | some h => { s with heads := s.heads.insert id (f h) }
  | none => s

def remembered? (s : Session) (rule : RuleId) (pos : Nat) : Option Entry := s.memo[(rule, pos)]?

def setEntry (s : Session) (rule : RuleId) (pos : Nat) (e : Entry) : Session :=
  { s with memo := s.memo.insert (rule, pos) e }

def dropEntry (s : Session) (rule : RuleId) (pos : Nat) : Session :=
  { s with memo := s.memo.erase (rule, pos) }

/-- Remembers an entry, and that it was made while a head grows at the position, if one does. -/
def remember (s : Session) (rule : RuleId) (pos : Nat) (e : Entry) : Session :=
  let s := s.setEntry rule pos e
  match s.growing[pos]? with
  | some id => s.modifyHead id fun h => { h with written := rule :: h.written }
  | none => s

/-! ### Frames and heads -/

def enter (s : Session) (rule : RuleId) (pos : Nat) : Session :=
  { s with frames := { rule, pos } :: s.frames }.setEntry rule pos (.inProgress s.frames.length)

/-- The frame of a number; the outermost is number 0. -/
def frame? (s : Session) (number : Nat) : Option Frame := s.frames.reverse[number]?

/-- The innermost frame's head, with whether the frame anchors it. -/
def top (s : Session) : Option (HeadId × Bool) := do
  let frame ← s.frames.head?
  let id ← frame.head
  return (id, (s.heads[id]?).any (·.isAnchor frame.rule frame.pos))

def leave (s : Session) : Session := { s with frames := s.frames.tail }

def release (s : Session) (id : HeadId) : Session := { s with heads := s.heads.erase id }

/-- The frames with those from the innermost up to the first that belongs to the head involved in it. -/
def joinFrames (id : HeadId) : List Frame → List Frame
  | [] => []
  | f :: rest => if f.head = some id then f :: rest else f.join id :: joinFrames id rest

/-- The rules of the frames from the innermost up to the first that belongs to the head. -/
def rulesAbove (id : HeadId) (frames : List Frame) : List RuleId :=
  (frames.takeWhile fun f => f.head ≠ some id).map (·.rule)

/-- Involves the frames from the innermost up to the first that belongs to the head already. -/
def involve (s : Session) (id : HeadId) : Session :=
  match s.heads[id]? with
  | some h =>
    let involved := (rulesAbove id s.frames).foldl (·.insert ·) h.involved
    { s with
      frames := joinFrames id s.frames
      heads := s.heads.insert id { h with involved } }
  | none => s

/-- Gives the frame of a number a head. -/
def setHead (number : Nat) (id : HeadId) (frames : List Frame) : List Frame :=
  (frames.reverse.modify number (·.join id)).reverse

/-- A rule is applied again where it is under way, in the frame of this number: that frame anchors a new
head, unless it belongs to one, and the frames above are involved. -/
def reenter (s : Session) (number : Nat) : Session :=
  match s.frame? number with
  | none => s
  | some frame =>
    match frame.head with
    | some id => s.involve id
    | none =>
      let id := s.nextHead
      { s with
        nextHead := id + 1
        heads := s.heads.insert id { rule := frame.rule, pos := frame.pos }
        frames := setHead number id s.frames }.involve id

/-- Whether the anchor of a head is under way. -/
def anchorUnderWay (s : Session) (id : HeadId) : Bool :=
  match s.heads[id]? with
  | some h => s.frames.any fun f => f.head = some id && h.isAnchor f.rule f.pos
  | none => false

/-! ### Growth -/

def growsAt (s : Session) (pos : Nat) (id : HeadId) : Bool := s.growing[pos]? == some id

/-- Whether the rule is to be evaluated anew in this round of the head that grows at the position. -/
def isEligible (s : Session) (rule : RuleId) (pos : Nat) : Bool :=
  ((s.growing[pos]?).bind (s.heads[·]?)).any (·.eligible.contains rule)

/-- The rule is evaluated anew only once in a round. -/
def spend (s : Session) (rule : RuleId) (pos : Nat) : Session :=
  match s.growing[pos]? with
  | some id => s.modifyHead id fun h => { h with eligible := h.eligible.erase rule }
  | none => s

/-- Forgets what was remembered in this round, but for the anchor's answer. -/
def discard (s : Session) (id : HeadId) (anchor : RuleId) (pos : Nat) : Session :=
  let written := ((s.heads[id]?).map (·.written)).getD []
  (written.filter (· ≠ anchor)).foldl (·.dropEntry · pos) <|
    s.modifyHead id fun h => { h with written := [] }

def startGrowth (s : Session) (id : HeadId) (pos : Nat) : Session :=
  { s with growing := s.growing.insert pos id }

/-- Every involved rule becomes eligible, and what the last round remembered is forgotten. -/
def startRound (s : Session) (id : HeadId) (anchor : RuleId) (pos : Nat) : Session :=
  (s.discard id anchor pos).modifyHead id fun h => { h with eligible := h.involved }

/-- What was remembered in this round, as it is now. -/
def writtenEntries (s : Session) (id : HeadId) (pos : Nat) : List (RuleId × Entry) :=
  (((s.heads[id]?).map (·.written)).getD []).filterMap fun rule =>
    (s.remembered? rule pos).map fun e => (rule, e)

/-- Forgets the last round, and lets the head grow on that grew at the position before. -/
def endGrowth (s : Session) (id : HeadId) (anchor : RuleId) (pos : Nat) (outer : Option HeadId) :
    Session :=
  let s := s.discard id anchor pos
  { s with
    growing := match outer with
      | some outer => s.growing.insert pos outer
      | none => s.growing.erase pos }

end Session

end Packrat
