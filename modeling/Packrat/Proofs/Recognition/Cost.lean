import Packrat.Proofs.Recognition.Scene
import Packrat.Proofs.Recognition.Justified
import Packrat.Proofs.Rules.Closed

/-! How deep applications can still go inside of each other.

At one position a rule is under way at most once, and a rule that is on offer is evaluated
anew at most once for each growth. So the rules that are not under way, each with room
for all rules that its growth may offer, and the rules on offer bound the depth at a
position (`Scene.room`); with the bytes that are left this bounds the depth altogether
(`Recognizer.cost`). Every application made for a body costs less than the application
whose body it is. -/
namespace Packrat

namespace Scene

/-- How many rules of the graph are under way at a position. -/
def busy (g : RuleGraph) (c : Scene) (pos : Nat) : Nat :=
  g.ids.countP fun x => (keys c.trail).contains (x, pos)

/-- At most how many rules are on offer at a position. -/
def offers (c : Scene) (pos : Nat) : Nat :=
  match growingAt c.trail pos with
  | some id => c.caps id
  | none => 0

def room (g : RuleGraph) (c : Scene) (pos : Nat) : Nat :=
  (g.size - c.busy g pos) * (g.size + 1) + c.offers pos

end Scene

/-- More than the room that there is at any position. -/
def RuleGraph.capacity (g : RuleGraph) : Nat := (g.size + 1) * (g.size + 1)

/-- More than the number of applications that an application may be made inside of. -/
def Recognizer.cost (r : Recognizer) (c : Scene) (pos : Nat) : Nat :=
  (r.buffer.size + 1 - pos) * r.graph.capacity + c.room r.graph pos

variable {g : RuleGraph} {c : Scene} {x : RuleId} {pos : Nat} {id : HeadId}

theorem busy_push_lt (hx : g.contains x = true) (hkey : (x, pos) ∉ Scene.keys c.trail)
    (o : Option HeadId) : c.busy g pos < (c.push ⟨x, pos, o⟩).busy g pos := by
  refine countP_lt (fun y _ hy => ?_) (RuleGraph.mem_ids hx) ?_ (by simpa using hkey)
  · exact List.contains_iff_mem.mpr (List.mem_cons_of_mem _ (List.contains_iff_mem.mp hy))
  · exact List.contains_iff_mem.mpr (List.mem_cons_self ..)

theorem busy_le : c.busy g pos ≤ g.size := by
  rw [← RuleGraph.length_ids]
  exact List.countP_le_length

/-- A rule takes up more room than its growth may offer. -/
theorem room_mul_lt (hx : g.contains x = true) (hkey : (x, pos) ∉ Scene.keys c.trail)
    (o : Option HeadId) :
    (g.size - (c.push ⟨x, pos, o⟩).busy g pos) * (g.size + 1) + g.size <
      (g.size - c.busy g pos) * (g.size + 1) := by
  have hlt := busy_push_lt hx hkey o
  have hle : (c.push ⟨x, pos, o⟩).busy g pos ≤ g.size := busy_le
  obtain ⟨k, hk⟩ : ∃ k, g.size - c.busy g pos = k + 1 := ⟨g.size - c.busy g pos - 1, by omega⟩
  have hmul : (g.size - (c.push ⟨x, pos, o⟩).busy g pos) * (g.size + 1) ≤ k * (g.size + 1) :=
    Nat.mul_le_mul_right _ (by omega)
  rw [hk, Nat.succ_mul]
  omega

theorem room_frame_lt (hx : g.contains x = true) (hkey : (x, pos) ∉ Scene.keys c.trail) :
    (c.push ⟨x, pos, none⟩).room g pos < c.room g pos := by
  have h := room_mul_lt hx hkey none
  have ho : (c.push ⟨x, pos, none⟩).offers pos = c.offers pos := by
    simp only [Scene.offers, show growingAt (c.push ⟨x, pos, none⟩).trail pos =
      growingAt c.trail pos from growingAt_frame ..]
    rfl
  rw [Scene.room, Scene.room, ho]
  omega

theorem room_growth_lt (hx : g.contains x = true) (hkey : (x, pos) ∉ Scene.keys c.trail) :
    ((c.cap id g.size).push ⟨x, pos, some id⟩).room g pos < c.room g pos := by
  have h := room_mul_lt (c := c.cap id g.size) hx hkey (some id)
  have ho : ((c.cap id g.size).push ⟨x, pos, some id⟩).offers pos = g.size := by
    have hgrow : growingAt ((c.cap id g.size).push ⟨x, pos, some id⟩).trail pos = some id := by
      show growingAt (⟨x, pos, some id⟩ :: c.trail) pos = some id
      rw [growingAt_growth, if_pos rfl]
    rw [Scene.offers, hgrow]
    show (if id = id then g.size else c.caps id) = g.size
    rw [if_pos rfl]
  rw [Scene.room, Scene.room, ho]
  exact Nat.lt_add_right _ h

theorem room_spend_lt (hgrowing : growingAt c.trail pos = some id) (hcap : 0 < c.caps id) :
    (c.cap id (c.caps id - 1)).room g pos < c.room g pos := by
  have hgrowing' : growingAt (c.cap id (c.caps id - 1)).trail pos = some id := hgrowing
  have hbusy : (c.cap id (c.caps id - 1)).busy g pos = c.busy g pos := rfl
  rw [Scene.room, Scene.room, hbusy, Scene.offers, Scene.offers, hgrowing, hgrowing']
  simp only [Scene.cap, if_pos]
  omega

theorem room_ahead_lt (hpos : ∀ a ∈ c.trail, a.pos ≠ pos) : c.room g pos < g.capacity := by
  rw [Scene.room, Scene.offers, growingAt_eq_none hpos, RuleGraph.capacity]
  exact Nat.lt_of_le_of_lt (Nat.mul_le_mul_right _ (Nat.sub_le _ _))
    (Nat.mul_lt_mul_of_pos_right (Nat.lt_succ_self _) (Nat.succ_pos _))

namespace Recognizer
variable {r : Recognizer}

theorem cost_lt {c' : Scene} (h : c'.room r.graph pos < c.room r.graph pos) :
    r.cost c' pos < r.cost c pos :=
  Nat.add_lt_add_left h _

/-- A body costs less than the application that it is evaluated for. -/
theorem cost_frame_lt {d : Nat} (hkey : (x, pos) ∉ Scene.keys c.trail)
    (hcost : r.cost c pos < d + 1) (hx : r.graph.contains x = true) :
    r.cost (c.push ⟨x, pos, none⟩) pos < d :=
  Nat.lt_of_lt_of_le (cost_lt (room_frame_lt hx hkey)) (Nat.le_of_lt_succ hcost)

/-- So does a body in a round of growth. -/
theorem cost_growth_lt {d : Nat} (hkey : (x, pos) ∉ Scene.keys c.trail)
    (hcost : r.cost c pos < d + 1) (hx : r.graph.contains x = true) :
    r.cost ((c.cap id r.graph.size).push ⟨x, pos, some id⟩) pos < d :=
  Nat.lt_of_lt_of_le (cost_lt (room_growth_lt hx hkey)) (Nat.le_of_lt_succ hcost)

/-- To go on further ahead never costs more. -/
theorem cost_ahead {q : Nat} (hpos : ∀ a ∈ c.trail, a.pos ≤ pos) (h : r.Ahead pos q) :
    r.cost c q ≤ r.cost c pos := by
  rcases h with rfl | ⟨hlt, hle⟩
  · exact Nat.le_refl _
  · have hroom : c.room r.graph q < r.graph.capacity := room_ahead_lt fun a ha =>
      Nat.ne_of_lt (Nat.lt_of_le_of_lt (hpos a ha) hlt)
    obtain ⟨k, hk⟩ : ∃ k, r.buffer.size + 1 - pos = r.buffer.size + 1 - q + 1 + k :=
      ⟨q - pos - 1, by omega⟩
    rw [cost, cost, hk, Nat.add_mul, Nat.succ_mul]
    omega

theorem cost_start_lt (pos : Nat) : r.cost {} pos < r.depthBound := by
  have hroom : ({} : Scene).room r.graph pos < r.graph.capacity :=
    room_ahead_lt fun a ha => nomatch ha
  have hbytes : (r.buffer.size + 1 - pos) * r.graph.capacity ≤
      (r.buffer.size + 1) * r.graph.capacity := Nat.mul_le_mul_right _ (Nat.sub_le _ _)
  have hcapacity : r.graph.capacity ≤
      (r.graph.size + 2) * (r.graph.size + 2) * (r.graph.size + 2) :=
    Nat.le_trans (Nat.mul_le_mul (Nat.le_succ _) (Nat.le_succ _))
      (Nat.le_mul_of_pos_right _ (Nat.succ_pos _))
  calc r.cost {} pos < (r.buffer.size + 1) * r.graph.capacity + r.graph.capacity := by
        rw [cost]
        omega
    _ = (r.buffer.size + 2) * r.graph.capacity := (Nat.succ_mul _ _).symm
    _ ≤ r.depthBound := Nat.mul_le_mul_left _ hcapacity

end Recognizer

end Packrat
