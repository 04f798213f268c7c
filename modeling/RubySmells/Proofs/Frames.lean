import RubySmells.Proofs.Inspection
import RubySmells.Proofs.Tours

/-!
# The frame at a place

Which frame is innermost when a walk stops at a place does not depend on what
the rules find. `Frame.across` is what a walk over a whole tree makes of the
innermost frame, and `Node.stops` lists the places of a tree with the frame at
each.

The nodes that went into a frame are those *in effect* at the place: no frame
opened on the way to them has been dropped since (`Node.inEffect`). The
main fact is that nothing else matters: the frame is what the nodes in effect,
taken in order, make of the frame before the walk (`Node.frame_of_mem_stops`).
It is a fact about tours with any state, here with the innermost frame.
-/

namespace RubySmells

/-! ## Walking over frames -/

mutual

/-- The innermost frame after a walk over a tree, from the one before it. -/
def Frame.across (nested : Bool) (n : Node) (f : Frame) : Frame :=
  if n.opens nested then f else Frame.acrossAll nested n.nodes (f.apply n)
  termination_by 2 * n.mass
  decreasing_by
    have := n.mass_eq
    omega

/-- The innermost frame after a walk over several trees. -/
def Frame.acrossAll (nested : Bool) : List Node → Frame → Frame
  | [], f => f
  | n :: ns, f => Frame.acrossAll nested ns (Frame.across nested n f)
  termination_by ns => 2 * Node.totalMass ns + 1
  decreasing_by
    · rw [Node.totalMass_cons]
      omega
    · have := n.mass_pos
      rw [Node.totalMass_cons]
      omega

end

/-- A node with a frame of its own leaves the frame around it alone. -/
theorem Frame.across_of_framed {n : Node} (h : Context.framed n.kind = true) (f : Frame) :
    Frame.across true n f = f := by
  rw [Frame.across, if_pos (Node.opens_eq_true.2 ⟨rfl, h⟩)]

theorem Frame.acrossAll_append (nested : Bool) (ns ms : List Node) (f : Frame) :
    Frame.acrossAll nested (ns ++ ms) f =
      Frame.acrossAll nested ms (Frame.acrossAll nested ns f) := by
  induction ns generalizing f with
  | nil => rw [List.nil_append, Frame.acrossAll]
  | cons n ns ih => rw [List.cons_append, Frame.acrossAll, Frame.acrossAll, ih]

/-- A stop of a walk: a place, and the frame that is innermost when the rule for
the node there runs. -/
structure Stop where
  place : Located
  frame : Frame

/-- A stop in a tree as a stop in a larger one. -/
def Stop.under (i : Nat) (s : Stop) : Stop := ⟨s.place.under i, s.frame⟩

mutual

/-- The stops of a walk over a tree, from the innermost frame before it. -/
def Node.stops (nested : Bool) (n : Node) (f : Frame) : List Stop :=
  ⟨⟨[], n⟩, f.apply n⟩ :: Node.stopsFrom nested 0 n.nodes (f.apply n)
  termination_by 2 * n.mass
  decreasing_by
    have := n.mass_eq
    omega

/-- The stops of a walk over several trees that stand side by side. -/
def Node.stopsFrom (nested : Bool) : Nat → List Node → Frame → List Stop
  | _, [], _ => []
  | i, n :: ns, f =>
    (n.stops nested f).map (.under i) ++
      Node.stopsFrom nested (i + 1) ns (Frame.across nested n f)
  termination_by _ ns => 2 * Node.totalMass ns + 1
  decreasing_by
    · rw [Node.totalMass_cons]
      omega
    · have := n.mass_pos
      rw [Node.totalMass_cons]
      omega

end

/-! ### As a tour -/

theorem Frame.acrossAll_eq_carryAll {nested : Bool} {ns : List Node}
    (hns : ∀ c ∈ ns, ∀ f, Frame.across nested c f = c.carry (·.opens nested) Frame.apply f)
    (f : Frame) :
    Frame.acrossAll nested ns f = Node.carryAll (·.opens nested) Frame.apply ns f := by
  induction ns generalizing f with
  | nil => rw [Frame.acrossAll, Node.carryAll]
  | cons n ns ih =>
      rw [Frame.acrossAll, Node.carryAll, hns n List.mem_cons_self,
        ih fun c hc => hns c (List.mem_cons_of_mem _ hc)]

theorem Frame.across_eq_carry (nested : Bool) (n : Node) (f : Frame) :
    Frame.across nested n f = n.carry (·.opens nested) Frame.apply f := by
  induction n using Node.induction generalizing f with
  | step n ih => rw [Frame.across, Node.carry, Frame.acrossAll_eq_carryAll ih]

/-- A place of a tour with a frame, as a stop. -/
def Stop.ofTour (e : Located × Frame) : Stop := ⟨e.1, e.2⟩

theorem Node.stopsFrom_eq_tourFrom {nested : Bool} {ns : List Node}
    (hns : ∀ c ∈ ns, ∀ f,
      c.stops nested f = (c.tour (·.opens nested) Frame.apply f).map .ofTour)
    (i : Nat) (f : Frame) :
    Node.stopsFrom nested i ns f =
      (Node.tourFrom (·.opens nested) Frame.apply i ns f).map .ofTour := by
  induction ns generalizing i f with
  | nil => simp [Node.stopsFrom, Node.tourFrom]
  | cons n ns ih =>
      have ih := ih fun c hc => hns c (List.mem_cons_of_mem _ hc)
      rw [Node.stopsFrom, Node.tourFrom, List.map_append, hns n List.mem_cons_self, ih,
        Frame.across_eq_carry, List.map_map, List.map_map]
      rfl

theorem Node.stops_eq_tour (nested : Bool) (n : Node) (f : Frame) :
    n.stops nested f = (n.tour (·.opens nested) Frame.apply f).map .ofTour := by
  induction n using Node.induction generalizing f with
  | step n ih =>
      rw [Node.stops, Node.tour, List.map_cons, Node.stopsFrom_eq_tourFrom ih]
      rfl

/-- A walk stops at every place, in pre-order. -/
theorem Node.map_place_stops (nested : Bool) (n : Node) (f : Frame) :
    (n.stops nested f).map Stop.place = n.places := by
  rw [Node.stops_eq_tour, List.map_map]
  exact Node.map_fst_tour _ _ n f

theorem Node.mem_stopsFrom {nested : Bool} {s : Stop} {j : Nat} {ns : List Node} {f : Frame}
    (h : s ∈ Node.stopsFrom nested j ns f) :
    ∃ (i : Nat) (c : Node), ns[i]? = some c ∧
      ∃ r ∈ c.stops nested (Frame.acrossAll nested (ns.take i) f), s = r.under (j + i) := by
  rw [Node.stopsFrom_eq_tourFrom fun c _ => Node.stops_eq_tour nested c] at h
  obtain ⟨e, he, rfl⟩ := List.mem_map.1 h
  obtain ⟨i, c, hc, r, hr, rfl⟩ := Node.mem_tourFrom he
  refine ⟨i, c, hc, .ofTour r, ?_, rfl⟩
  rw [Node.stops_eq_tour, Frame.acrossAll_eq_carryAll fun c _ => Frame.across_eq_carry nested c]
  exact List.mem_map_of_mem hr

/-! ## Nodes in effect -/

/-- A frame after several nodes have been applied to it. -/
def Frame.applyAll (f : Frame) (ls : List Located) : Frame :=
  ls.foldl (fun f l => f.apply l.node) f

@[simp] theorem Frame.applyAll_nil (f : Frame) : f.applyAll [] = f := rfl

@[simp] theorem Frame.applyAll_cons (f : Frame) (l : Located) (ls : List Located) :
    f.applyAll (l :: ls) = (f.apply l.node).applyAll ls := rfl

theorem Frame.applyAll_append (f : Frame) (ls ms : List Located) :
    f.applyAll (ls ++ ms) = (f.applyAll ls).applyAll ms :=
  List.foldl_append

/-- What a place does to the innermost frame is still there at an address: each
frame opened on the way to the place, or by the place itself, was opened on
the way to the address as well. -/
def Located.InEffect (nested : Bool) (tree : Node) (a : Address) (l : Located) : Prop :=
  ∀ s ∈ tree.lineage l.address, s.node.opens nested = true → s.address <+: a

instance (nested : Bool) (tree : Node) (a : Address) (l : Located) :
    Decidable (l.InEffect nested tree a) :=
  inferInstanceAs (Decidable (∀ s ∈ tree.lineage l.address, _ → _))

/-- What a place does to the innermost frame is still there after the walk over
the tree: no frame is opened on the way. -/
def Located.Outlasts (nested : Bool) (tree : Node) (l : Located) : Prop :=
  ∀ s ∈ tree.lineage l.address, s.node.opens nested = false

instance (nested : Bool) (tree : Node) (l : Located) : Decidable (l.Outlasts nested tree) :=
  inferInstanceAs (Decidable (∀ s ∈ tree.lineage l.address, _))

/-- From a tree further to the left, only what outlasts that tree is in effect. -/
theorem Located.inEffect_under_left {nested : Bool} {n c : Node} {i j : Nat} {a : Address}
    {l : Located} (hc : (n.nodes.take i)[j]? = some c) :
    (l.under j).InEffect nested n (i :: a) ↔ l.Outlasts nested c :=
  Located.reaches_under_left hc

/-- The places up to an address that are in effect there. -/
def Node.inEffect (nested : Bool) (n : Node) (a : Address) : List Located :=
  (n.upTo a).filter fun l => l.InEffect nested n a

theorem Node.inEffect_nil (nested : Bool) (n : Node) : n.inEffect nested [] = [⟨[], n⟩] :=
  Node.reaching_nil _ n

theorem Node.inEffect_cons {n c : Node} {i : Nat} (hc : n.nodes[i]? = some c) (nested : Bool)
    (a : Address) :
    n.inEffect nested (i :: a) =
      ⟨[], n⟩ :: ((Node.placesFrom 0 (n.nodes.take i)).filter
          (fun l => l.InEffect nested n (i :: a)) ++ (c.inEffect nested a).map (.under i)) :=
  Node.reaching_cons hc _ a

/-! ## The frame from the nodes in effect -/

/-- A walk over a tree leaves behind what outlasts it. -/
theorem Frame.across_eq (nested : Bool) (n : Node) (f : Frame) :
    Frame.across nested n f = f.applyAll (n.places.filter fun l => l.Outlasts nested n) := by
  rw [Frame.across_eq_carry]
  exact Node.carry_eq _ _ n f

/-- **The frame at a place.** When a walk stops, the innermost frame is what the
nodes in effect make of the frame before the walk. -/
theorem Node.frame_of_mem_stops {nested : Bool} {n : Node} {f : Frame} {s : Stop}
    (h : s ∈ n.stops nested f) :
    s.frame = f.applyAll (n.inEffect nested s.place.address) := by
  rw [Node.stops_eq_tour] at h
  obtain ⟨e, he, rfl⟩ := List.mem_map.1 h
  exact Node.state_of_mem_tour he

/-- The innermost frame when a walk over a tree stops at an address. -/
def Node.frameAt (nested : Bool) (tree : Node) (a : Address) : Frame :=
  Frame.applyAll {} (tree.inEffect nested a)

/-- A walk over a tree stops at every place in the frame there. -/
theorem Node.stops_eq (nested : Bool) (tree : Node) :
    tree.stops nested {} = tree.places.map fun p => ⟨p, tree.frameAt nested p.address⟩ := by
  have hframe : ∀ s ∈ tree.stops nested {},
      (⟨s.place, tree.frameAt nested s.place.address⟩ : Stop) = s := by
    intro s hs
    rw [Node.frameAt, ← Node.frame_of_mem_stops hs]
  calc tree.stops nested {}
      = (tree.stops nested {}).map id := (List.map_id _).symm
    _ = (tree.stops nested {}).map fun s => ⟨s.place, tree.frameAt nested s.place.address⟩ :=
        List.map_congr_left fun s hs => (hframe s hs).symm
    _ = tree.places.map fun p => ⟨p, tree.frameAt nested p.address⟩ := by
        rw [← Node.map_place_stops nested tree {}, List.map_map]
        rfl

end RubySmells
