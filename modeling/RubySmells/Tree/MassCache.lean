import RubySmells.Tree.Node

/-!
# Masses counted once

Asking for the mass of many nodes of one tree need not count a subtree twice.
A `MassCache` remembers the masses found so far, by the address of the node in
the tree. `MassCache.query` answers from the cache where it can; elsewhere it
lists the nodes not yet counted with an explicit stack (`uncounted`), parents
before their descendants, and then counts them from the last to the first
(`fill`), so that each node finds the masses of its child nodes in the cache.
It has no answer only if one of these is missing.
-/

namespace RubySmells

/-- The way from the root of a tree to a node: at each step, the position of
the next node among the child nodes. -/
abbrev Address := List Nat

/-- A node and where it stands. -/
structure Located where
  address : Address
  node : Node

/-- The child nodes of a node and where they stand. -/
def Located.below (l : Located) : List Located :=
  l.node.nodes.zipIdx.map fun (n, i) => ⟨l.address ++ [i], n⟩

/-- The masses found so far. -/
abbrev MassCache := Address → Option Nat

namespace MassCache

/-- Nothing counted yet. -/
def empty : MassCache := fun _ => none

/-- The cache with the mass of one more node. -/
def record (cache : MassCache) (address : Address) (mass : Nat) : MassCache :=
  fun a => if a = address then some mass else cache a

/-- The number of nodes on a stack and below it. -/
def pendingMass : List Located → Nat
  | [] => 0
  | l :: stack => l.node.mass + pendingMass stack

theorem pendingMass_append (xs ys : List Located) :
    pendingMass (xs ++ ys) = pendingMass xs + pendingMass ys := by
  induction xs with
  | nil => simp [pendingMass]
  | cons x xs ih =>
      simp only [List.cons_append, pendingMass, ih]
      omega

theorem pendingMass_reverse (xs : List Located) :
    pendingMass xs.reverse = pendingMass xs := by
  induction xs with
  | nil => rfl
  | cons x xs ih =>
      simp only [List.reverse_cons, pendingMass_append, pendingMass, ih]
      omega

theorem pendingMass_map_zipIdx (f : Nat → Address) (ns : List Node) (k : Nat) :
    pendingMass ((ns.zipIdx k).map fun (n, i) => ⟨f i, n⟩) = Node.totalMass ns := by
  induction ns generalizing k with
  | nil => rfl
  | cons n ns ih =>
      simp only [List.zipIdx_cons, List.map_cons, pendingMass, Node.totalMass_cons, ih]

theorem pendingMass_below (l : Located) :
    pendingMass l.below + 1 = l.node.mass := by
  have h := pendingMass_map_zipIdx (fun i => l.address ++ [i]) l.node.nodes 0
  rw [Node.mass_eq, ← h, Located.below]
  omega

theorem pendingMass_step (l : Located) (stack : List Located) :
    pendingMass (l.below.reverse ++ stack) < pendingMass (l :: stack) := by
  have h := pendingMass_below l
  simp only [pendingMass_append, pendingMass_reverse, pendingMass]
  omega

theorem pendingMass_tail (l : Located) (stack : List Located) :
    pendingMass stack < pendingMass (l :: stack) := by
  have h := l.node.mass_pos
  simp only [pendingMass]
  omega

/-- The nodes at and below the stack that have no mass yet, where the search
does not go below a node that has one. -/
def uncounted (cache : MassCache) : List Located → List Located
  | [] => []
  | l :: stack =>
    match cache l.address with
    | none => l :: uncounted cache (l.below.reverse ++ stack)
    | some _ => uncounted cache stack
  termination_by stack => pendingMass stack
  decreasing_by
    · exact pendingMass_step l stack
    · exact pendingMass_tail l stack

/-- Counts one node from the masses of its child nodes. -/
def count? (cache : MassCache) (l : Located) : Option MassCache :=
  (l.below.mapM fun b => cache b.address).map fun masses =>
    cache.record l.address (masses.foldl (· + ·) 1)

/-- Counts the nodes of a list, in order. -/
def fill? (cache : MassCache) (order : List Located) : Option MassCache :=
  order.foldlM count? cache

/-- The mass of a node, and the cache after the question. -/
def query? (cache : MassCache) (l : Located) : Option (Nat × MassCache) := do
  let cache ← cache.fill? (cache.uncounted [l]).reverse
  let mass ← cache l.address
  return (mass, cache)

end MassCache

/-- The mass of a tree, counted with a fresh cache. -/
def Node.countMass? (n : Node) : Option Nat :=
  (MassCache.empty.query? ⟨[], n⟩).map Prod.fst

end RubySmells
