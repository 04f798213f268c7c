import RubySmells.Tree.MassCache

/-!
# The places of a tree

Two nodes of a tree may look the same, so statements about "the nodes before
this one" or "the nodes above this one" are about places: nodes with their
addresses.

* **order** — `Node.places` lists the places of a tree in pre-order, a node
  before what is below it and from left to right;
* **ancestry** — a place stands above another if its address is a beginning
  of the other's (`Node.lineage`, `Node.ancestors`);
* **history** — the places up to a given one (`Node.upTo`), by recursion on
  the address; it is the beginning of the list of places
  (`Node.take_places_eq_upTo`).
-/

namespace RubySmells

/-! ## Induction -/

theorem Node.mass_le_totalMass {c : Node} {ns : List Node} (h : c ∈ ns) :
    c.mass ≤ Node.totalMass ns := by
  induction ns with
  | nil => exact absurd h List.not_mem_nil
  | cons n ns ih =>
      rw [Node.totalMass_cons]
      rcases List.mem_cons.1 h with rfl | h
      · omega
      · have := ih h
        omega

theorem Node.mass_lt_of_mem_nodes {c n : Node} (h : c ∈ n.nodes) : c.mass < n.mass := by
  have := Node.mass_le_totalMass h
  rw [Node.mass_eq n]
  omega

/-- What holds of a node whenever it holds of its child nodes, holds of every
node. -/
@[elab_as_elim]
theorem Node.induction {motive : Node → Prop}
    (step : ∀ n : Node, (∀ c ∈ n.nodes, motive c) → motive n) (n : Node) : motive n := by
  generalize hm : n.mass = m
  induction m using Nat.strongRecOn generalizing n with
  | ind m ih =>
      subst hm
      exact step n fun c hc => ih c.mass (Node.mass_lt_of_mem_nodes hc) c rfl

/-! ## Places in pre-order -/

/-- A place of a tree as a place of a larger one, where the tree is the child
node at a position. -/
def Located.under (i : Nat) (l : Located) : Located := ⟨i :: l.address, l.node⟩

@[simp] theorem Located.under_node (i : Nat) (l : Located) : (l.under i).node = l.node := rfl

@[simp] theorem Located.under_address (i : Nat) (l : Located) :
    (l.under i).address = i :: l.address := rfl

mutual

/-- The places of a tree in pre-order. -/
def Node.places : Node → List Located
  | .mk h cs => ⟨[], .mk h cs⟩ :: Child.placesFrom 0 cs

/-- The places in and below a list of children, the first node of which stands
at a given position. -/
def Child.placesFrom : Nat → List Child → List Located
  | _, [] => []
  | i, .node n :: cs => n.places.map (.under i) ++ Child.placesFrom (i + 1) cs
  | i, .text _ :: cs => Child.placesFrom i cs
  | i, .absent :: cs => Child.placesFrom i cs

end

/-- The places of several trees that stand side by side, the first of them at
a given position. -/
def Node.placesFrom : Nat → List Node → List Located
  | _, [] => []
  | i, n :: ns => n.places.map (.under i) ++ Node.placesFrom (i + 1) ns

theorem Child.placesFrom_eq (i : Nat) (cs : List Child) :
    Child.placesFrom i cs = Node.placesFrom i (cs.filterMap Child.node?) := by
  induction cs generalizing i with
  | nil => rfl
  | cons c cs ih =>
      cases c <;>
        simp [Child.placesFrom, Child.node?, Node.placesFrom, List.filterMap_cons, ih]

/-- The node itself comes first, then the places below its child nodes. -/
theorem Node.places_eq (n : Node) :
    n.places = ⟨[], n⟩ :: Node.placesFrom 0 n.nodes := by
  cases n with
  | mk h cs => simp only [Node.places, Child.placesFrom_eq, Node.nodes, Node.children]

theorem Node.mem_placesFrom {l : Located} {j : Nat} {ns : List Node} :
    l ∈ Node.placesFrom j ns ↔
      ∃ (i : Nat) (c : Node), ns[i]? = some c ∧ ∃ r ∈ c.places, l = r.under (j + i) := by
  induction ns generalizing j with
  | nil => simp [Node.placesFrom]
  | cons n ns ih =>
      rw [Node.placesFrom, List.mem_append, List.mem_map, ih]
      constructor
      · rintro (⟨r, hr, rfl⟩ | ⟨i, c, hc, r, hr, rfl⟩)
        · exact ⟨0, n, rfl, r, hr, rfl⟩
        · exact ⟨i + 1, c, hc, r, hr, by rw [Nat.add_right_comm, Nat.add_assoc]⟩
      · rintro ⟨i, c, hc, r, hr, rfl⟩
        cases i with
        | zero =>
            obtain rfl : n = c := by simpa using hc
            exact .inl ⟨r, hr, rfl⟩
        | succ i =>
            refine .inr ⟨i, c, by simpa using hc, r, hr, ?_⟩
            rw [Nat.add_right_comm, Nat.add_assoc]

theorem Node.root_mem_places (n : Node) : ⟨[], n⟩ ∈ n.places := by
  rw [Node.places_eq]
  exact List.mem_cons_self

/-- A tree has as many places as its mass says. -/
theorem Node.length_places (n : Node) : n.places.length = n.mass := by
  induction n using Node.induction with
  | step n ih =>
      have hbelow : ∀ (ns : List Node) (i : Nat), (∀ c ∈ ns, c.places.length = c.mass) →
          (Node.placesFrom i ns).length = Node.totalMass ns := by
        intro ns
        induction ns with
        | nil => exact fun i _ => rfl
        | cons c ns ihns =>
            intro i hns
            rw [Node.placesFrom, List.length_append, List.length_map, hns c List.mem_cons_self,
              ihns (i + 1) fun d hd => hns d (List.mem_cons_of_mem _ hd), Node.totalMass_cons]
      rw [Node.places_eq, List.length_cons, hbelow n.nodes 0 ih, Node.mass_eq, Nat.add_comm]

/-- Where a place below several trees stands: in which of them, and what comes
up to it. -/
theorem Node.getElem?_placesFrom {p : Located} {j k : Nat} {ns : List Node}
    (h : (Node.placesFrom j ns)[k]? = some p) :
    ∃ (i : Nat) (c : Node) (m : Nat) (r : Located), ns[i]? = some c ∧
      c.places[m]? = some r ∧ p = r.under (j + i) ∧
      (Node.placesFrom j ns).take (k + 1) =
        Node.placesFrom j (ns.take i) ++ (c.places.take (m + 1)).map (.under (j + i)) := by
  induction ns generalizing j k with
  | nil => simp [Node.placesFrom] at h
  | cons n ns ih =>
      rw [Node.placesFrom] at h ⊢
      -- The place is in the first tree, or in one of the others.
      by_cases hk : k < (n.places.map (Located.under j)).length
      · rw [List.getElem?_append_left hk, List.getElem?_map] at h
        obtain ⟨r, hr, rfl⟩ := Option.map_eq_some_iff.1 h
        refine ⟨0, n, k, r, rfl, hr, rfl, ?_⟩
        rw [List.take_append_of_le_length hk, List.map_take]
        rfl
      · have hk := Nat.le_of_not_lt hk
        rw [List.getElem?_append_right hk] at h
        obtain ⟨i, c, m, r, hc, hr, rfl, htake⟩ := ih h
        have hj : j + 1 + i = j + (i + 1) := by omega
        refine ⟨i + 1, c, m, r, by simpa using hc, hr, by rw [hj], ?_⟩
        rw [List.take_append, List.take_of_length_le (by omega), Nat.sub_add_comm hk, htake,
          List.take_succ_cons, Node.placesFrom, List.append_assoc, hj]

/-- No two places of a tree have the same address. -/
theorem Node.eq_of_address_eq {n : Node} {l m : Located} (hl : l ∈ n.places)
    (hm : m ∈ n.places) (h : l.address = m.address) : l = m := by
  induction n using Node.induction generalizing l m with
  | step n ih =>
      rw [Node.places_eq] at hl hm
      rcases List.mem_cons.1 hl with rfl | hl
      · rcases List.mem_cons.1 hm with rfl | hm
        · rfl
        · obtain ⟨i, c, _, r, _, rfl⟩ := Node.mem_placesFrom.1 hm
          exact absurd h (by simp)
      · obtain ⟨i, c, hc, r, hr, rfl⟩ := Node.mem_placesFrom.1 hl
        rcases List.mem_cons.1 hm with rfl | hm
        · exact absurd h (by simp)
        · obtain ⟨j, d, hd, q, hq, rfl⟩ := Node.mem_placesFrom.1 hm
          simp only [Located.under_address, List.cons.injEq] at h
          obtain ⟨hij, h⟩ := h
          obtain rfl : i = j := by omega
          obtain rfl : c = d := Option.some.inj (hc.symm.trans hd)
          rw [ih c (List.mem_of_getElem? hc) hr hq h]

/-- No place is listed after one that it stands above. -/
theorem Node.pairwise_places (n : Node) :
    n.places.Pairwise fun l m => ¬ m.address <+: l.address := by
  induction n using Node.induction with
  | step n ih =>
      have hbelow : ∀ (ns : List Node) (i : Nat), (∀ c ∈ ns, c ∈ n.nodes) →
          (Node.placesFrom i ns).Pairwise fun l m => ¬ m.address <+: l.address := by
        intro ns
        induction ns with
        | nil => exact fun i _ => .nil
        | cons c ns ihns =>
            intro i hns
            have hfirst := ih c (hns c List.mem_cons_self)
            have hrest := ihns (i + 1) fun d hd => hns d (List.mem_cons_of_mem _ hd)
            refine List.pairwise_append.2 ⟨List.pairwise_map.2 (hfirst.imp ?_), hrest, ?_⟩
            · intro l m h
              simpa [List.cons_prefix_cons] using h
            · -- Places further to the right have other positions.
              intro l hl m hm
              obtain ⟨r, -, rfl⟩ := List.mem_map.1 hl
              obtain ⟨j, d, -, q, -, rfl⟩ := Node.mem_placesFrom.1 hm
              simp [List.cons_prefix_cons]
              omega
      rw [Node.places_eq, List.pairwise_cons]
      refine ⟨fun m hm => ?_, hbelow n.nodes 0 fun c hc => hc⟩
      obtain ⟨i, c, -, r, -, rfl⟩ := Node.mem_placesFrom.1 hm
      simp

/-- A list of places splits at the last one whose node is of a kind. -/
theorem Located.split_last (kind : Kind) (ls : List Located) :
    (∀ l ∈ ls, l.node.kind ≠ kind) ∨
      ∃ before l after, ls = before ++ l :: after ∧ l.node.kind = kind ∧
        ∀ m ∈ after, m.node.kind ≠ kind := by
  induction ls with
  | nil => exact .inl fun l hl => absurd hl List.not_mem_nil
  | cons l ls ih =>
      rcases ih with hnone | ⟨before, m, after, rfl, hm, hafter⟩
      · by_cases hl : l.node.kind = kind
        · exact .inr ⟨[], l, ls, rfl, hl, hnone⟩
        · refine .inl fun m hm => ?_
          rcases List.mem_cons.1 hm with rfl | hm
          · exact hl
          · exact hnone m hm
      · exact .inr ⟨l :: before, m, after, rfl, hm, hafter⟩

/-! ## Ancestry -/

/-- A place and those above it, the outermost first. -/
def Node.lineage (tree : Node) (a : Address) : List Located :=
  tree.places.filter fun l => l.address <+: a

/-- The places above a place, the outermost first. -/
def Node.ancestors (tree : Node) (a : Address) : List Located :=
  tree.places.filter fun l => l.address <+: a ∧ l.address ≠ a

theorem Node.mem_ancestors {tree : Node} {a : Address} {l : Located} :
    l ∈ tree.ancestors a ↔ l ∈ tree.lineage a ∧ l.address ≠ a := by
  simp [Node.ancestors, Node.lineage, and_assoc]

/-- Of trees that stand side by side, only the one with the position named by
the address has places above it. -/
theorem Node.filter_placesFrom {c : Node} {a : Address} {i j : Nat} {ns : List Node}
    (hc : ns[i]? = some c) :
    (Node.placesFrom j ns).filter (fun l => l.address <+: (j + i) :: a) =
      (c.lineage a).map (.under (j + i)) := by
  induction ns generalizing i j with
  | nil => simp at hc
  | cons n ns ih =>
      rw [Node.placesFrom, List.filter_append, List.filter_map]
      cases i with
      | zero =>
          obtain rfl : n = c := by simpa using hc
          -- The trees further to the right have other positions.
          have hright : (Node.placesFrom (j + 1) ns).filter
              (fun l => l.address <+: (j + 0) :: a) = [] := by
            rw [List.filter_eq_nil_iff]
            intro l hl
            obtain ⟨i, c, _, r, _, rfl⟩ := Node.mem_placesFrom.1 hl
            simp [List.cons_prefix_cons]
            omega
          rw [hright, List.append_nil, Node.lineage]
          congr 2
          funext l
          simp [List.cons_prefix_cons]
      | succ i =>
          -- The first tree has another position than the one looked for.
          have hleft : n.places.filter
              ((fun l : Located => decide (l.address <+: (j + (i + 1)) :: a)) ∘ Located.under j)
                = [] := by
            rw [List.filter_eq_nil_iff]
            intro l _
            simp [List.cons_prefix_cons]
          have hj : j + (i + 1) = j + 1 + i := by omega
          rw [hleft, List.map_nil, List.nil_append, hj]
          exact ih (by simpa using hc)

@[simp] theorem Node.lineage_nil (n : Node) : n.lineage [] = [⟨[], n⟩] := by
  rw [Node.lineage, Node.places_eq, List.filter_cons]
  simp only [List.prefix_refl, decide_true, if_true, List.cons.injEq, true_and]
  rw [List.filter_eq_nil_iff]
  intro l hl
  obtain ⟨i, c, _, r, _, rfl⟩ := Node.mem_placesFrom.1 hl
  simp

theorem Node.lineage_cons {n c : Node} {i : Nat} (hc : n.nodes[i]? = some c) (a : Address) :
    n.lineage (i :: a) = ⟨[], n⟩ :: (c.lineage a).map (.under i) := by
  have h := Node.filter_placesFrom (a := a) (j := 0) hc
  rw [Nat.zero_add] at h
  rw [Node.lineage, Node.places_eq, List.filter_cons]
  simp only [List.nil_prefix, decide_true, if_true, h]

/-! ## History -/

/-- The places up to an address, in pre-order. -/
def Node.upTo : Node → Address → List Located
  | n, [] => [⟨[], n⟩]
  | n, i :: a =>
    ⟨[], n⟩ :: (Node.placesFrom 0 (n.nodes.take i) ++
      match n.nodes[i]? with
      | some c => (c.upTo a).map (.under i)
      | none => [])

@[simp] theorem Node.upTo_nil (n : Node) : n.upTo [] = [⟨[], n⟩] := rfl

theorem Node.upTo_cons {n c : Node} {i : Nat} (hc : n.nodes[i]? = some c) (a : Address) :
    n.upTo (i :: a) =
      ⟨[], n⟩ :: (Node.placesFrom 0 (n.nodes.take i) ++ (c.upTo a).map (.under i)) := by
  rw [Node.upTo, hc]

/-- The places up to a place are those listed before it, and the place. -/
theorem Node.take_places_eq_upTo {n : Node} {k : Nat} {p : Located}
    (h : n.places[k]? = some p) : n.places.take (k + 1) = n.upTo p.address := by
  induction n using Node.induction generalizing k p with
  | step n ih =>
      rw [Node.places_eq] at h ⊢
      cases k with
      | zero =>
          obtain rfl : ⟨[], n⟩ = p := by simpa using h
          rfl
      | succ k =>
          rw [List.getElem?_cons_succ] at h
          obtain ⟨i, c, m, r, hc, hr, rfl, htake⟩ := Node.getElem?_placesFrom h
          rw [Nat.zero_add] at htake ⊢
          rw [List.take_succ_cons, htake, ih c (List.mem_of_getElem? hc) hr,
            Located.under_address, Node.upTo_cons hc]

end RubySmells
