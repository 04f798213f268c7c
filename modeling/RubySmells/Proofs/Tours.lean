import RubySmells.Proofs.Places

/-!
# Tours of a tree with a state

A tour goes over a tree in pre-order and takes a state along. At each node a step
changes the state; some nodes keep to themselves what happens in them, so that
after them the state is what it was before. `Node.carry` is the state after a
tour, and `Node.tour` lists the places of a tree with the state at each.

The main fact is that the state at a place depends only on the places that *reach*
it: those from which no node that keeps to itself has been left since
(`Node.state_of_mem_tour`). After the tour what counts is the places that are in
no such node (`Node.carry_eq`).
-/

namespace RubySmells

section Tours

variable {σ : Type} (opens : Node → Bool) (step : Node → σ → σ)

mutual

/-- The state after a tour of a tree. -/
def Node.carry (n : Node) (s : σ) : σ :=
  if opens n then s else Node.carryAll n.nodes (step n s)
  termination_by 2 * n.mass
  decreasing_by
    have := n.mass_eq
    omega

/-- The state after a tour of several trees. -/
def Node.carryAll : List Node → σ → σ
  | [], s => s
  | n :: ns, s => Node.carryAll ns (Node.carry n s)
  termination_by ns => 2 * Node.totalMass ns + 1
  decreasing_by
    · rw [Node.totalMass_cons]
      omega
    · have := n.mass_pos
      rw [Node.totalMass_cons]
      omega

end

mutual

/-- The places of a tree, with the state at each. -/
def Node.tour (n : Node) (s : σ) : List (Located × σ) :=
  (⟨[], n⟩, step n s) :: Node.tourFrom 0 n.nodes (step n s)
  termination_by 2 * n.mass
  decreasing_by
    have := n.mass_eq
    omega

/-- The places of several trees that stand side by side, with the state at each. -/
def Node.tourFrom : Nat → List Node → σ → List (Located × σ)
  | _, [], _ => []
  | i, n :: ns, s =>
    (Node.tour n s).map (fun e => (e.1.under i, e.2)) ++
      Node.tourFrom (i + 1) ns (Node.carry opens step n s)
  termination_by _ ns => 2 * Node.totalMass ns + 1
  decreasing_by
    · rw [Node.totalMass_cons]
      omega
    · have := n.mass_pos
      rw [Node.totalMass_cons]
      omega

end

variable {opens step}

theorem Node.map_fst_tourFrom {ns : List Node}
    (hns : ∀ c ∈ ns, ∀ s, (c.tour opens step s).map Prod.fst = c.places) (i : Nat) (s : σ) :
    (Node.tourFrom opens step i ns s).map Prod.fst = Node.placesFrom i ns := by
  induction ns generalizing i s with
  | nil => simp [Node.tourFrom, Node.placesFrom]
  | cons n ns ih =>
      have hn := hns n List.mem_cons_self s
      rw [Node.tourFrom, Node.placesFrom, List.map_append,
        ih fun c hc => hns c (List.mem_cons_of_mem _ hc), ← hn, List.map_map, List.map_map]
      rfl

variable (opens step) in
/-- A tour stops at every place, in pre-order. -/
theorem Node.map_fst_tour (n : Node) (s : σ) :
    (n.tour opens step s).map Prod.fst = n.places := by
  induction n using Node.induction generalizing s with
  | step n ih => rw [Node.tour, Node.places_eq, List.map_cons, Node.map_fst_tourFrom ih]

theorem Node.mem_tourFrom {e : Located × σ} {j : Nat} {ns : List Node} {s : σ}
    (h : e ∈ Node.tourFrom opens step j ns s) :
    ∃ (i : Nat) (c : Node), ns[i]? = some c ∧
      ∃ r ∈ c.tour opens step (Node.carryAll opens step (ns.take i) s),
        e = (r.1.under (j + i), r.2) := by
  induction ns generalizing j s with
  | nil => simp [Node.tourFrom] at h
  | cons n ns ih =>
      rw [Node.tourFrom, List.mem_append, List.mem_map] at h
      rcases h with ⟨r, hr, rfl⟩ | h
      · refine ⟨0, n, rfl, r, ?_, rfl⟩
        rwa [List.take_zero, Node.carryAll]
      · obtain ⟨i, c, hc, r, hr, rfl⟩ := ih h
        refine ⟨i + 1, c, by simpa using hc, r, ?_, by rw [Nat.add_right_comm, Nat.add_assoc]⟩
        rwa [List.take_succ_cons, Node.carryAll]

theorem Node.exists_mem_tour {n : Node} {l : Located} (hl : l ∈ n.places) (s : σ) :
    ∃ t, (l, t) ∈ n.tour opens step s := by
  rw [← Node.map_fst_tour opens step n s] at hl
  obtain ⟨⟨_, t⟩, he, rfl⟩ := List.mem_map.1 hl
  exact ⟨t, he⟩

theorem Node.carryAll_append (ns ms : List Node) (s : σ) :
    Node.carryAll opens step (ns ++ ms) s =
      Node.carryAll opens step ms (Node.carryAll opens step ns s) := by
  induction ns generalizing s with
  | nil => rw [List.nil_append, Node.carryAll]
  | cons n ns ih => rw [List.cons_append, Node.carryAll, Node.carryAll, ih]

theorem Node.tourFrom_append (i : Nat) (ns ms : List Node) (s : σ) :
    Node.tourFrom opens step i (ns ++ ms) s =
      Node.tourFrom opens step i ns s ++
        Node.tourFrom opens step (i + ns.length) ms (Node.carryAll opens step ns s) := by
  induction ns generalizing i s with
  | nil => rw [List.nil_append, Node.tourFrom, Node.carryAll, List.length_nil]; rfl
  | cons n ns ih =>
      rw [List.cons_append, Node.tourFrom, Node.tourFrom, Node.carryAll, ih, List.length_cons,
        List.append_assoc, Nat.add_right_comm, Nat.add_assoc]

/-! ## Places that reach an address -/

/-- What happens at a place still counts at an address: each node on the way to the
place, or the place itself, that keeps to itself is on the way to the address as
well. -/
def Located.Reaches (opens : Node → Bool) (tree : Node) (a : Address) (l : Located) : Prop :=
  ∀ m ∈ tree.lineage l.address, opens m.node = true → m.address <+: a

instance (opens : Node → Bool) (tree : Node) (a : Address) (l : Located) :
    Decidable (l.Reaches opens tree a) :=
  inferInstanceAs (Decidable (∀ m ∈ tree.lineage l.address, _ → _))

/-- What happens at a place still counts after the tour: no node on the way keeps to
itself. -/
def Located.Escapes (opens : Node → Bool) (tree : Node) (l : Located) : Prop :=
  ∀ m ∈ tree.lineage l.address, opens m.node = false

instance (opens : Node → Bool) (tree : Node) (l : Located) :
    Decidable (l.Escapes opens tree) :=
  inferInstanceAs (Decidable (∀ m ∈ tree.lineage l.address, _))

section Cases

variable {n c : Node} {i j : Nat} {a : Address} {l : Located}

variable (opens) in
theorem Located.reaches_root (n : Node) (a : Address) :
    Located.Reaches opens n a ⟨[], n⟩ := by
  intro m hm _
  obtain rfl : m = ⟨[], n⟩ := by simpa using hm
  exact List.nil_prefix

theorem Located.reaches_under (hc : n.nodes[i]? = some c) :
    (l.under i).Reaches opens n (i :: a) ↔ l.Reaches opens c a := by
  unfold Located.Reaches
  rw [Located.under_address, Node.lineage_cons hc]
  simp [List.cons_prefix_cons]

/-- From a tree further to the left, only what escapes from that tree reaches. -/
theorem Located.reaches_under_left (hc : (n.nodes.take i)[j]? = some c) :
    (l.under j).Reaches opens n (i :: a) ↔ l.Escapes opens c := by
  rw [List.getElem?_take] at hc
  split at hc
  · rename_i hlt
    unfold Located.Reaches Located.Escapes
    rw [Located.under_address, Node.lineage_cons hc]
    simp [List.cons_prefix_cons, Nat.ne_of_lt hlt]
  · exact absurd hc (by simp)

theorem Located.escapes_under (hc : n.nodes[i]? = some c) (hn : opens n = false) :
    (l.under i).Escapes opens n ↔ l.Escapes opens c := by
  unfold Located.Escapes
  rw [Located.under_address, Node.lineage_cons hc]
  simp [hn]

end Cases

/-- The places up to an address that reach it. -/
def Node.reaching (opens : Node → Bool) (n : Node) (a : Address) : List Located :=
  (n.upTo a).filter fun l => l.Reaches opens n a

theorem Node.reaching_nil (opens : Node → Bool) (n : Node) :
    n.reaching opens [] = [⟨[], n⟩] := by
  have hroot := Located.reaches_root opens n []
  rw [Node.reaching, Node.upTo_nil, List.filter_cons_of_pos (by simpa using hroot)]
  rfl

theorem Node.reaching_cons {n c : Node} {i : Nat} (hc : n.nodes[i]? = some c)
    (opens : Node → Bool) (a : Address) :
    n.reaching opens (i :: a) =
      ⟨[], n⟩ :: ((Node.placesFrom 0 (n.nodes.take i)).filter
          (fun l => l.Reaches opens n (i :: a)) ++ (c.reaching opens a).map (.under i)) := by
  have hroot := Located.reaches_root opens n (i :: a)
  have hown : ((fun l : Located => decide (l.Reaches opens n (i :: a))) ∘ Located.under i) =
      fun l => decide (l.Reaches opens c a) := by
    funext l
    exact decide_eq_decide.2 (Located.reaches_under hc)
  rw [Node.reaching, Node.upTo_cons hc, List.filter_cons_of_pos (by simpa using hroot),
    List.filter_append, List.filter_map, hown, Node.reaching]

/-! ## The state from the places that reach -/

/-- A state after the steps at several places. -/
def Located.steps (step : Node → σ → σ) (s : σ) (ls : List Located) : σ :=
  ls.foldl (fun s l => step l.node s) s

theorem Located.steps_append (s : σ) (ls ms : List Located) :
    Located.steps step s (ls ++ ms) = Located.steps step (Located.steps step s ls) ms :=
  List.foldl_append

theorem Located.steps_under (s : σ) (i : Nat) (ls : List Located) :
    Located.steps step s (ls.map (.under i)) = Located.steps step s ls :=
  List.foldl_map

/-- What a tour of several trees leaves behind is what escapes from each of them;
`keep` says that of the places as they are listed together. -/
theorem Node.carryAll_eq {ns : List Node} {j : Nat} {keep : Located → Bool}
    (hns : ∀ c ∈ ns, ∀ s, c.carry opens step s =
      Located.steps step s (c.places.filter fun l => l.Escapes opens c))
    (hkeep : ∀ (i : Nat) (c : Node), ns[i]? = some c →
      ∀ l : Located, keep (l.under (j + i)) = decide (l.Escapes opens c)) (s : σ) :
    Node.carryAll opens step ns s =
      Located.steps step s ((Node.placesFrom j ns).filter keep) := by
  induction ns generalizing j s with
  | nil => simp [Node.carryAll, Node.placesFrom, Located.steps]
  | cons n ns ih =>
      have hfirst : (keep ∘ Located.under j) = fun l => decide (l.Escapes opens n) := by
        funext l
        exact hkeep 0 n rfl l
      have hrest : ∀ (i : Nat) (c : Node), ns[i]? = some c →
          ∀ l : Located, keep (l.under (j + 1 + i)) = decide (l.Escapes opens c) := by
        intro i c hc l
        have h := hkeep (i + 1) c (by simpa using hc) l
        rwa [← Nat.add_assoc, Nat.add_right_comm] at h
      rw [Node.carryAll, Node.placesFrom, List.filter_append, Located.steps_append,
        List.filter_map, hfirst, Located.steps_under, ← hns n List.mem_cons_self,
        ih (fun c hc => hns c (List.mem_cons_of_mem _ hc)) hrest]

variable (opens step) in
/-- A tour of a tree leaves behind what escapes from it. -/
theorem Node.carry_eq (n : Node) (s : σ) :
    n.carry opens step s =
      Located.steps step s (n.places.filter fun l => l.Escapes opens n) := by
  induction n using Node.induction generalizing s with
  | step n ih =>
      rw [Node.carry]
      cases hn : opens n with
      | true =>
          -- The node is above every place, and keeps to itself.
          have hnone : n.places.filter (fun l => l.Escapes opens n) = [] := by
            rw [List.filter_eq_nil_iff]
            intro l hl hescapes
            have hroot : (⟨[], n⟩ : Located) ∈ n.lineage l.address := by
              rw [Node.lineage, List.mem_filter, Node.places_eq]
              exact ⟨List.mem_cons_self, by simp⟩
            have := of_decide_eq_true hescapes ⟨[], n⟩ hroot
            rw [hn] at this
            exact Bool.noConfusion this
          rw [hnone]
          rfl
      | false =>
          have hroot : Located.Escapes opens n ⟨[], n⟩ := by
            intro m hm
            obtain rfl : m = ⟨[], n⟩ := by simpa using hm
            exact hn
          rw [Node.places_eq, List.filter_cons_of_pos (by simpa using hroot)]
          refine Node.carryAll_eq ih ?_ (step n s)
          intro i c hc l
          rw [Nat.zero_add, decide_eq_decide]
          exact Located.escapes_under hc hn

/-- **The state at a place.** It is what the steps at the places that reach the place
make of the state before the tour. -/
theorem Node.state_of_mem_tour {n : Node} {s : σ} {e : Located × σ}
    (h : e ∈ n.tour opens step s) :
    e.2 = Located.steps step s (n.reaching opens e.1.address) := by
  induction n using Node.induction generalizing s e with
  | step n ih =>
      rw [Node.tour] at h
      rcases List.mem_cons.1 h with rfl | h
      · rw [Node.reaching_nil]
        rfl
      · obtain ⟨i, c, hc, r, hr, rfl⟩ := Node.mem_tourFrom h
        -- Of the trees to the left, what escapes from them reaches the place.
        have hleft : Node.carryAll opens step (n.nodes.take i) (step n s) =
            Located.steps step (step n s) ((Node.placesFrom 0 (n.nodes.take i)).filter fun l =>
              l.Reaches opens n (i :: r.1.address)) := by
          refine Node.carryAll_eq (fun c _ => Node.carry_eq opens step c) ?_ (step n s)
          intro j d hd l
          rw [Nat.zero_add, decide_eq_decide]
          exact Located.reaches_under_left hd
        show r.2 = Located.steps step s (n.reaching opens ((0 + i) :: r.1.address))
        rw [ih c (List.mem_of_getElem? hc) hr, hleft, Nat.zero_add, Node.reaching_cons hc]
        show _ = Located.steps step (step n s) (_ ++ _)
        rw [Located.steps_append, Located.steps_under]

end Tours

end RubySmells
