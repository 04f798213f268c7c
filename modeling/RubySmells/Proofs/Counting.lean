import RubySmells.Proofs.Places

/-!
# Counting with a cache

The mass of a node may be asked for many times, and each question answers from the
masses found before. What is remembered may be any part of the masses in a tree, as
long as all of it is right (`MassCache.Correct`).

* **order** — the nodes that a question finds uncounted are listed with each node
  before its child nodes, and none of these is missing
  (`MassCache.childrenFollow_uncounted`);
* **filling** — so, counted from the last to the first, each node finds the masses of
  its child nodes, and what is remembered then is right (`MassCache.exists_fill?`);
* **questions** — a question is answered with the number of nodes at and below the
  node, and so is every later one (`MassCache.query?_correct`).
-/

namespace RubySmells

/-! ## Places below a place -/

theorem Located.mem_below {l b : Located} :
    b ∈ l.below ↔ ∃ i, l.node.nodes[i]? = some b.node ∧ b.address = l.address ++ [i] := by
  rw [Located.below, List.mem_map]
  constructor
  · rintro ⟨⟨n, i⟩, hn, rfl⟩
    exact ⟨i, List.mem_zipIdx_iff_getElem?.1 hn, rfl⟩
  · rintro ⟨i, hn, ha⟩
    refine ⟨(b.node, i), List.mem_zipIdx_iff_getElem?.2 hn, ?_⟩
    show (⟨l.address ++ [i], b.node⟩ : Located) = b
    rw [← ha]

theorem Located.map_node_below (l : Located) : l.below.map (·.node) = l.node.nodes := by
  rw [Located.below, List.map_map]
  exact List.zipIdx_map_fst 0 l.node.nodes

/-- Below a place of a tree there are places of the tree. -/
theorem Node.mem_places_of_mem_below {tree : Node} {l b : Located} (hl : l ∈ tree.places)
    (hb : b ∈ l.below) : b ∈ tree.places := by
  induction tree using Node.induction generalizing l b with
  | step tree ih =>
      obtain ⟨i, hnode, haddress⟩ := Located.mem_below.1 hb
      rw [Node.places_eq, List.mem_cons] at hl ⊢
      right
      rcases hl with rfl | hl
      · refine Node.mem_placesFrom.2 ⟨i, b.node, hnode, ⟨[], b.node⟩, b.node.root_mem_places, ?_⟩
        obtain ⟨a, n⟩ := b
        rw [Nat.zero_add]
        exact congrArg (Located.mk · n) haddress
      · obtain ⟨j, c, hc, r, hr, rfl⟩ := Node.mem_placesFrom.1 hl
        have hbelow : ⟨r.address ++ [i], b.node⟩ ∈ r.below :=
          Located.mem_below.2 ⟨i, hnode, rfl⟩
        refine Node.mem_placesFrom.2 ⟨j, c, hc, _, ih c (List.mem_of_getElem? hc) hr hbelow, ?_⟩
        obtain ⟨a, n⟩ := b
        exact congrArg (Located.mk · n) haddress

namespace MassCache

/-! ## What may be remembered -/

/-- Every mass that is remembered for a place of the tree is right. -/
def Correct (tree : Node) (cache : MassCache) : Prop :=
  ∀ l ∈ tree.places, ∀ mass, cache l.address = some mass → mass = l.node.mass

theorem correct_empty (tree : Node) : MassCache.empty.Correct tree :=
  fun _ _ _ h => absurd h (by simp [MassCache.empty])

variable {tree : Node} {cache : MassCache} {l : Located}

/-- A right answer can be remembered beside others. -/
theorem Correct.record (h : cache.Correct tree) (hl : l ∈ tree.places) :
    (cache.record l.address l.node.mass).Correct tree := by
  intro m hm mass hmass
  rw [MassCache.record] at hmass
  split at hmass
  · rename_i haddress
    obtain rfl := Node.eq_of_address_eq hm hl haddress
    exact (Option.some.inj hmass).symm
  · exact h m hm mass hmass

/-! ## The order of counting -/

/-- Each node without a mass has its child nodes without a mass further on. -/
def ChildrenFollow (cache : MassCache) : List Located → Prop
  | [] => True
  | l :: order =>
    (∀ b ∈ l.below, cache b.address = none → b ∈ order) ∧ ChildrenFollow cache order

theorem mem_uncounted {stack : List Located} (hl : l ∈ stack) (h : cache l.address = none) :
    l ∈ cache.uncounted stack := by
  fun_induction uncounted cache stack with
  | case1 => exact absurd hl List.not_mem_nil
  | case2 top stack htop ih =>
      rcases List.mem_cons.1 hl with rfl | hl
      · exact List.mem_cons_self
      · exact List.mem_cons_of_mem _ (ih (List.mem_append_right _ hl))
  | case3 top stack mass htop ih =>
      rcases List.mem_cons.1 hl with rfl | hl
      · rw [h] at htop
        exact absurd htop (by simp)
      · exact ih hl

theorem childrenFollow_uncounted (cache : MassCache) (stack : List Located) :
    cache.ChildrenFollow (cache.uncounted stack) := by
  fun_induction uncounted cache stack with
  | case1 => trivial
  | case2 top stack htop ih =>
      refine ⟨fun b hb hnone => ?_, ih⟩
      exact mem_uncounted (List.mem_append_left _ (List.mem_reverse.2 hb)) hnone
  | case3 top stack mass htop ih => exact ih

/-- All that is found uncounted lies in the tree, at or below the stack. -/
theorem mem_places_of_mem_uncounted {stack : List Located}
    (hstack : ∀ m ∈ stack, m ∈ tree.places) (hl : l ∈ cache.uncounted stack) :
    l ∈ tree.places := by
  fun_induction uncounted cache stack with
  | case1 => exact absurd hl List.not_mem_nil
  | case2 top stack htop ih =>
      rcases List.mem_cons.1 hl with rfl | hl
      · exact hstack l List.mem_cons_self
      · refine ih (fun m hm => ?_) hl
        rcases List.mem_append.1 hm with hm | hm
        · exact Node.mem_places_of_mem_below (hstack top List.mem_cons_self) (List.mem_reverse.1 hm)
        · exact hstack m (List.mem_cons_of_mem _ hm)
  | case3 top stack mass htop ih =>
      exact ih (fun m hm => hstack m (List.mem_cons_of_mem _ hm)) hl

theorem isPrefix_of_mem_uncounted {a : Address} {stack : List Located}
    (hstack : ∀ m ∈ stack, a <+: m.address) (hl : l ∈ cache.uncounted stack) :
    a <+: l.address := by
  fun_induction uncounted cache stack with
  | case1 => exact absurd hl List.not_mem_nil
  | case2 top stack htop ih =>
      rcases List.mem_cons.1 hl with rfl | hl
      · exact hstack l List.mem_cons_self
      · refine ih (fun m hm => ?_) hl
        rcases List.mem_append.1 hm with hm | hm
        · obtain ⟨i, -, haddress⟩ := Located.mem_below.1 (List.mem_reverse.1 hm)
          rw [haddress]
          exact (hstack top List.mem_cons_self).trans (List.prefix_append _ _)
        · exact hstack m (List.mem_cons_of_mem _ hm)
  | case3 top stack mass htop ih =>
      exact ih (fun m hm => hstack m (List.mem_cons_of_mem _ hm)) hl

/-! ## Filling -/

theorem foldl_add_masses (ns : List Node) (start : Nat) :
    (ns.map Node.mass).foldl (· + ·) start = start + Node.totalMass ns := by
  induction ns generalizing start with
  | nil => rfl
  | cons n ns ih => rw [List.map_cons, List.foldl_cons, ih, Node.totalMass_cons, Nat.add_assoc]

/-- A node whose child nodes have their masses is counted. -/
theorem count?_eq (h : ∀ b ∈ l.below, cache b.address = some b.node.mass) :
    cache.count? l = some (cache.record l.address l.node.mass) := by
  have hmasses : ∀ bs : List Located, (∀ b ∈ bs, cache b.address = some b.node.mass) →
      bs.mapM (fun b => cache b.address) = some ((bs.map (·.node)).map Node.mass) := by
    intro bs hbs
    induction bs with
    | nil => rfl
    | cons b bs ih =>
        rw [List.mapM_cons, hbs b List.mem_cons_self,
          ih fun d hd => hbs d (List.mem_cons_of_mem _ hd)]
        rfl
  rw [count?, hmasses l.below h, Option.map_some, foldl_add_masses, Located.map_node_below,
    ← Node.mass_eq]

/-- What a cache is after some nodes have been counted: right, with the masses of
these nodes, and as before elsewhere. -/
structure Filled (tree : Node) (cache : MassCache) (order : List Located)
    (after : MassCache) : Prop where
  correct : after.Correct tree
  counted : ∀ l ∈ order, after l.address = some l.node.mass
  kept : ∀ a, (∀ l ∈ order, l.address ≠ a) → after a = cache a

theorem Filled.nil (h : cache.Correct tree) : Filled tree cache [] cache :=
  ⟨h, fun _ hl => absurd hl List.not_mem_nil, fun _ _ => rfl⟩

section Filled

variable {order : List Located} {mid : MassCache}

theorem Filled.cons (h : Filled tree cache order mid)
    (horder : ∀ m ∈ l :: order, m ∈ tree.places) :
    Filled tree cache (l :: order) (mid.record l.address l.node.mass) := by
  have hl := horder l List.mem_cons_self
  refine ⟨h.correct.record hl, ?_, ?_⟩
  · intro m hm
    rw [record]
    split
    · rename_i haddress
      rw [Node.eq_of_address_eq (horder m hm) hl haddress]
    · rename_i haddress
      rcases List.mem_cons.1 hm with rfl | hm
      · exact absurd rfl haddress
      · exact h.counted m hm
  · intro a ha
    rw [record, if_neg fun haddress => ha l List.mem_cons_self haddress.symm]
    exact h.kept a fun m hm => ha m (List.mem_cons_of_mem _ hm)

/-- A place that was not left uncounted has its mass. -/
theorem Filled.mass_eq (h : Filled tree cache order mid) (hcache : cache.Correct tree)
    (horder : ∀ m ∈ order, m ∈ tree.places) (hl : l ∈ tree.places)
    (hlisted : cache l.address = none → l ∈ order) :
    mid l.address = some l.node.mass := by
  by_cases hmem : l ∈ order
  · exact h.counted l hmem
  · have hnot : ∀ m ∈ order, m.address ≠ l.address := fun m hm haddress =>
      hmem (Node.eq_of_address_eq (horder m hm) hl haddress ▸ hm)
    rw [h.kept _ hnot]
    cases hbefore : cache l.address with
    | none => exact absurd (hlisted hbefore) hmem
    | some mass => rw [hcache l hl mass hbefore]

/-- Counted from the last to the first, every node finds the masses of its child
nodes. -/
theorem exists_fill? (hcache : cache.Correct tree) (horder : ∀ m ∈ order, m ∈ tree.places)
    (hfollow : cache.ChildrenFollow order) :
    ∃ after, cache.fill? order.reverse = some after ∧ Filled tree cache order after := by
  induction order with
  | nil => exact ⟨cache, rfl, .nil hcache⟩
  | cons l order ih =>
      obtain ⟨hbelow, hfollow⟩ := hfollow
      have hrest := fun m hm => horder m (List.mem_cons_of_mem _ hm)
      obtain ⟨mid, hfill, hmid⟩ := ih hrest hfollow
      -- A child node has its mass from before, or has just been counted.
      have hmasses : ∀ b ∈ l.below, mid b.address = some b.node.mass := fun b hb =>
        hmid.mass_eq hcache hrest
          (Node.mem_places_of_mem_below (horder l List.mem_cons_self) hb) (hbelow b hb)
      refine ⟨_, ?_, hmid.cons horder⟩
      rw [fill?] at hfill ⊢
      rw [List.reverse_cons, List.foldlM_append, hfill]
      show List.foldlM count? mid [l] = _
      rw [List.foldlM_cons, count?_eq hmasses]
      rfl

end Filled

/-! ## Questions -/

/-- A question about a node of the tree is answered, and what is remembered after it
is right. Nothing is forgotten or added outside of the node and what is below it. -/
theorem exists_query? (hcache : cache.Correct tree) (hl : l ∈ tree.places) :
    ∃ after, cache.query? l = some (l.node.mass, after) ∧ after.Correct tree ∧
      ∀ a, ¬ l.address <+: a → after a = cache a := by
  have hplaces : ∀ m ∈ cache.uncounted [l], m ∈ tree.places := fun m hm =>
    mem_places_of_mem_uncounted (fun d hd => List.mem_singleton.1 hd ▸ hl) hm
  obtain ⟨after, hfill, hfilled⟩ :=
    exists_fill? hcache hplaces (childrenFollow_uncounted cache [l])
  have hmass : after l.address = some l.node.mass :=
    hfilled.mass_eq hcache hplaces hl (mem_uncounted List.mem_cons_self)
  refine ⟨after, ?_, hfilled.correct, fun a ha => hfilled.kept a fun m hm haddress => ?_⟩
  · rw [query?, hfill]
    show (after l.address >>= _) = _
    rw [hmass]
    rfl
  · have hprefix : ∀ d ∈ [l], l.address <+: d.address := fun d hd =>
      List.mem_singleton.1 hd ▸ List.prefix_refl _
    exact ha (haddress ▸ isPrefix_of_mem_uncounted hprefix hm)

/-- What can be remembered after some questions about nodes of a tree. -/
inductive Reached (tree : Node) : MassCache → Prop
  | empty : Reached tree .empty
  | query {cache after : MassCache} {l : Located} {mass : Nat} (hl : l ∈ tree.places) :
      Reached tree cache → cache.query? l = some (mass, after) → Reached tree after

theorem Reached.correct (h : Reached tree cache) : cache.Correct tree := by
  induction h with
  | empty => exact correct_empty tree
  | query hl _ hquery ih =>
      obtain ⟨after, hquery', hafter, -⟩ := exists_query? ih hl
      obtain ⟨-, rfl⟩ := Prod.mk.inj (Option.some.inj (hquery.symm.trans hquery'))
      exact hafter

/-- **Masses.** Whatever masses in a tree are remembered, if they are right, a question
for the mass of a node is answered: no child node is without its mass when a node is
counted. The answer is the number of nodes at and below the node, one more than the
masses of its child nodes. What is remembered afterwards is right again, and
questions from the start on never lead to anything else. -/
theorem query?_correct (tree : Node) :
    (∀ cache, Reached tree cache → cache.Correct tree) ∧
    ∀ cache : MassCache, cache.Correct tree → ∀ l ∈ tree.places,
      ∃ mass after, cache.query? l = some (mass, after) ∧
        mass = l.node.places.length ∧ mass = 1 + Node.totalMass l.node.nodes ∧
        after.Correct tree ∧ ∀ a, ¬ l.address <+: a → after a = cache a := by
  refine ⟨fun _ h => h.correct, fun cache hcache l hl => ?_⟩
  obtain ⟨after, hquery, hafter, hkept⟩ := exists_query? hcache hl
  exact ⟨_, after, hquery, l.node.length_places.symm, l.node.mass_eq, hafter, hkept⟩

end MassCache

/-- A method with a parameter and a call in it, and a literal after it. -/
def Node.methodAndLiteral : Node :=
  .mk { kind := .program }
    [.node (.mk { kind := .methodDefinition, name := "m" }
      [.node (.mk { kind := .parameterList } [.text "a"]),
       .node (.mk { kind := .call, name := "b" } [.absent, .text "b"])]),
     .node (.mk { kind := .literal } [.text "1"])]

/-- The masses of the call and of the literal, and no others. -/
def MassCache.callAndLiteral : MassCache := (MassCache.empty.record [0, 1] 1).record [1] 1

/-- The other three nodes are counted, and there are five in all. -/
theorem MassCache.query?_correct_methodAndLiteral :
    callAndLiteral.Correct .methodAndLiteral ∧
    (callAndLiteral.uncounted [⟨[], .methodAndLiteral⟩]).map (·.address) = [[], [0], [0, 0]] ∧
    ∃ after, callAndLiteral.query? ⟨[], .methodAndLiteral⟩ = some (5, after) ∧
      after.Correct .methodAndLiteral := by
  have hcall : ⟨[0, 1], .mk { kind := .call, name := "b" } [.absent, .text "b"]⟩ ∈
      Node.methodAndLiteral.places := by
    simp [Node.methodAndLiteral, Node.places, Child.placesFrom, Located.under]
  have hliteral : ⟨[1], .mk { kind := .literal } [.text "1"]⟩ ∈
      Node.methodAndLiteral.places := by
    simp [Node.methodAndLiteral, Node.places, Child.placesFrom, Located.under]
  have hcorrect : callAndLiteral.Correct .methodAndLiteral :=
    ((correct_empty _).record hcall).record hliteral
  obtain ⟨mass, after, hquery, hmass, -, hafter, -⟩ :=
    (query?_correct .methodAndLiteral).2 _ hcorrect _ (Node.root_mem_places _)
  have hfive : mass = 5 := hmass.trans (by decide)
  rw [hfive] at hquery
  refine ⟨hcorrect, ?_, after, hquery, hafter⟩
  simp [uncounted, callAndLiteral, record, Located.below, Node.methodAndLiteral, Node.nodes,
    Node.children, List.filterMap_cons, Child.node?, MassCache.empty]

end RubySmells
