import RubySmells.Proofs.Traversal

/-!
# The class and the method of a finding

A finding names the class and the method it was made in. In nested mode these
are the definitions around the node, whatever was walked over before; else they
are the definitions met last. Both follow from what is in effect at a place:
there, the last class definition among the nodes in effect is the innermost
one above the place, because every class definition gets a frame of its own
(`Node.filter_kind_inEffect`), and likewise for methods.
-/

namespace RubySmells

/-- The name borne by the last node of a kind in a list of places; none if there
is no such node. -/
def Located.lastName (kind : Kind) (ls : List Located) : Option String :=
  (ls.filter (·.node.kind = kind)).getLast?.bind (·.node.name)

theorem Located.lastName_of_forall_ne {kind : Kind} {ls : List Located}
    (h : ∀ l ∈ ls, l.node.kind ≠ kind) : Located.lastName kind ls = none := by
  have hfilter : ls.filter (·.node.kind = kind) = [] := by
    rw [List.filter_eq_nil_iff]
    simpa using h
  rw [Located.lastName, hfilter]
  rfl

theorem Located.lastName_append {kind : Kind} {before after : List Located} {l : Located}
    (hl : l.node.kind = kind) (h : ∀ m ∈ after, m.node.kind ≠ kind) :
    Located.lastName kind (before ++ l :: after) = l.node.name := by
  have hfilter : after.filter (·.node.kind = kind) = [] := by
    rw [List.filter_eq_nil_iff]
    simpa using h
  simp [Located.lastName, hl, hfilter]

theorem Located.lastName_eq_none_iff {kind : Kind} {ls : List Located}
    (hnamed : ∀ l ∈ ls, l.node.kind = kind → l.node.name ≠ none) :
    Located.lastName kind ls = none ↔ ∀ l ∈ ls, l.node.kind ≠ kind := by
  rcases Located.split_last kind ls with hnone | ⟨before, l, after, rfl, hl, hafter⟩
  · exact ⟨fun _ => hnone, Located.lastName_of_forall_ne⟩
  · have hmem : l ∈ before ++ l :: after := by simp
    rw [Located.lastName_append hl hafter]
    exact ⟨fun h => absurd h (hnamed l hmem hl), fun h => absurd hl (h l hmem)⟩

/-! ## The last definition in effect -/

/-- A name in a frame that only the nodes of a kind write. -/
structure Frame.WrittenBy (kind : Kind) (name : Frame → Option String) : Prop where
  apply_of_eq : ∀ (f : Frame) (n : Node), n.kind = kind → name (f.apply n) = n.name
  apply_of_ne : ∀ (f : Frame) (n : Node), n.kind ≠ kind → name (f.apply n) = name f

theorem Frame.className_writtenBy : Frame.WrittenBy .classDefinition Frame.className where
  apply_of_eq f n h := by simp [Frame.apply, h]
  apply_of_ne f n h := by
    unfold Frame.apply
    split
    · contradiction
    · rfl
    · rfl
    · split <;> rfl
    · rfl

theorem Frame.methodName_writtenBy : Frame.WrittenBy .methodDefinition Frame.methodName where
  apply_of_eq f n h := by simp [Frame.apply, h]
  apply_of_ne f n h := by
    unfold Frame.apply
    split
    · rfl
    · contradiction
    · rfl
    · split <;> rfl
    · rfl

section Written

variable {kind : Kind} {name : Frame → Option String}

theorem Frame.WrittenBy.applyAll_of_forall_ne (hname : Frame.WrittenBy kind name)
    {ls : List Located} (h : ∀ l ∈ ls, l.node.kind ≠ kind) (f : Frame) :
    name (f.applyAll ls) = name f := by
  induction ls generalizing f with
  | nil => rfl
  | cons l ls ih =>
      rw [Frame.applyAll_cons, ih fun m hm => h m (List.mem_cons_of_mem _ hm),
        hname.apply_of_ne f l.node (h l List.mem_cons_self)]

/-- Of the nodes applied to a fresh frame, the last of the kind gives the name. -/
theorem Frame.WrittenBy.applyAll_eq (hname : Frame.WrittenBy kind name)
    (hfresh : name {} = none) (ls : List Located) :
    name (Frame.applyAll {} ls) = Located.lastName kind ls := by
  rcases Located.split_last kind ls with hnone | ⟨before, l, after, rfl, hl, hafter⟩
  · rw [hname.applyAll_of_forall_ne hnone, hfresh, Located.lastName_of_forall_ne hnone]
  · rw [Frame.applyAll_append, Frame.applyAll_cons, hname.applyAll_of_forall_ne hafter,
      hname.apply_of_eq _ _ hl, Located.lastName_append hl hafter]

end Written

/-! ## Definitions around a place -/

theorem Located.mem_lineage_self {tree : Node} {l : Located} (h : l ∈ tree.places) :
    l ∈ tree.lineage l.address := by
  rw [Node.lineage, List.mem_filter]
  exact ⟨h, by simp⟩

/-- Nothing that outlasts a tree got a frame of its own. -/
theorem Located.Outlasts.kind_ne {tree : Node} {l : Located} {kind : Kind}
    (h : l.Outlasts true tree) (hl : l ∈ tree.places) (hkind : Context.framed kind = true) :
    l.node.kind ≠ kind := by
  intro hk
  have hopens := h l (Located.mem_lineage_self hl)
  rw [Node.opens, hk, hkind] at hopens
  exact absurd hopens (by simp)

/-- In nested mode, the definitions in effect at a place are those around it. -/
theorem Node.filter_kind_inEffect {kind : Kind} (hkind : Context.framed kind = true)
    {tree : Node} {p : Located} (hp : p ∈ tree.places) :
    (tree.inEffect true p.address).filter (·.node.kind = kind) =
      (tree.lineage p.address).filter (·.node.kind = kind) := by
  induction tree using Node.induction generalizing p with
  | step n ih =>
      rw [Node.places_eq] at hp
      rcases List.mem_cons.1 hp with rfl | hp
      · rw [Node.inEffect_nil, Node.lineage_nil]
      · obtain ⟨i, c, hc, r, hr, rfl⟩ := Node.mem_placesFrom.1 hp
        rw [Nat.zero_add, Located.under_address]
        -- What is in effect from the trees to the left has no frame of its own.
        have hleft : ((Node.placesFrom 0 (n.nodes.take i)).filter fun l =>
            l.InEffect true n (i :: r.address)).filter (·.node.kind = kind) = [] := by
          rw [List.filter_eq_nil_iff]
          intro l hl
          obtain ⟨hl, heffect⟩ := List.mem_filter.1 hl
          obtain ⟨j, d, hd, q, hq, rfl⟩ := Node.mem_placesFrom.1 hl
          rw [Nat.zero_add] at heffect
          have houtlasts := (Located.inEffect_under_left hd).1 (of_decide_eq_true heffect)
          simpa using houtlasts.kind_ne hq hkind
        have hunder : ((fun l : Located => decide (l.node.kind = kind)) ∘ Located.under i) =
            fun l => decide (l.node.kind = kind) := rfl
        rw [Node.inEffect_cons hc, Node.lineage_cons hc, List.filter_cons, List.filter_cons,
          List.filter_append, hleft, List.nil_append, List.filter_map, List.filter_map, hunder,
          ih c (List.mem_of_getElem? hc) hr]

/-- In nested mode, a name in the frame at a place is that of the definition
around it. -/
theorem Frame.WrittenBy.frameAt_nested {kind : Kind} {name : Frame → Option String}
    (hname : Frame.WrittenBy kind name) (hfresh : name {} = none)
    (hkind : Context.framed kind = true) {tree : Node} {p : Located} (hp : p ∈ tree.places) :
    name (tree.frameAt true p.address) = Located.lastName kind (tree.lineage p.address) := by
  rw [Node.frameAt, hname.applyAll_eq hfresh, Located.lastName, Located.lastName,
    Node.filter_kind_inEffect hkind hp]

theorem Located.inEffect_false (tree : Node) (a : Address) (l : Located) :
    l.InEffect false tree a := by
  intro s _ hs
  exact absurd hs (by simp [Node.opens])

/-- Otherwise every node before the place has been applied. -/
theorem Node.frameAt_false {tree : Node} {k : Nat} {p : Located}
    (hp : tree.places[k]? = some p) :
    tree.frameAt false p.address = Frame.applyAll {} (tree.places.take (k + 1)) := by
  rw [Node.frameAt, Node.inEffect, Node.take_places_eq_upTo hp]
  congr 1
  rw [List.filter_eq_self]
  intro l _
  exact decide_eq_true (Located.inEffect_false tree p.address l)

/-- After a run in nested mode no name is left. -/
theorem Frame.WrittenBy.across_nested {kind : Kind} {name : Frame → Option String}
    (hname : Frame.WrittenBy kind name) (hkind : Context.framed kind = true) (tree : Node)
    (f : Frame) : name (Frame.across true tree f) = name f := by
  rw [Frame.across_eq]
  apply hname.applyAll_of_forall_ne
  intro l hl
  obtain ⟨hl, houtlasts⟩ := List.mem_filter.1 hl
  have houtlasts : l.Outlasts true tree := of_decide_eq_true houtlasts
  exact houtlasts.kind_ne hl hkind

/-! ## Findings -/

/-- A finding names the class and the method of the frame it was made in. -/
theorem Node.finding_names {last : Option String} {n : Node} {f : Frame} {issue : Issue}
    (h : n.finding last f = some issue) :
    issue.className = f.className ∧ issue.methodName = f.methodName := by
  obtain ⟨rule, -, h⟩ := Option.bind_eq_some_iff.1 h
  unfold Rule.finding at h
  split at h
  · obtain rfl := Option.some.inj h
    exact ⟨rfl, rfl⟩
  · exact absurd h (by simp)

/-- **Attribution.** Every finding of a run is made at the visit of a place. In
nested mode it names the innermost class and method definitions at or above
that place, and a run ends with a single frame that names neither. Otherwise
it names the last class and method definitions at or before the place in
pre-order. -/
theorem Walk.found_names (path : String) (nested : Bool) (tree : Node) :
    (∃ w, run path nested tree = .ok w ∧
      w.issues = (visits path nested tree).filterMap (·.found) ∧
      (nested = true → ∃ live, w.context.frames = [⟨none, none, live⟩])) ∧
    ∀ (k : Nat) (p : Located), tree.places[k]? = some p →
      ∃ v, (visits path nested tree)[k]? = some v ∧ v.node = p.node ∧
        ∀ issue, v.found = some issue →
          (nested = true →
            issue.className = Located.lastName .classDefinition (tree.lineage p.address) ∧
            issue.methodName = Located.lastName .methodDefinition (tree.lineage p.address)) ∧
          (nested = false →
            issue.className = Located.lastName .classDefinition (tree.places.take (k + 1)) ∧
            issue.methodName = Located.lastName .methodDefinition (tree.places.take (k + 1))) := by
  constructor
  · obtain ⟨w, hrun, hadds, hcontext, -⟩ := run_stops path nested tree
    refine ⟨w, hrun, hadds.issues, ?_⟩
    rintro rfl
    have hclass : (Frame.across true tree {}).className = none :=
      Frame.className_writtenBy.across_nested rfl tree {}
    have hmethod : (Frame.across true tree {}).methodName = none :=
      Frame.methodName_writtenBy.across_nested rfl tree {}
    rw [hcontext]
    cases hframe : Frame.across true tree {} with
    | mk className methodName live =>
        rw [hframe] at hclass hmethod
        obtain rfl : className = none := hclass
        obtain rfl : methodName = none := hmethod
        exact ⟨live, rfl⟩
  · intro k p hp
    obtain ⟨v, hv, hnode, -, hfound⟩ := exists_visit path nested hp
    refine ⟨v, hv, hnode, ?_⟩
    intro issue hissue
    rw [hfound] at hissue
    -- The names are those in the frame; in either mode they are known.
    obtain ⟨hclass, hmethod⟩ := Node.finding_names hissue
    rw [hclass, hmethod]
    constructor
    · rintro rfl
      have hmem := List.mem_of_getElem? hp
      exact ⟨Frame.className_writtenBy.frameAt_nested rfl rfl hmem,
        Frame.methodName_writtenBy.frameAt_nested rfl rfl hmem⟩
    · rintro rfl
      rw [Node.frameAt_false hp]
      exact ⟨Frame.className_writtenBy.applyAll_eq rfl _,
        Frame.methodName_writtenBy.applyAll_eq rfl _⟩

/-- A class `A` with a method `m`, in which a class `B` with a method `n` is
defined, and a long parameter list in `A` after all of these. -/
def Node.nestedDefinitions : Node :=
  .mk { kind := .classDefinition, name := "A" }
    [.node (.mk { kind := .methodDefinition, name := "m" }
      [.node (.mk { kind := .classDefinition, name := "B" }
        [.node (.mk { kind := .methodDefinition, name := "n" } [])])]),
     .node (.mk { kind := .parameterList } [.text "p", .text "q", .text "r", .text "s"])]

/-- In nested mode the list is found in `A`, outside of any method; otherwise in
`B` and `n`, met last. -/
theorem Walk.found_names_nestedDefinitions :
    (∃ v issue, (visits "a.rb" true .nestedDefinitions)[4]? = some v ∧
      v.found = some issue ∧ issue.className = some "A" ∧ issue.methodName = none) ∧
    (∃ v issue, (visits "a.rb" false .nestedDefinitions)[4]? = some v ∧
      v.found = some issue ∧ issue.className = some "B" ∧ issue.methodName = some "n") := by
  have hp : Node.nestedDefinitions.places[4]? =
      some ⟨[1], .mk { kind := .parameterList } [.text "p", .text "q", .text "r", .text "s"]⟩ :=
    rfl
  constructor
  · obtain ⟨v, hv, -, hnames⟩ := (found_names "a.rb" true .nestedDefinitions).2 4 _ hp
    obtain ⟨v', hv', -, -, hfound⟩ := exists_visit "a.rb" true hp
    obtain rfl : v = v' := Option.some.inj (hv.symm.trans hv')
    obtain ⟨hclass, hmethod⟩ := (hnames _ (hfound.trans rfl)).1 rfl
    exact ⟨v, _, hv, hfound.trans rfl, hclass.trans (by decide), hmethod.trans (by decide)⟩
  · obtain ⟨v, hv, -, hnames⟩ := (found_names "a.rb" false .nestedDefinitions).2 4 _ hp
    obtain ⟨v', hv', -, -, hfound⟩ := exists_visit "a.rb" false hp
    obtain rfl : v = v' := Option.some.inj (hv.symm.trans hv')
    obtain ⟨hclass, hmethod⟩ := (hnames _ (hfound.trans rfl)).2 rfl
    exact ⟨v, _, hv, hfound.trans rfl, hclass.trans (by decide), hmethod.trans (by decide)⟩

end RubySmells
