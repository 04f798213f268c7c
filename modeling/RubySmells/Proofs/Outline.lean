import RubySmells.Proofs.Likeness

/-!
# The outline of a tree

Most leaves of a simplified tree are of no interest to any rule: literals, and
constructs without a role that have no node below them. The *outline* of a tree
(`Node.outline`) has a blank in place of each of them and is otherwise the same.

A walk over the outline stops where a walk over the tree does, in the same frames
(`Node.stops_outline`), and finds the same (`Walk.run_outline`). So trees with the
same outline are reported on in the same way.
-/

namespace RubySmells

/-- A leaf of no interest. -/
def Node.blank : Node := .mk { kind := .other } []

/-- Whether the nodes of a kind say nothing to a rule by themselves. -/
def Kind.isDull (kind : Kind) : Bool :=
  kind = .literal || kind = .other

mutual

/-- The tree with blanks in place of leaves of no interest. -/
def Node.outline : Node → Node
  | .mk h cs =>
    let cs := Child.outlineAll cs
    if h.kind.isDull && (cs.filterMap Child.node?).isEmpty then .blank else .mk h cs

/-- The children with blanks in place of leaves of no interest. -/
def Child.outlineAll : List Child → List Child
  | [] => []
  | .node n :: cs => .node n.outline :: Child.outlineAll cs
  | .text s :: cs => .text s :: Child.outlineAll cs
  | .absent :: cs => .absent :: Child.outlineAll cs

end

/-! ## Parts of an outline -/

theorem Child.filterMap_node_outlineAll (cs : List Child) :
    (Child.outlineAll cs).filterMap Child.node? = (cs.filterMap Child.node?).map Node.outline := by
  induction cs with
  | nil => rfl
  | cons c cs ih =>
      cases c with
      | node n => exact congrArg (n.outline :: ·) ih
      | text s => exact ih
      | absent => exact ih

theorem Child.filterMap_text_outlineAll (cs : List Child) :
    (Child.outlineAll cs).filterMap Child.text? = cs.filterMap Child.text? := by
  induction cs with
  | nil => rfl
  | cons c cs ih =>
      cases c with
      | node n => exact ih
      | text s => exact congrArg (s :: ·) ih
      | absent => exact ih

theorem Child.head?_outlineAll (cs : List Child) :
    (Child.outlineAll cs).head?.bind Child.node? =
      (cs.head?.bind Child.node?).map Node.outline := by
  cases cs with
  | nil => rfl
  | cons c cs => cases c <;> rfl

theorem Child.outlineAll_append (cs ds : List Child) :
    Child.outlineAll (cs ++ ds) = Child.outlineAll cs ++ Child.outlineAll ds := by
  induction cs with
  | nil => rfl
  | cons c cs ih =>
      cases c with
      | node n => exact congrArg (.node n.outline :: ·) ih
      | text s => exact congrArg (.text s :: ·) ih
      | absent => exact congrArg (.absent :: ·) ih

theorem Child.outlineAll_map_node (ns : List Node) :
    Child.outlineAll (ns.map .node) = (ns.map Node.outline).map .node := by
  induction ns with
  | nil => rfl
  | cons n ns ih => exact congrArg (.node n.outline :: ·) ih

/-- A node is of no interest and has no node below it, or it keeps its header. -/
theorem Node.outline_cases (n : Node) :
    n.kind.isDull = true ∧ n.nodes = [] ∧ n.outline = .blank ∨
      n.outline = .mk n.header (Child.outlineAll n.children) := by
  obtain ⟨h, cs⟩ := n
  by_cases hdull : h.kind.isDull = true ∧ cs.filterMap Child.node? = []
  · refine .inl ⟨hdull.1, hdull.2, ?_⟩
    simp [Node.outline, Child.filterMap_node_outlineAll, hdull]
  · refine .inr ?_
    simp only [Node.outline, Child.filterMap_node_outlineAll]
    rw [if_neg]
    · rfl
    · simpa using hdull

/-- What children look like in outline decides what their parent looks like. -/
theorem Node.outline_congr (h : Header) {cs cs' : List Child}
    (hcs : Child.outlineAll cs = Child.outlineAll cs') :
    (Node.mk h cs).outline = (Node.mk h cs').outline := by
  simp only [Node.outline, hcs]

theorem Node.nodes_outline (n : Node) : n.outline.nodes = n.nodes.map Node.outline := by
  rcases n.outline_cases with ⟨-, hnodes, houtline⟩ | houtline
  · rw [houtline, hnodes]
    rfl
  · rw [houtline]
    exact Child.filterMap_node_outlineAll n.children

theorem Node.mass_outline (n : Node) : n.outline.mass = n.mass := by
  induction n using Node.induction with
  | step n ih =>
      have htotal : ∀ ns : List Node, (∀ c ∈ ns, c.outline.mass = c.mass) →
          Node.totalMass (ns.map Node.outline) = Node.totalMass ns := by
        intro ns hns
        induction ns with
        | nil => rfl
        | cons c ns ihns =>
            rw [List.map_cons, Node.totalMass_cons, Node.totalMass_cons,
              hns c List.mem_cons_self, ihns fun d hd => hns d (List.mem_cons_of_mem _ hd)]
      rw [Node.mass_eq, Node.nodes_outline, htotal n.nodes ih, Node.mass_eq n]

theorem Kind.ofKind?_of_isDull {kind : Kind} (h : kind.isDull = true) :
    Rule.ofKind? kind = none := by
  cases kind <;> first | rfl | exact absurd h (by decide)

theorem Node.firstNode?_outline (n : Node) :
    n.outline.firstNode? = n.firstNode?.map Node.outline := by
  rcases n.outline_cases with ⟨-, hnodes, houtline⟩ | houtline
  · have hnone : n.firstNode? = none := by
      rw [Node.firstNode?, Option.bind_eq_none_iff]
      exact fun c hc => List.filterMap_eq_nil_iff.1 hnodes c (List.mem_of_head? hc)
    rw [houtline, hnone]
    rfl
  · rw [houtline]
    exact Child.head?_outlineAll n.children

theorem Node.header_outline {n : Node} (h : n.kind.isDull = false) :
    n.outline.header = n.header := by
  rcases n.outline_cases with ⟨hdull, -, -⟩ | houtline
  · exact absurd (hdull.symm.trans h) (by decide)
  · rw [houtline]
    rfl

/-- An outline tells kinds of interest apart. -/
theorem Node.kind_outline_eq_iff (kind : Kind) (h : kind.isDull = false) (n : Node) :
    n.outline.kind = kind ↔ n.kind = kind := by
  rcases n.outline_cases with ⟨hdull, -, houtline⟩ | houtline
  · rw [houtline]
    constructor
    · rintro rfl
      exact absurd h (by decide)
    · rintro rfl
      exact absurd (hdull.symm.trans h) (by decide)
  · rw [houtline]
    rfl

/-! ## Rules and frames on an outline -/

theorem Node.isCall_outline (n : Node) : n.outline.isCall = n.isCall := by
  simp only [Node.isCall, Node.kind_outline_eq_iff .call rfl]

theorem Rule.startsChain_outline (depth : Nat) (n : Node) :
    startsChain depth n.outline = startsChain depth n := by
  induction depth generalizing n with
  | zero => rfl
  | succ depth ih =>
      cases depth with
      | zero => exact n.isCall_outline
      | succ depth =>
          rw [startsChain, startsChain, n.isCall_outline, Node.receiver?, n.firstNode?_outline,
            Option.any_map]
          exact congrArg (fun p => n.isCall && n.firstNode?.any p) (funext ih)

theorem Node.isChain_outline (n : Node) : n.outline.isChain = n.isChain :=
  Rule.startsChain_outline Rule.chainDepth n

theorem Node.testedVariable?_outline (n : Node) :
    n.outline.testedVariable? = n.testedVariable? := by
  rw [Node.testedVariable?, Node.testedVariable?, Node.test?, Node.test?, n.firstNode?_outline]
  cases n.firstNode? with
  | none => rfl
  | some t =>
      have hkind := Node.kind_outline_eq_iff .localVariable rfl t
      rw [Option.map_some, Option.filter_some, Option.filter_some]
      simp only [hkind]
      by_cases ht : t.kind = .localVariable
      · have hheader : t.outline.header = t.header := Node.header_outline (by rw [ht]; rfl)
        simp [ht, Node.name, hheader]
      · simp [ht]

/-- No rule but the one on chains can tell a node that keeps its header from its
outline. -/
theorem Node.looksLike_outline {n : Node}
    (h : n.outline = .mk n.header (Child.outlineAll n.children)) : n.outline.LooksLike n where
  header := by rw [h]; rfl
  texts := by rw [h]; exact Child.filterMap_text_outlineAll n.children
  mass := n.mass_outline
  tested := n.testedVariable?_outline

theorem Node.finding_outline (last : Option String) (n : Node) (f : Frame) :
    n.outline.finding last f = n.finding last f := by
  rcases n.outline_cases with ⟨hdull, -, houtline⟩ | houtline
  · rw [houtline, Node.finding, Node.finding, Kind.ofKind?_of_isDull hdull]
    rfl
  · have hlike := Node.looksLike_outline houtline
    rw [Node.finding, Node.finding, hlike.kind]
    exact Option.bind_congr fun rule _ =>
      Rule.finding_congr hlike (fun _ => n.isChain_outline) last f

theorem Node.lastAfter_outline (last : Option String) (n : Node) (f : Frame) :
    n.outline.lastAfter last f = n.lastAfter last f := by
  rw [Node.lastAfter, Node.lastAfter, n.isChain_outline]

theorem Frame.apply_of_isDull {n : Node} (h : n.kind.isDull = true) (f : Frame) :
    f.apply n = f := by
  unfold Frame.apply
  cases hkind : n.kind <;> first | rfl | exact absurd (hkind ▸ h) (by decide)

theorem Frame.apply_outline (n : Node) (f : Frame) : f.apply n.outline = f.apply n := by
  rcases n.outline_cases with ⟨hdull, -, houtline⟩ | houtline
  · rw [houtline, Frame.apply_of_isDull hdull]
    rfl
  · exact (Node.looksLike_outline houtline).apply f

theorem Node.opens_outline (nested : Bool) (n : Node) :
    n.outline.opens nested = n.opens nested := by
  have hframed : ∀ m : Node, Context.framed m.kind =
      (decide (m.kind = .classDefinition) || decide (m.kind = .methodDefinition) ||
        decide (m.kind = .block)) := fun _ => rfl
  simp only [Node.opens, hframed, Node.kind_outline_eq_iff .classDefinition rfl,
    Node.kind_outline_eq_iff .methodDefinition rfl,
    Node.kind_outline_eq_iff .block rfl]

/-! ## Walks over an outline -/

theorem Frame.acrossAll_map_outline {nested : Bool} {ns : List Node}
    (hns : ∀ c ∈ ns, ∀ f, across nested c.outline f = across nested c f) (f : Frame) :
    acrossAll nested (ns.map Node.outline) f = acrossAll nested ns f := by
  induction ns generalizing f with
  | nil => rfl
  | cons n ns ih =>
      rw [List.map_cons, acrossAll, acrossAll, hns n List.mem_cons_self,
        ih fun c hc => hns c (List.mem_cons_of_mem _ hc)]

theorem Frame.across_outline (nested : Bool) (n : Node) (f : Frame) :
    across nested n.outline f = across nested n f := by
  induction n using Node.induction generalizing f with
  | step n ih =>
      rw [across, across, n.opens_outline, apply_outline, n.nodes_outline,
        acrossAll_map_outline ih]

/-- The stop at the same place of an outline. -/
def Stop.outline (s : Stop) : Stop := ⟨⟨s.place.address, s.place.node.outline⟩, s.frame⟩

theorem Node.stopsFrom_map_outline {nested : Bool} {ns : List Node}
    (hns : ∀ c ∈ ns, ∀ f, c.outline.stops nested f = (c.stops nested f).map Stop.outline)
    (i : Nat) (f : Frame) :
    Node.stopsFrom nested i (ns.map Node.outline) f =
      (Node.stopsFrom nested i ns f).map Stop.outline := by
  induction ns generalizing i f with
  | nil => rw [List.map_nil, Node.stopsFrom, List.map_nil]
  | cons n ns ih =>
      rw [List.map_cons, Node.stopsFrom, Node.stopsFrom, List.map_append, List.map_map,
        hns n List.mem_cons_self, List.map_map, Frame.across_outline,
        ih fun c hc => hns c (List.mem_cons_of_mem _ hc)]
      rfl

/-- A walk over the outline stops where a walk over the tree does, in the same
frames. -/
theorem Node.stops_outline (nested : Bool) (n : Node) (f : Frame) :
    n.outline.stops nested f = (n.stops nested f).map Stop.outline := by
  induction n using Node.induction generalizing f with
  | step n ih =>
      rw [Node.stops, Node.stops, n.nodes_outline, Frame.apply_outline,
        Node.stopsFrom_map_outline ih]
      rfl

theorem Stop.findings_map_outline (last : Option String) (ss : List Stop) :
    findings last (ss.map Stop.outline) = findings last ss := by
  induction ss generalizing last with
  | nil => rfl
  | cons s ss ih =>
      show s.place.node.outline.finding last s.frame ::
        findings (s.place.node.outline.lastAfter last s.frame) (ss.map Stop.outline) = _
      rw [Node.finding_outline, Node.lastAfter_outline, ih]
      rfl

/-- **Outlines.** Trees with the same outline are reported on in the same way. -/
theorem Walk.run_outline (path : String) (nested : Bool) {tree tree' : Node}
    (h : tree.outline = tree'.outline) :
    ∃ w w', run path nested tree = .ok w ∧ run path nested tree' = .ok w' ∧
      w.issues = w'.issues ∧ w.output = w'.output := by
  obtain ⟨w, hrun, hissues, houtput⟩ := run_findings path nested tree
  obtain ⟨w', hrun', hissues', houtput'⟩ := run_findings path nested tree'
  have hsame : w.issues = w'.issues := by
    rw [hissues, hissues', ← Stop.findings_map_outline, ← Node.stops_outline, h,
      Node.stops_outline, Stop.findings_map_outline]
  exact ⟨w, w', hrun, hrun', hsame, by rw [houtput, houtput', hsame]⟩

end RubySmells
