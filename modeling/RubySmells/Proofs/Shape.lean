import RubySmells.Proofs.Derivation
import RubySmells.Proofs.Resolution

/-!
# The shape of simplified trees

The rules read the children of a node by position, so what stands where matters.

* `Node.WellShaped` — which children a node of each kind has;
* `Node.PartsFrom` — where the parts come from that are read by position: the
  receiver of a call, the test of a conditional and the parameters of a method
  are what the fields for them became.

Both hold at every node of a simplified tree (`Source.parse_wellShaped`), by
induction on the derivation of the tree.
-/

namespace RubySmells

/-! ## Properties of every node -/

/-- Whether a property holds of every node of a tree. -/
def Node.Everywhere (P : Node → Prop) (n : Node) : Prop :=
  ∀ p ∈ n.places, P p.node

theorem Node.Everywhere.mk {P : Node → Prop} {h : Header} {cs : List Child} {ns : List Node}
    (hroot : P (.mk h cs)) (hns : cs.filterMap Child.node? = ns)
    (hbelow : ∀ n ∈ ns, n.Everywhere P) : (Node.mk h cs).Everywhere P := by
  subst hns
  intro p hp
  rw [Node.places_eq] at hp
  rcases List.mem_cons.1 hp with rfl | hp
  · exact hroot
  · obtain ⟨i, c, hc, r, hr, rfl⟩ := Node.mem_placesFrom.1 hp
    exact hbelow c (List.mem_of_getElem? hc) r hr

namespace Child

@[simp] theorem filterMap_map_node (ns : List Node) :
    (ns.map Child.node).filterMap Child.node? = ns := by
  rw [List.filterMap_map]
  exact List.filterMap_some

@[simp] theorem filterMap_map_text (names : List String) :
    (names.map Child.text).filterMap Child.node? = [] := by
  rw [List.filterMap_map]
  exact List.filterMap_eq_nil_iff.2 fun _ _ => rfl

@[simp] theorem filterMap_place_cons (o : Option Node) (cs : List Child) :
    (Child.place o :: cs).filterMap Child.node? = o.toList ++ cs.filterMap Child.node? := by
  cases o <;> rfl

@[simp] theorem filterMap_text_cons (s : String) (cs : List Child) :
    (Child.text s :: cs).filterMap Child.node? = cs.filterMap Child.node? := rfl

@[simp] theorem node?_place (o : Option Node) : (Child.place o).node? = o := by
  cases o <;> rfl

end Child

theorem Node.nodes_place (h : Header) (o : Option Node) (ns : List Node) :
    (Node.mk h (.place o :: ns.map .node)).nodes = o.toList ++ ns := by
  rw [Node.nodes, Node.children, Child.filterMap_place_cons, Child.filterMap_map_node]

theorem Node.nodes_place_text (h : Header) (o : Option Node) (s : String) (ns : List Node) :
    (Node.mk h (.place o :: .text s :: ns.map .node)).nodes = o.toList ++ ns := by
  rw [Node.nodes, Node.children, Child.filterMap_place_cons, Child.filterMap_text_cons,
    Child.filterMap_map_node]

/-! ## Shapes -/

/-- Whether a node has the children, and the name, that a node of its kind is to
have. -/
def Node.WellShaped (n : Node) : Prop :=
  match n.kind with
  | .call => ∃ (receiver : Option Node) (name : String) (arguments : List Node),
      n.name = some name ∧
        n.children = .place receiver :: .text name :: arguments.map .node
  | .conditional => ∃ (test : Option Node) (branches : List Node),
      n.children = .place test :: branches.map .node
  | .localAssignment => ∃ (name : String) (values : List Node),
      n.name = some name ∧ n.children = .text name :: values.map .node
  | .localVariable => ∃ name : String, n.name = some name ∧ n.children = [.text name]
  | .literal => ∃ s : String, n.children = [.text s]
  | .parameterList => ∃ names : List String, n.children = names.map .text
  | .methodDefinition => n.name.isSome = true ∧ ∃ ns : List Node, n.children = ns.map .node
  | .classDefinition => n.name.isSome = true ∧ ∃ ns : List Node, n.children = ns.map .node
  | .moduleDefinition => n.name.isSome = true ∧ ∃ ns : List Node, n.children = ns.map .node
  | .block => ∃ ns : List Node, n.children = ns.map .node
  | .other => ∃ ns : List Node, n.children = ns.map .node
  | .program => ∃ ns : List Node, n.children = ns.map .node

/-- Whether the parts of a node that are read by position are what the fields for
them became. A call that was a bare word has no receiver; the parameters of a
method come right after its owner. -/
def Node.PartsFrom (source : List UInt8) (root : Cst) (n : Node) : Prop :=
  match n.kind with
  | .call =>
    (n.nodeType = "identifier" ∧ n.receiver? = none) ∨
      ∃ c ∈ root.preorder, ∃ locals, c.role = .call ∧ (c.convert source locals).1 = [n] ∧
        n.receiver? = c.filling source "receiver" locals
  | .conditional =>
    ∃ c ∈ root.preorder, ∃ locals, c.role = .conditional ∧ (c.convert source locals).1 = [n] ∧
      n.test? = c.filling source "condition" locals
  | .methodDefinition =>
    ∃ c ∈ root.preorder, ∃ locals, c.role = .methodDefinition ∧
      (c.convert source locals).1 = [n] ∧ (c.ownParameters source).kind = .parameterList ∧
      ∃ body : List Node,
        n.children = (c.owner source locals ++ c.ownParameters source :: body).map .node
  | _ => True

/-- What holds of every node below the root of a simplified tree. -/
structure Node.Fits (source : List UInt8) (root : Cst) (n : Node) : Prop where
  kind_ne : n.kind ≠ .program
  shape : n.WellShaped
  parts : n.PartsFrom source root

section Fits

variable {source : List UInt8} {root : Cst}

/-- A node over nodes that is not read by position. -/
theorem Node.Fits.everywhere_over {h : Header} {ns : List Node}
    (hfits : Node.Fits source root (.mk h (ns.map .node)))
    (hns : ∀ n ∈ ns, n.Everywhere (Node.Fits source root)) :
    (Node.mk h (ns.map .node)).Everywhere (Node.Fits source root) :=
  .mk hfits (Child.filterMap_map_node ns) hns

/-- Every derived node fits, and so does everything below it. -/
theorem Derives.fits {before after : NameSet} {ns : List Node}
    (h : Derives source root before ns after) :
    ∀ n ∈ ns, n.Everywhere (Node.Fits source root) := by
  induction h with
  | nil locals => simp
  | append _ _ ih₁ ih₂ => exact List.forall_mem_append.2 ⟨ih₁, ih₂⟩
  | @word c locals hc hr =>
      rw [List.forall_mem_singleton]
      have htype : c.type = "identifier" := Cst.role_eq_identifier_iff.1 hr
      cases decide (c.text source ∈ locals) with
      | true => exact .mk ⟨nofun, ⟨_, rfl, rfl⟩, trivial⟩ rfl (by simp)
      | false =>
          have hparts : Node.PartsFrom source root (c.resolved source false) :=
            .inl ⟨htype, rfl⟩
          exact .mk ⟨nofun, ⟨none, _, [], rfl, rfl⟩, hparts⟩ rfl (List.forall_mem_nil _)
  | parameters locals hc =>
      rw [List.forall_mem_singleton]
      exact .mk ⟨nofun, ⟨_, rfl⟩, trivial⟩ (Child.filterMap_map_text _) (by simp)
  | noParameters locals c =>
      rw [List.forall_mem_singleton]
      exact .mk ⟨nofun, ⟨[], rfl⟩, trivial⟩ rfl (by simp)
  | @assignment before after ns h name hkind hname _ ih =>
      rw [List.forall_mem_singleton]
      obtain ⟨kind, _, _, _⟩ := h
      obtain rfl : kind = .localAssignment := hkind
      exact .mk ⟨nofun, ⟨name, ns, hname, rfl⟩, trivial⟩ (Child.filterMap_map_node ns) ih
  | literal locals c s =>
      rw [List.forall_mem_singleton]
      exact .mk ⟨nofun, ⟨s, rfl⟩, trivial⟩ rfl (by simp)
  | gathering hr _ ih =>
      rw [List.forall_mem_singleton]
      exact .everywhere_over ⟨nofun, ⟨_, rfl⟩, trivial⟩ ih
  | definition before c name hkind _ ih =>
      rw [List.forall_mem_singleton]
      rcases hkind with rfl | rfl
      · exact .everywhere_over ⟨nofun, ⟨rfl, _, rfl⟩, trivial⟩ ih
      · exact .everywhere_over ⟨nofun, ⟨rfl, _, rfl⟩, trivial⟩ ih
  | gate before hr _ ih =>
      rw [List.forall_mem_singleton]
      exact .everywhere_over ⟨nofun, ⟨_, rfl⟩, trivial⟩ ih
  | block before c _ ih =>
      rw [List.forall_mem_singleton]
      exact .everywhere_over ⟨nofun, ⟨_, rfl⟩, trivial⟩ ih
  | @method before mid after body c n hc hr hmade hn _ _ ih₁ ih₂ =>
      rw [List.forall_mem_singleton]
      rw [← List.map_cons, ← List.map_append] at hn
      have hparts : n.PartsFrom source root := by
        subst hn
        exact ⟨c, hc, before, hr, hmade, c.kind_ownParameters source, body, rfl⟩
      subst hn
      refine .everywhere_over ⟨nofun, ⟨rfl, _, rfl⟩, hparts⟩ ?_
      exact List.forall_mem_append.2 ⟨ih₁, ih₂⟩
  | @conditional before mid after rest c n hc hr hmade hn _ _ ih₁ ih₂ =>
      rw [List.forall_mem_singleton]
      have hparts : n.PartsFrom source root := by
        subst hn
        exact ⟨c, hc, before, hr, hmade, Child.node?_place _⟩
      subst hn
      refine .mk ⟨nofun, ⟨_, rest, rfl⟩, hparts⟩
        (Node.nodes_place (c.header .conditional none) _ rest) ?_
      exact List.forall_mem_append.2 ⟨ih₁, ih₂⟩
  | @call before mid after rest c n hc hr hmade hn _ _ ih₁ ih₂ =>
      rw [List.forall_mem_singleton]
      have hparts : n.PartsFrom source root := by
        subst hn
        exact .inr ⟨c, hc, before, hr, hmade, Child.node?_place _⟩
      subst hn
      refine .mk ⟨nofun, ⟨_, _, rest, rfl, rfl⟩, hparts⟩
        (Node.nodes_place_text (c.header .call (some (c.calledName source))) _ _ rest) ?_
      exact List.forall_mem_append.2 ⟨ih₁, ih₂⟩

/-- The root fits but for its kind, and everything below it fits. -/
theorem Cst.fits_of_mem_places {p : Located} (hp : p ∈ (root.simplify source).places) :
    p = ⟨[], root.simplify source⟩ ∨ p.node.Fits source root := by
  obtain ⟨ns, after, hchildren, hderives⟩ := root.derives_simplify source
  rw [Node.places_eq, Node.nodes, hchildren, Child.filterMap_map_node] at hp
  rcases List.mem_cons.1 hp with rfl | hp
  · exact .inl rfl
  · obtain ⟨i, c, hc, r, hr, rfl⟩ := Node.mem_placesFrom.1 hp
    exact .inr (hderives.fits c (List.mem_of_getElem? hc) r hr)

end Fits

/-! ## Empty places -/

theorem Child.getElem?_map_node_ne_absent (ns : List Node) (i : Nat) :
    (ns.map Child.node)[i]? ≠ some .absent := by
  rw [List.getElem?_map]
  cases ns[i]? <;> simp

theorem Child.getElem?_map_text_ne_absent (names : List String) (i : Nat) :
    (names.map Child.text)[i]? ≠ some .absent := by
  rw [List.getElem?_map]
  cases names[i]? <;> simp

/-- Only the first place of a call or of a conditional is ever empty. -/
theorem Node.WellShaped.absent {n : Node} (h : n.WellShaped) {i : Nat}
    (hi : n.children[i]? = some .absent) :
    i = 0 ∧ (n.kind = .call ∨ n.kind = .conditional) := by
  unfold Node.WellShaped at h
  cases hkind : n.kind <;> simp only [hkind] at h
  case call =>
      obtain ⟨receiver, name, arguments, -, hchildren⟩ := h
      rw [hchildren] at hi
      match i with
      | 0 => exact ⟨rfl, .inl rfl⟩
      | 1 => simp at hi
      | i + 2 => exact absurd hi (Child.getElem?_map_node_ne_absent _ _)
  case conditional =>
      obtain ⟨test, branches, hchildren⟩ := h
      rw [hchildren] at hi
      match i with
      | 0 => exact ⟨rfl, .inr rfl⟩
      | i + 1 => exact absurd hi (Child.getElem?_map_node_ne_absent _ _)
  case localAssignment =>
      obtain ⟨name, values, -, hchildren⟩ := h
      rw [hchildren] at hi
      match i with
      | 0 => simp at hi
      | i + 1 => exact absurd hi (Child.getElem?_map_node_ne_absent _ _)
  case localVariable =>
      obtain ⟨name, -, hchildren⟩ := h
      rw [hchildren] at hi
      exact absurd hi (Child.getElem?_map_text_ne_absent [name] i)
  case literal =>
      obtain ⟨s, hchildren⟩ := h
      rw [hchildren] at hi
      exact absurd hi (Child.getElem?_map_text_ne_absent [s] i)
  case parameterList =>
      obtain ⟨names, hchildren⟩ := h
      rw [hchildren] at hi
      exact absurd hi (Child.getElem?_map_text_ne_absent names i)
  case methodDefinition | classDefinition | moduleDefinition =>
      obtain ⟨-, ns, hchildren⟩ := h
      rw [hchildren] at hi
      exact absurd hi (Child.getElem?_map_node_ne_absent _ _)
  case block | other | program =>
      obtain ⟨ns, hchildren⟩ := h
      rw [hchildren] at hi
      exact absurd hi (Child.getElem?_map_node_ne_absent _ _)

/-! ## Simplified trees -/

/-- **Shape.** A source file without a fault is simplified to a tree with one
program, its root, in which every node has the children that its kind asks for,
and what is read as a receiver, as a test or as the parameters of a method is
what the field for it became. So a place is left empty only where a receiver or
a test is missing. -/
theorem Source.parse_wellShaped (grammar : Grammar) (path : String) (source : List UInt8)
    (h : (grammar source).hasError = false) :
    ∃ tree, Source.parse grammar path source = .ok tree ∧
      tree.places.filter (fun p => p.node.kind = .program) = [⟨[], tree⟩] ∧
      (∀ p ∈ tree.places,
        p.node.WellShaped ∧ p.node.PartsFrom source (grammar source).root) ∧
      ∀ p ∈ tree.places, ∀ i : Nat, p.node.children[i]? = some .absent →
        i = 0 ∧ (p.node.kind = .call ∨ p.node.kind = .conditional) := by
  have hshape : ∀ p ∈ ((grammar source).root.simplify source).places,
      p.node.WellShaped ∧ p.node.PartsFrom source (grammar source).root := by
    intro p hp
    rcases Cst.fits_of_mem_places hp with rfl | hfits
    · exact ⟨⟨_, rfl⟩, trivial⟩
    · exact ⟨hfits.shape, hfits.parts⟩
  refine ⟨_, parse_eq h path, ?_, hshape, fun p hp i => (hshape p hp).1.absent⟩
  rw [Node.places_eq, List.filter_cons_of_pos (by simp; rfl), List.filter_eq_nil_iff.2]
  intro p hp
  rcases Cst.fits_of_mem_places (Node.places_eq _ ▸ List.mem_cons_of_mem _ hp) with rfl | hfits
  · obtain ⟨i, c, -, r, -, heq⟩ := Node.mem_placesFrom.1 hp
    exact absurd (congrArg Located.address heq) (by simp)
  · simpa using hfits.kind_ne

/-- The source `def self.m(a)`, `a.b if c`, `end` on three lines. -/
def Source.ownedMethod : List UInt8 := "def self.m(a)\n  a.b if c\nend\n".toUTF8.toList

def Cst.ownedMethod : Cst :=
  .mk { type := "program", endByte := 29 }
    [.mk { type := "singleton_method", endByte := 28 }
      [.mk { type := "self", field := "object", startByte := 4, endByte := 8 } [],
       .mk { type := "identifier", field := "name", startByte := 9, endByte := 10 } [],
       .mk { type := "method_parameters", field := "parameters", startByte := 10, endByte := 13 }
        [.mk { type := "identifier", startByte := 11, endByte := 12 } []],
       .mk { type := "body_statement", field := "body", startByte := 16, endByte := 24 }
        [.mk { type := "if_modifier", startByte := 16, endByte := 24, row := 1 }
          [.mk { type := "call", field := "body", startByte := 16, endByte := 19, row := 1 }
            [.mk { type := "identifier", field := "receiver", startByte := 16, endByte := 17 } [],
             .mk { type := "identifier", field := "method", startByte := 18, endByte := 19 } []],
           .mk { type := "identifier", field := "condition", startByte := 23, endByte := 24 } []]]]]

/-- The method has its owner, then its parameters; the conditional has its test
first, though the test comes last in the source. -/
theorem Source.parse_wellShaped_ownedMethod :
    (Grammar.constant .ownedMethod Source.ownedMethod).hasError = false ∧
    ∃ tree method test,
      Source.parse (.constant .ownedMethod) "a.rb" Source.ownedMethod = .ok tree ∧
      tree.places[1]? = some method ∧ method.node.kind = .methodDefinition ∧
      tree.places[4]? = some test ∧ test.node.kind = .conditional ∧
      (method.node.WellShaped ∧ method.node.PartsFrom Source.ownedMethod .ownedMethod) ∧
      (test.node.WellShaped ∧ test.node.PartsFrom Source.ownedMethod .ownedMethod) := by
  obtain ⟨tree, hparse, -, hshape, -⟩ :=
    parse_wellShaped (.constant .ownedMethod) "a.rb" Source.ownedMethod rfl
  obtain rfl := eq_simplify_of_parse hparse
  have hmethod : (Cst.ownedMethod.simplify Source.ownedMethod).places[1]? = some _ := rfl
  have htest : (Cst.ownedMethod.simplify Source.ownedMethod).places[4]? = some _ := rfl
  exact ⟨rfl, _, _, _, hparse, hmethod, rfl, htest, rfl,
    hshape _ (List.mem_of_getElem? hmethod), hshape _ (List.mem_of_getElem? htest)⟩

end RubySmells
