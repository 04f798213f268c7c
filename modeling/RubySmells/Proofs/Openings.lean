import RubySmells.Proofs.Derivation
import RubySmells.Proofs.Liveness

/-!
# What a definition does to the live parameters around it

A construct that starts a fresh set of locals is read without those around it,
but whether a walk gives it a frame of its own is another matter:

* **classes and methods** have a frame, which is dropped after them, so the
  parameters around them are live afterwards exactly if they were before;
* **modules and singleton classes** have none. A parameter list or an assignment
  in one that stands in no class, method or block inside it works on the frame
  around it (`Node.unframed`).
-/

namespace RubySmells

/-! ## Walking over one node of a larger tree -/

namespace Walk

/-- From the visit of a node, a walk comes to the visit of each of its child nodes:
those further to the left have then been walked over. -/
theorem loop_visit_child (path : String) {nested : Bool} {last : Option String} {f : Frame}
    {below : List Frame} {w : Walk} (hw : w.context = ⟨nested, last, f :: below⟩)
    {n c : Node} {i : Nat} (hc : n.nodes[i]? = some c) (rest : List Task) :
    ∃ (w' : Walk) (last' : Option String),
      loop path (.visit n :: rest) w =
        loop path (.visit c :: ((n.nodes.drop (i + 1)).map .visit ++ .leave n :: rest)) w' ∧
      w'.context = ⟨nested, last', Frame.acrossAll nested (n.nodes.take i) (f.apply n) ::
        n.underneath nested f below⟩ := by
  obtain ⟨⟨w₁, hvisit, hw₁⟩, -⟩ := visit_stop path hw n
  have hleft : Performs path nested ((n.nodes.take i).map .visit) (f.apply n) _ _ :=
    Performs.map_visit (fun d _ => Performs.visit path nested d) 0 (f.apply n)
  obtain ⟨w₂, -, hloop, -, hw₂, -⟩ := hleft _ w₁ _ _ hw₁
  have hnodes : n.nodes.map Task.visit =
      (n.nodes.take i).map .visit ++ .visit c :: (n.nodes.drop (i + 1)).map .visit := by
    obtain ⟨hi, rfl⟩ := List.getElem?_eq_some_iff.1 hc
    rw [← List.map_cons, ← List.map_append, List.getElem_cons_drop, List.take_append_drop]
  refine ⟨w₂, _, ?_, hw₂⟩
  rw [loop_visit_eq, hvisit]
  show loop path (n.nodes.map .visit ++ .leave n :: rest) w₁ = _
  rw [← hloop, hnodes, List.append_assoc, List.cons_append]

/-- A walk over a tree comes to each of its stops, in the frame there but for what
the node at the stop does to it. -/
theorem loop_reaches (path : String) {nested : Bool} {n : Node} {f : Frame} {s : Stop}
    (hs : s ∈ n.stops nested f) {last : Option String} {below : List Frame} {w : Walk}
    (hw : w.context = ⟨nested, last, f :: below⟩) (rest : List Task) :
    ∃ (rest' : List Task) (w' : Walk) (last' : Option String) (g : Frame)
      (below' : List Frame),
      loop path (.visit n :: rest) w = loop path (.visit s.place.node :: rest') w' ∧
      w'.context = ⟨nested, last', g :: below'⟩ ∧ g.apply s.place.node = s.frame := by
  induction n using Node.induction generalizing f s last below w rest with
  | step n ih =>
      rw [Node.stops] at hs
      rcases List.mem_cons.1 hs with rfl | hs
      · exact ⟨rest, w, last, f, below, rfl, hw, rfl⟩
      · obtain ⟨i, c, hc, r, hr, rfl⟩ := Node.mem_stopsFrom hs
        obtain ⟨w₁, last₁, hloop, hw₁⟩ := loop_visit_child path hw hc rest
        rw [hloop]
        exact ih c (List.mem_of_getElem? hc) hr hw₁ _

/-- A run comes to every place of the tree. -/
theorem run_reaches (path : String) (nested : Bool) {tree : Node} {p : Located}
    (hp : p ∈ tree.places) :
    ∃ (rest : List Task) (w : Walk) (f : Frame) (below : List Frame),
      run path nested tree = loop path (.visit p.node :: rest) w ∧
      w.context.nested = nested ∧ w.context.frames = f :: below ∧
      f.apply p.node = tree.frameAt nested p.address := by
  have hs : (⟨p, tree.frameAt nested p.address⟩ : Stop) ∈ tree.stops nested {} := by
    rw [Node.stops_eq]
    exact List.mem_map_of_mem hp
  have hstart : (start nested).context = ⟨nested, none, [{}]⟩ := rfl
  obtain ⟨rest, w, last, f, below, hloop, hw, hf⟩ := loop_reaches path hs hstart []
  exact ⟨rest, w, f, below, hloop, by rw [hw], by rw [hw], hf⟩

/-- The walk over a tree comes to an end and touches the innermost frame only. -/
theorem recurse_across (path : String) (n : Node) {w : Walk} {f : Frame} {below : List Frame}
    (hnested : w.context.nested = true) (hframes : w.context.frames = f :: below) :
    ∃ w', recurse path n w = .ok w' ∧ w'.context.nested = true ∧
      w'.context.frames = Frame.across true n f :: below := by
  have hw : w.context = ⟨true, w.context.lastDemeterMethod, f :: below⟩ := by
    rw [← hnested, ← hframes]
  obtain ⟨w', -, hloop, -, hw', -⟩ := Performs.visit path true n f [] w _ below hw
  rw [List.append_nil, loop_visit] at hloop
  cases hrecurse : recurse path n w with
  | error fault =>
      rw [hrecurse, loop] at hloop
      exact absurd hloop (by simp [bind, Except.bind])
  | ok w₁ =>
      rw [hrecurse] at hloop
      have hloop : loop path [] w₁ = loop path [] w' := hloop
      rw [loop, loop] at hloop
      obtain rfl := Except.ok.inj hloop
      exact ⟨w₁, rfl, by rw [hw'], by rw [hw']⟩

end Walk

/-! ## Nodes with and without a frame -/

/-- The places of a tree that stand in no class, method or block of it. -/
def Node.unframed (n : Node) : List Located :=
  n.places.filter fun l => l.Outlasts true n

/-- Every node that a class or method becomes has a frame of its own. -/
theorem Cst.framed_of_definition {source : List UInt8} {c : Cst} {n : Node} {locals : NameSet}
    (hn : (c.convert source locals).1 = [n])
    (hr : c.role = .classDefinition ∨ c.role = .methodDefinition) :
    Context.framed n.kind = true := by
  rcases hr with hr | hr
  · obtain ⟨i, cs⟩ := c
    rw [convert, hr] at hn
    obtain rfl := List.singleton_inj.1 hn
    rfl
  · rw [convert_method source hr] at hn
    obtain rfl := List.singleton_inj.1 hn
    rfl

/-- No node that a module or a singleton class becomes has one. -/
theorem Cst.not_framed_of_unframed {source : List UInt8} {c : Cst} {n : Node}
    {locals : NameSet} (hn : (c.convert source locals).1 = [n])
    (hr : c.role = .moduleDefinition ∨ c.role = .gate) :
    Context.framed n.kind = false := by
  obtain ⟨i, cs⟩ := c
  rcases hr with hr | hr
  · rw [convert, hr] at hn
    obtain rfl := List.singleton_inj.1 hn
    rfl
  · rw [convert, hr] at hn
    simp only at hn
    split at hn
    · obtain rfl := List.singleton_inj.1 hn
      rfl
    · obtain rfl := List.singleton_inj.1 hn
      rfl

/-- **Definitions and the parameters around them.** When a walk with frames has gone
over what a class or a method became, all frames are what they were before it.
After a module or a singleton class, which have no frame of their own, the frames
further out are what they were; in the innermost one, the live parameters are
those of the last parameter list that stands in the construct but in no class,
method or block inside it, or those live before if there is none, less the names
assigned to at such places. -/
theorem Source.live_after_definition (grammar : Grammar) (path : String)
    (source : List UInt8) (h : (grammar source).hasError = false) :
    ∃ tree, Source.parse grammar path source = .ok tree ∧
      ∀ p ∈ tree.places, ∀ c ∈ (grammar source).root.preorder, ∀ locals : NameSet,
        (c.convert source locals).1 = [p.node] →
        ∀ (w : Walk) (f : Frame) (below : List Frame),
          w.context.nested = true → w.context.frames = f :: below →
          ∃ (w' : Walk) (g : Frame),
            (∀ rest, Walk.loop path (.visit p.node :: rest) w = Walk.loop path rest w') ∧
            w'.context.frames = g :: below ∧
            (c.type = "class" ∨ c.type = "method" ∨ c.type = "singleton_method" → g = f) ∧
            (c.type = "module" ∨ c.type = "singleton_class" →
              Context.framed p.node.kind = false ∧
              ∀ x, x ∈ g.live ↔ Located.LiveAfter p.node.unframed x ∨
                (∀ l ∈ p.node.unframed, l.node.kind ≠ .parameterList) ∧ x ∈ f.live ∧
                  ∀ l ∈ p.node.unframed,
                    l.node.kind = .localAssignment → l.node.name ≠ some x) := by
  refine ⟨_, parse_eq h path, ?_⟩
  intro p _ c _ locals hp w f below hnested hframes
  obtain ⟨w', hrecurse, -, hframes'⟩ := Walk.recurse_across path p.node hnested hframes
  refine ⟨w', _, ?_, hframes', ?_, ?_⟩
  · intro rest
    rw [Walk.loop_visit, hrecurse]
    rfl
  · intro htype
    have hr : c.role = .classDefinition ∨ c.role = .methodDefinition := by
      rcases htype with htype | htype | htype
      · exact .inl (congrArg Role.ofType htype)
      · exact .inr (congrArg Role.ofType htype)
      · exact .inr (congrArg Role.ofType htype)
    exact Frame.across_of_framed (Cst.framed_of_definition hp hr) f
  · intro htype
    have hr : c.role = .moduleDefinition ∨ c.role = .gate := by
      rcases htype with htype | htype
      · exact .inl (congrArg Role.ofType htype)
      · exact .inr (congrArg Role.ofType htype)
    refine ⟨Cst.not_framed_of_unframed hp hr, fun x => ?_⟩
    rw [Frame.across_eq]
    exact Frame.mem_live_applyAll_iff

/-- The source `def m(flag)`, `class << self; flag = 1; end`, `go if flag`, `end` on
four lines. -/
def Source.assignmentInSingletonClass : List UInt8 :=
  "def m(flag)\n  class << self; flag = 1; end\n  go if flag\nend\n".toUTF8.toList

def Cst.assignmentInSingletonClass : Cst :=
  .mk { type := "program", endByte := 60 }
    [.mk { type := "method", endByte := 59 }
      [.mk { type := "identifier", field := "name", startByte := 4, endByte := 5 } [],
       .mk { type := "method_parameters", field := "parameters", startByte := 5, endByte := 11 }
        [.mk { type := "identifier", startByte := 6, endByte := 10 } []],
       .mk { type := "body_statement", field := "body", startByte := 14, endByte := 55 }
        [.mk { type := "singleton_class", startByte := 14, endByte := 42, row := 1 }
          [.mk { type := "self", field := "value", startByte := 23, endByte := 27 } [],
           .mk { type := "body_statement", field := "body", startByte := 29, endByte := 38 }
            [.mk { type := "assignment", startByte := 29, endByte := 37, row := 1 }
              [.mk { type := "identifier", field := "left", startByte := 29, endByte := 33 } [],
               .mk { type := "integer", field := "right", startByte := 36, endByte := 37 } []]]],
         .mk { type := "if_modifier", startByte := 45, endByte := 55, row := 2 }
          [.mk { type := "identifier", field := "body", startByte := 45, endByte := 47 } [],
           .mk { type := "identifier", field := "condition", startByte := 51, endByte := 55 } []]]]]

/-- The parameter `flag` is lost, and nothing else. -/
theorem Source.live_after_definition_assignmentInSingletonClass :
    (Grammar.constant .assignmentInSingletonClass
      Source.assignmentInSingletonClass).hasError = false ∧
    ∃ tree p, Source.parse (.constant .assignmentInSingletonClass) "a.rb"
        Source.assignmentInSingletonClass = .ok tree ∧
      tree.places[3]? = some p ∧ p.node.nodeType = "singleton_class" ∧
      ∀ (w : Walk) (f : Frame) (below : List Frame),
        w.context.nested = true → w.context.frames = f :: below →
        ∃ (w' : Walk) (g : Frame),
          (∀ rest, Walk.loop "a.rb" (.visit p.node :: rest) w = Walk.loop "a.rb" rest w') ∧
          w'.context.frames = g :: below ∧ ∀ x, x ∈ g.live ↔ x ∈ f.live ∧ x ≠ "flag" := by
  obtain ⟨tree, hparse, hlive⟩ := live_after_definition (.constant .assignmentInSingletonClass)
    "a.rb" Source.assignmentInSingletonClass rfl
  obtain rfl := eq_simplify_of_parse hparse
  have hp : (Cst.assignmentInSingletonClass.simplify
      Source.assignmentInSingletonClass).places[3]? = some _ := rfl
  have hc : Cst.assignmentInSingletonClass.preorder[6]? = some _ := rfl
  refine ⟨rfl, _, _, hparse, hp, rfl, ?_⟩
  intro w f below hnested hframes
  obtain ⟨w', g, hloop, hframes', -, hgate⟩ := hlive _ (List.mem_of_getElem? hp) _
    (List.mem_of_getElem? hc) ∅ rfl w f below hnested hframes
  refine ⟨w', g, hloop, hframes', fun x => ?_⟩
  rw [(hgate (.inr rfl)).2 x]
  generalize hinside : Node.unframed _ = inside
  have hlists : ∀ l ∈ inside, l.node.kind ≠ .parameterList := by
    rw [← hinside]
    decide +kernel
  have hnames : ((inside.filter (·.node.kind = .localAssignment)).map (·.node.name)) =
      [some "flag"] := by
    rw [← hinside]
    decide +kernel
  constructor
  · rintro (⟨before, l, after, rfl, hl, -⟩ | ⟨-, hx, hassigned⟩)
    · exact absurd hl (hlists l (by simp))
    · refine ⟨hx, fun heq => ?_⟩
      obtain ⟨l, hl, hname⟩ := List.mem_map.1 (hnames ▸ List.mem_singleton_self (some "flag"))
      obtain ⟨hl, hkind⟩ := List.mem_filter.1 hl
      exact hassigned l hl (of_decide_eq_true hkind) (heq ▸ hname)
  · rintro ⟨hx, hne⟩
    refine .inr ⟨hlists, hx, fun l hl hkind hname => hne ?_⟩
    have hmem : l.node.name ∈
        (inside.filter (·.node.kind = .localAssignment)).map (·.node.name) :=
      List.mem_map_of_mem (List.mem_filter.2 ⟨hl, decide_eq_true hkind⟩)
    rw [hnames, hname] at hmem
    simpa using hmem

/-- When the walk comes to the singleton class `flag` is live, and after it is not. -/
theorem Source.live_lost_in_singletonClass :
    (Grammar.constant .assignmentInSingletonClass
      Source.assignmentInSingletonClass).hasError = false ∧
    ∃ tree p c locals, Source.parse (.constant .assignmentInSingletonClass) "a.rb"
        Source.assignmentInSingletonClass = .ok tree ∧
      p ∈ tree.places ∧ c ∈ Cst.assignmentInSingletonClass.preorder ∧
      c.type = "singleton_class" ∧
      (c.convert Source.assignmentInSingletonClass locals).1 = [p.node] ∧
      ∃ rest w w' f g below,
        Walk.run "a.rb" true tree = Walk.loop "a.rb" (.visit p.node :: rest) w ∧
        Walk.loop "a.rb" (.visit p.node :: rest) w = Walk.loop "a.rb" rest w' ∧
        w.context.frames = f :: below ∧ w'.context.frames = g :: below ∧
        "flag" ∈ f.live ∧ "flag" ∉ g.live := by
  have hp : (Cst.assignmentInSingletonClass.simplify
      Source.assignmentInSingletonClass).places[3]? = some _ := rfl
  have hc : Cst.assignmentInSingletonClass.preorder[6]? = some _ := rfl
  refine ⟨rfl, _, _, _, ∅, parse_eq rfl "a.rb", List.mem_of_getElem? hp,
    List.mem_of_getElem? hc, rfl, rfl, ?_⟩
  obtain ⟨rest, w, f, below, hrun, hnested, hframes, hf⟩ :=
    Walk.run_reaches "a.rb" true (List.mem_of_getElem? hp)
  -- The singleton class itself does nothing to the frame.
  obtain rfl : f = Node.frameAt true _ _ := hf
  obtain ⟨w', hrecurse, -, hframes'⟩ := Walk.recurse_across "a.rb" _ hnested hframes
  refine ⟨rest, w, w', _, _, below, hrun, ?_, hframes, hframes', ?_, ?_⟩
  · rw [Walk.loop_visit, hrecurse]
    rfl
  · decide +kernel
  · rw [Frame.across_eq]
    decide +kernel

end RubySmells
