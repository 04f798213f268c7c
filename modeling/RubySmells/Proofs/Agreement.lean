import RubySmells.Proofs.Constructs
import RubySmells.Proofs.Liveness
import RubySmells.Proofs.Resolution
import RubySmells.Proofs.Shape

/-!
# Locals and live parameters

Two things keep track of names. Simplification knows a set of locals, which tells
variables from calls; the walk over the simplified tree keeps the parameters that
are live, which tells whether a conditional is to be reported. They are kept in
different ways: a construct with locals of its own need not have a frame of its
own, and the names that a list of parameters shows need not be those that it
declares.

Here they are shown to agree. A name is *vouched for* at a place if the last list
of parameters before it shows the name and no construct with locals of its own
has come in between (`Node.vouch`). Wherever a name is vouched for, a bare word
with that name is a variable (`Derives.safe`); and a live name is vouched for
unless such a construct stands between the list and the place
(`Node.vouched_of_live`).
-/

namespace RubySmells

/-! ## Names that are vouched for -/

/-- Whether what the node stands for has locals of its own, methods apart. -/
def Node.isGate (n : Node) : Bool :=
  n.kind = .classDefinition || n.kind = .moduleDefinition ||
    n.kind = .other && (n.nodeType = "singleton_class" || n.nodeType = "program")

/-- Whether what is vouched for inside a node is of no account after it. -/
def Node.shields (n : Node) : Bool :=
  n.opens true || n.isGate

/-- Whether a name is vouched for at a node, given whether it was before. -/
def Node.vouch (x : String) (n : Node) (before : Bool) : Bool :=
  if n.isGate then false
  else if n.kind = .parameterList then decide (x ∈ n.texts)
  else before

/-- Whether a node stands for a bare word, as a variable or as a call. -/
def Node.IsWord (x : String) (n : Node) : Prop :=
  n.nodeType = "identifier" ∧ n.name = some x ∧ (n.kind = .call ∨ n.kind = .localVariable)

/-- Whether the test of a conditional is a variable if it is this bare word. -/
def Node.TestsVariable (x : String) (n : Node) : Prop :=
  n.kind = .conditional → ∀ t, n.test? = some t → t.IsWord x → t.kind = .localVariable

section Vouch

variable {x : String} {n : Node}

theorem Node.vouch_of_gate (h : n.isGate = true) (b : Bool) : n.vouch x b = false := by
  rw [Node.vouch, if_pos h]

theorem Node.not_gate_of_parameterList (h : n.kind = .parameterList) : n.isGate = false := by
  simp [Node.isGate, h]

theorem Node.vouch_of_parameterList (h : n.kind = .parameterList) (b : Bool) :
    n.vouch x b = decide (x ∈ n.texts) := by
  simp [Node.vouch, Node.not_gate_of_parameterList h, h]

theorem Node.vouch_of_ne (hgate : n.isGate = false) (hkind : n.kind ≠ .parameterList)
    (b : Bool) : n.vouch x b = b := by
  simp [Node.vouch, hgate, hkind]

theorem Node.TestsVariable.of_ne (h : n.kind ≠ .conditional) : n.TestsVariable x :=
  fun hkind => absurd hkind h

end Vouch

/-! ## Safe tours -/

/-- Along a tour of some nodes, whenever the name is vouched for, it is a variable
where a conditional tests it; and if it is vouched for afterwards, it is among
the locals known then. -/
structure Node.Safe (x : String) (after : NameSet) (ns : List Node) (b : Bool) : Prop where
  known : Node.carryAll Node.shields (Node.vouch x) ns b = true → x ∈ after
  tests : ∀ i, ∀ e ∈ Node.tourFrom Node.shields (Node.vouch x) i ns b,
    e.2 = true → e.1.node.TestsVariable x

namespace Node.Safe

variable {x : String} {mid after : NameSet} {n : Node} {ns ms : List Node} {b : Bool}

theorem nil (h : b = true → x ∈ after) : Node.Safe x after [] b where
  known := by rwa [Node.carryAll]
  tests i e he := by
    rw [Node.tourFrom] at he
    exact absurd he List.not_mem_nil

theorem append (h₁ : Node.Safe x mid ns b)
    (h₂ : ∀ b, (b = true → x ∈ mid) → Node.Safe x after ms b) :
    Node.Safe x after (ns ++ ms) b := by
  have h₂ := h₂ _ h₁.known
  constructor
  · rw [Node.carryAll_append]
    exact h₂.known
  · intro i e he
    rw [Node.tourFrom_append] at he
    rcases List.mem_append.1 he with he | he
    · exact h₁.tests i e he
    · exact h₂.tests _ e he

/-- A node is safe if it is safe itself, and what is below it is. -/
theorem single (hnodes : n.nodes = ns)
    (hown : n.vouch x b = true → n.TestsVariable x)
    (hbelow : Node.Safe x mid ns (n.vouch x b))
    (hafter : n.shields = false → mid = after)
    (hshields : n.shields = true → b = true → x ∈ after) : Node.Safe x after [n] b := by
  subst hnodes
  constructor
  · rw [Node.carryAll, Node.carryAll, Node.carry]
    cases hn : n.shields with
    | true => exact hshields hn
    | false =>
        rw [← hafter hn]
        exact hbelow.known
  · intro i e he
    rw [Node.tourFrom, Node.tourFrom, List.append_nil, Node.tour] at he
    obtain ⟨r, hr, rfl⟩ := List.mem_map.1 he
    rcases List.mem_cons.1 hr with rfl | hr
    · exact hown
    · exact hbelow.tests 0 r hr

/-- What is vouched for passes through most nodes. -/
theorem through (hnodes : n.nodes = ns) (hshields : n.shields = false)
    (hkind : n.kind ≠ .parameterList) (hown : b = true → n.TestsVariable x)
    (hbelow : Node.Safe x after ns b) : Node.Safe x after [n] b := by
  have hvouch : n.vouch x b = b :=
    Node.vouch_of_ne (Bool.or_eq_false_iff.1 hshields).2 hkind b
  refine single hnodes ?_ (by rwa [hvouch]) (fun _ => rfl) (fun h => ?_)
  · rwa [hvouch]
  · rw [hshields] at h
    exact absurd h (by simp)

/-- A node that is neither a list of parameters nor a conditional adds nothing. -/
theorem plain (hnodes : n.nodes = ns) (hshields : n.shields = false)
    (hlist : n.kind ≠ .parameterList) (htest : n.kind ≠ .conditional)
    (hbelow : Node.Safe x after ns b) : Node.Safe x after [n] b :=
  through hnodes hshields hlist (fun _ => .of_ne htest) hbelow

/-- Inside a construct with locals of its own nothing is vouched for at first. -/
theorem inGate (hnodes : n.nodes = ns) (hgate : n.isGate = true) (hafter : b = true → x ∈ after)
    (hbelow : Node.Safe x mid ns false) : Node.Safe x after [n] b := by
  have hvouch : n.vouch x b = false := Node.vouch_of_gate hgate b
  have hshields : n.shields = true := by simp [Node.shields, hgate]
  refine single hnodes ?_ (by rwa [hvouch]) (fun h => ?_) fun _ => hafter
  · rw [hvouch]
    exact fun h => absurd h (by simp)
  · rw [hshields] at h
    exact absurd h (by simp)

/-- What is vouched for inside a method or block is forgotten after it. -/
theorem inFrame (hnodes : n.nodes = ns) (hkind : n.kind = .methodDefinition ∨ n.kind = .block)
    (hafter : b = true → x ∈ after) (hbelow : Node.Safe x mid ns b) :
    Node.Safe x after [n] b := by
  have hgate : n.isGate = false := by
    rcases hkind with hkind | hkind <;> simp [Node.isGate, hkind]
  have hne : n.kind ≠ .parameterList := by
    rcases hkind with hkind | hkind <;> simp [hkind]
  have hvouch : n.vouch x b = b := Node.vouch_of_ne hgate hne b
  have hshields : n.shields = true := by
    rcases hkind with hkind | hkind <;> simp [Node.shields, Node.opens, Context.framed, hkind]
  refine single hnodes (fun _ => .of_ne ?_) (by rwa [hvouch]) (fun h => ?_) fun _ => hafter
  · rcases hkind with hkind | hkind <;> simp [hkind]
  · rw [hshields] at h
    exact absurd h (by simp)

/-- A list of parameters takes no account of what was vouched for before it. -/
theorem of_parameterList (hkind : n.kind = .parameterList) (b' : Bool)
    (h : Node.Safe x after (n :: ns) b') : Node.Safe x after (n :: ns) b := by
  have hvouch : n.vouch x b = n.vouch x b' := by
    rw [Node.vouch_of_parameterList hkind, Node.vouch_of_parameterList hkind]
  have hshields : n.shields = false := by
    simp [Node.shields, Node.not_gate_of_parameterList hkind, Node.opens, Context.framed, hkind]
  have hcarry : Node.carry Node.shields (Node.vouch x) n b =
      Node.carry Node.shields (Node.vouch x) n b' := by
    simp only [Node.carry, hshields, hvouch, Bool.false_eq_true, if_false]
  constructor
  · rw [Node.carryAll, hcarry, ← Node.carryAll]
    exact h.known
  · intro i e he
    rw [Node.tourFrom, Node.tour, hvouch, hcarry, ← Node.tour, ← Node.tourFrom] at he
    exact h.tests i e he

end Node.Safe

/-! ## Derived nodes -/

section Derived

variable {source : List UInt8} {root : Cst} {before after : NameSet} {ns : List Node}

/-- Locals that are known stay known. -/
theorem Derives.mono (h : Derives source root before ns after) {x : String}
    (hx : x ∈ before) : x ∈ after := by
  induction h with
  | nil | word | noParameters | literal | definition | gate | block => exact hx
  | append _ _ ih₁ ih₂ => exact ih₂ (ih₁ hx)
  | parameters => exact NameSet.mem_insertAll.2 (.inr hx)
  | assignment _ _ _ ih => exact ih (NameSet.mem_insertAll.2 (.inr hx))
  | gathering _ _ ih => exact ih hx
  | method _ _ _ _ _ _ ih => exact ih hx
  | conditional _ _ _ _ _ _ ih₁ ih₂ => exact ih₂ (ih₁ hx)
  | call _ _ _ _ _ _ ih₁ ih₂ => exact ih₂ (ih₁ hx)

theorem Derives.eq_of_nil (h : Derives source root before [] after) : before = after := by
  generalize hns : ([] : List Node) = ns at h
  induction h with
  | nil => rfl
  | append _ _ ih₁ ih₂ =>
      obtain ⟨rfl, rfl⟩ := List.append_eq_nil_iff.1 hns.symm
      exact (ih₁ rfl).trans (ih₂ rfl)
  | _ => exact absurd hns (by simp)

/-- A bare word on its own is a variable exactly if it is among the locals known
before. -/
theorem Derives.variable_iff {n : Node} {x : String} (h : Derives source root before [n] after)
    (hword : n.IsWord x) : n.kind = .localVariable ↔ x ∈ before := by
  generalize hns : [n] = ns at h
  obtain ⟨htype, hname, hkind⟩ := hword
  induction h with
  | nil => exact absurd hns (by simp)
  | append h₁ _ ih₁ ih₂ =>
      rcases List.append_eq_singleton_iff.1 hns.symm with ⟨rfl, rfl⟩ | ⟨rfl, rfl⟩
      · rw [h₁.eq_of_nil]
        exact ih₂ rfl
      · exact ih₁ rfl
  | @word c locals hc hr =>
      obtain rfl := List.singleton_inj.1 hns
      cases hlocal : decide (c.text source ∈ locals) with
      | true =>
          rw [hlocal] at hname
          obtain rfl : c.text source = x := Option.some.inj hname
          exact ⟨fun _ => of_decide_eq_true hlocal, fun _ => rfl⟩
      | false =>
          rw [hlocal] at hname
          obtain rfl : c.text source = x := Option.some.inj hname
          exact ⟨fun h => absurd h (by simp [Cst.resolved, Node.kind, Node.header, Cst.header]),
            fun h => absurd h (of_decide_eq_false hlocal)⟩
  | call hc hr _ hn _ _ =>
      obtain rfl := List.singleton_inj.1 hns
      subst hn
      have hrole := Cst.role_eq_identifier_iff.2 htype
      rw [hr] at hrole
      exact absurd hrole (by simp)
  | method _ _ _ hn _ _ | conditional _ _ _ hn _ _ =>
      obtain rfl := List.singleton_inj.1 hns
      subst hn
      exact absurd hkind (by simp [Node.kind, Node.header, Cst.header])
  | assignment hassigns =>
      obtain rfl := List.singleton_inj.1 hns
      exact absurd hkind (by simp [Node.kind, Node.header, hassigns])
  | definition _ _ _ hdefines =>
      obtain rfl := List.singleton_inj.1 hns
      rcases hdefines with rfl | rfl
      · exact absurd hkind (by simp [Node.kind, Node.header, Cst.header])
      · exact absurd hkind (by simp [Node.kind, Node.header, Cst.header])
  | parameters | noParameters | literal | gathering | gate | block =>
      obtain rfl := List.singleton_inj.1 hns
      exact absurd hkind (by simp [Node.kind, Node.header, Cst.header, Cst.parameterListNode,
        Cst.emptyParameterList])

/-- A name that a list of parameters shows is one that it declares, unless a pattern
is shown under it. -/
theorem Cst.mem_declaredLocals {c : Cst} {x : String} (hc : c ∈ root.preorder)
    (hpattern : ∀ q ∈ root.preorder, q.type = "destructured_parameter" →
      q.parameterName source ≠ x) (hx : x ∈ c.parameterNames source) :
    x ∈ c.declaredLocals source := by
  obtain ⟨q, hq, rfl⟩ := List.mem_map.1 hx
  have hmem := mem_preorder_of_mem_children hc (List.mem_filter.1 hq).1
  refine List.mem_append_left _ (List.mem_flatMap.2 ⟨q, hq, ?_⟩)
  rw [parameterLocals, if_neg fun htype => hpattern q hmem htype rfl]
  exact List.mem_singleton_self _

theorem Cst.role_eq_gate_iff {c : Cst} :
    c.role = .gate ↔ c.type = "singleton_class" ∨ c.type = "program" := by
  constructor
  · intro h
    rw [Cst.role] at h
    unfold Role.ofType at h
    split at h <;> first | exact .inl ‹_› | exact .inr ‹_› | exact absurd h (by simp)
  · rintro (h | h)
    · exact congrArg Role.ofType h
    · exact congrArg Role.ofType h

theorem Cst.isGate_other (c : Cst) (cs : List Child) :
    (Node.mk (c.header .other none) cs).isGate = decide (c.role = .gate) := by
  rw [Bool.eq_iff_iff, decide_eq_true_iff, Cst.role_eq_gate_iff]
  show (decide (c.type = "singleton_class") || decide (c.type = "program")) = true ↔ _
  rw [Bool.or_eq_true_iff, decide_eq_true_iff, decide_eq_true_iff]

theorem Cst.texts_parameterListNode (source : List UInt8) (c : Cst) :
    (c.parameterListNode source).texts = c.parameterNames source := by
  show ((c.parameterNames source).map Child.text).filterMap Child.text? = _
  rw [List.filterMap_map]
  exact List.filterMap_some

/-- **Soundness.** What is vouched for is known. -/
theorem Derives.safe {x : String}
    (hpattern : ∀ q ∈ root.preorder, q.type = "destructured_parameter" →
      q.parameterName source ≠ x)
    (h : Derives source root before ns after) :
    ∀ b : Bool, (b = true → x ∈ before) → Node.Safe x after ns b := by
  induction h with
  | nil => exact fun b hb => .nil hb
  | append _ _ ih₁ ih₂ => exact fun b hb => (ih₁ b hb).append ih₂
  | @word c locals hc hr =>
      intro b hb
      cases decide (c.text source ∈ locals) with
      | true => exact .plain rfl rfl (by rintro ⟨⟩) (by rintro ⟨⟩) (.nil hb)
      | false => exact .plain rfl rfl (by rintro ⟨⟩) (by rintro ⟨⟩) (.nil hb)
  | @parameters c locals hc =>
      intro b _
      refine .single (Child.filterMap_map_text _) (fun _ => .of_ne (by rintro ⟨⟩))
        (.nil fun hvouch => ?_) (fun _ => rfl) (by rintro ⟨⟩)
      rw [Node.vouch_of_parameterList rfl, Cst.texts_parameterListNode] at hvouch
      have hshown := of_decide_eq_true hvouch
      exact NameSet.mem_insertAll.2 (.inl (Cst.mem_declaredLocals hc hpattern hshown))
  | noParameters locals c =>
      intro b _
      refine .single rfl (fun _ => .of_ne (by rintro ⟨⟩)) (.nil fun hvouch => ?_)
        (fun _ => rfl) (by rintro ⟨⟩)
      rw [Node.vouch_of_parameterList rfl] at hvouch
      exact absurd (of_decide_eq_true hvouch) List.not_mem_nil
  | @assignment before after ns h name hkind hname _ ih =>
      intro b hb
      obtain ⟨kind, _, _, _⟩ := h
      obtain rfl : kind = .localAssignment := hkind
      refine .plain (Child.filterMap_map_node ns) rfl (by rintro ⟨⟩) (by rintro ⟨⟩) (ih b ?_)
      exact fun htrue => NameSet.mem_insertAll.2 (.inr (hb htrue))
  | literal =>
      exact fun b hb => .plain rfl rfl (by rintro ⟨⟩) (by rintro ⟨⟩) (.nil hb)
  | @gathering before after ns c hr _ ih =>
      intro b hb
      have hshields : (Node.mk (c.header .other none) (ns.map .node)).shields = false := by
        rw [Node.shields, Cst.isGate_other, decide_eq_false hr]
        rfl
      exact .plain (Child.filterMap_map_node ns) hshields (by rintro ⟨⟩) (by rintro ⟨⟩) (ih b hb)
  | definition before c name hkind _ ih =>
      intro b hb
      refine .inGate (Child.filterMap_map_node _) ?_ hb (ih false (by simp))
      rcases hkind with rfl | rfl <;> rfl
  | @gate after ns c before hr _ ih =>
      intro b hb
      have hgate := (c.isGate_other (ns.map .node)).trans (decide_eq_true hr)
      exact .inGate (Child.filterMap_map_node ns) hgate hb (ih false (by simp))
  | block before c _ ih =>
      exact fun b hb => .inFrame (Child.filterMap_map_node _) (.inr rfl) hb (ih b hb)
  | @method before mid after body c n hc hr hmade hn howner _ ih₁ ih₂ =>
      intro b hb
      subst hn
      rw [← List.map_cons, ← List.map_append]
      have hbelow := (ih₁ b hb).append fun b' _ =>
        .of_parameterList (c.kind_ownParameters source) false (ih₂ false (by simp))
      exact .inFrame (Child.filterMap_map_node _) (.inl rfl)
        (fun htrue => howner.mono (hb htrue)) hbelow
  | @conditional before mid after rest c n hc hr hmade hn htest _ ih₁ ih₂ =>
      intro b hb
      subst hn
      refine .through (Node.nodes_place _ _ rest) rfl (by rintro ⟨⟩) (fun htrue _ t ht hword => ?_) ((ih₁ b hb).append ih₂)
      have ht : c.filling source "condition" before = some t :=
        (Child.node?_place _).symm.trans ht
      rw [ht] at htest
      exact (htest.variable_iff hword).2 (hb htrue)
  | @call before mid after rest c n hc hr hmade hn _ _ ih₁ ih₂ =>
      intro b hb
      subst hn
      exact .plain (Node.nodes_place_text _ _ _ rest) rfl (by rintro ⟨⟩) (by rintro ⟨⟩)
        ((ih₁ b hb).append ih₂)

/-- Wherever a name is vouched for in a simplified tree, it is a variable if a
conditional tests it. -/
theorem Cst.testsVariable_of_vouched {x : String}
    (hpattern : ∀ q ∈ root.preorder, q.type = "destructured_parameter" →
      q.parameterName source ≠ x) {e : Located × Bool}
    (he : e ∈ (root.simplify source).tour Node.shields (Node.vouch x) false)
    (hvouched : e.2 = true) : e.1.node.TestsVariable x := by
  obtain ⟨ns, after, hchildren, hderives⟩ := root.derives_simplify source
  have hnodes : (root.simplify source).nodes = ns := by
    rw [Node.nodes, hchildren, Child.filterMap_map_node]
  rw [Node.tour, hnodes] at he
  have hkind : (root.simplify source).kind = .program := rfl
  rcases List.mem_cons.1 he with rfl | he
  · show (root.simplify source).TestsVariable x
    exact .of_ne (by simp [hkind])
  · have hroot : (root.simplify source).vouch x false = false :=
      Node.vouch_of_ne rfl (by simp [hkind]) false
    rw [hroot] at he
    exact (hderives.safe hpattern false (by simp)).tests 0 e he hvouched

end Derived

/-! ## Live names are vouched for -/

/-- The last list of parameters that can be seen from a place. -/
def Node.listInEffect? (tree : Node) (k : Nat) (p : Located) : Option Located :=
  ((tree.visible true k p).filter (·.node.kind = .parameterList)).getLast?

/-- No construct with locals of its own, methods apart, stands on the way from one
place to another: each stands above both or above neither. -/
def Node.Ungated (tree : Node) (l p : Located) : Prop :=
  ∀ g ∈ tree.places, g.node.isGate = true → (g.address <+: l.address ↔ g.address <+: p.address)

instance (tree : Node) (l p : Located) : Decidable (tree.Ungated l p) :=
  inferInstanceAs (Decidable (∀ g ∈ tree.places, _ → _))

section Live

variable {tree : Node} {l p : Located} {x : String}

/-- A list of parameters that can be seen from a place reaches it if there is no such
construct on the way. -/
theorem Located.reaches_of_visible (hl : l ∈ tree.places) (hkind : l.node.kind = .parameterList)
    (hvisible : l.VisibleFrom true tree p) (hungated : tree.Ungated l p) :
    l.Reaches Node.shields tree p.address := by
  intro m hm hshields
  obtain ⟨hmem, habove⟩ := List.mem_filter.1 hm
  rcases Bool.or_eq_true_iff.1 hshields with hopens | hgate
  · have hne : m.address ≠ l.address := by
      intro haddress
      obtain rfl : m = l := Node.eq_of_address_eq hmem hl haddress
      simp [Node.opens, Context.framed, hkind] at hopens
    exact hvisible rfl m (Node.mem_ancestors.2 ⟨hm, hne⟩) (Node.opens_eq_true.1 hopens).2
  · exact (hungated m hmem hgate).1 (of_decide_eq_true habove)

theorem Located.visible_of_reaches (h : l.Reaches Node.shields tree p.address) :
    l.VisibleFrom true tree p := by
  intro _ m hm hframed
  refine h m (Node.mem_ancestors.1 hm).1 ?_
  rw [Node.shields, Node.opens_eq_true.2 ⟨rfl, hframed⟩, Bool.true_or]

theorem Located.steps_vouch_eq_true {ls : List Located}
    (h : ∀ m ∈ ls, m.node.isGate = false ∧ m.node.kind ≠ .parameterList) :
    Located.steps (Node.vouch x) true ls = true := by
  induction ls with
  | nil => rfl
  | cons m ls ih =>
      obtain ⟨hgate, hkind⟩ := h m List.mem_cons_self
      have hstep : m.node.vouch x true = true := Node.vouch_of_ne hgate hkind true
      show Located.steps (Node.vouch x) (m.node.vouch x true) ls = true
      rw [hstep]
      exact ih fun r hr => h r (List.mem_cons_of_mem _ hr)

/-- The places up to a place, split at one that can be seen from it. -/
theorem Node.exists_split_visible {k : Nat} {before after : List Located}
    (h : tree.visible true k p = before ++ l :: after) :
    ∃ pre post, tree.places.take (k + 1) = pre ++ l :: post ∧ l.VisibleFrom true tree p ∧
      post.filter (fun m => m.VisibleFrom true tree p) = after := by
  rw [Node.visible] at h
  obtain ⟨ls, rest, htake, -, hrest⟩ := List.filter_eq_append_iff.1 h
  obtain ⟨ms, post, rfl, -, hvisible, hpost⟩ := List.filter_eq_cons_iff.1 hrest
  rw [← List.append_assoc] at htake
  exact ⟨ls ++ ms, post, htake, of_decide_eq_true hvisible, hpost⟩

theorem Node.not_above_of_split {k : Nat} {pre post : List Located}
    (h : tree.places.take (k + 1) = pre ++ l :: post) {m : Located} (hm : m ∈ post) :
    ¬ m.address <+: l.address := by
  have hpairwise := tree.pairwise_places.sublist (List.take_sublist (k + 1) tree.places)
  rw [h] at hpairwise
  exact (List.pairwise_cons.1 (List.pairwise_append.1 hpairwise).2.1).1 m hm

theorem Node.listInEffect?_eq {k : Nat} {before after : List Located}
    (h : tree.visible true k p = before ++ l :: after) (hkind : l.node.kind = .parameterList)
    (hlast : ∀ m ∈ after, m.node.kind ≠ .parameterList) : tree.listInEffect? k p = some l := by
  have hnone : after.filter (·.node.kind = .parameterList) = [] := by
    rw [List.filter_eq_nil_iff]
    exact fun m hm h => hlast m hm (of_decide_eq_true h)
  rw [Node.listInEffect?, h, List.filter_append, List.filter_cons_of_pos (by simpa using hkind),
    hnone]
  exact List.getLast?_concat

/-- No construct with locals of its own that reaches a place stands after a list of
parameters that no such construct separates from that place: it would be above the
list. -/
theorem Located.not_gate_of_reaches {m : Located} (hm : m ∈ tree.places)
    (hreach : m.Reaches Node.shields tree p.address) (hungated : tree.Ungated l p)
    (hbelow : ¬ m.address <+: l.address) : m.node.isGate = false := by
  rw [Bool.eq_false_iff]
  intro hgate
  have hself : m ∈ tree.lineage m.address := List.mem_filter.2 ⟨hm, by simp⟩
  have habove := hreach m hself (by rw [Node.shields, hgate, Bool.or_true])
  exact hbelow ((hungated m hm hgate).2 habove)

/-- A name that is live at a place is vouched for there, unless a construct with
locals of its own stands between the list in effect and the place. -/
theorem Node.vouched_of_live {k : Nat} (hp : tree.places[k]? = some p)
    (hlive : Located.LiveAfter (tree.visible true k p) x)
    (hungated : ∀ l, tree.listInEffect? k p = some l → tree.Ungated l p) :
    Located.steps (Node.vouch x) false (tree.reaching Node.shields p.address) = true := by
  obtain ⟨before, l, after, hsplit, hkind, hlast, hshown, -⟩ := hlive
  have hungated : tree.Ungated l p := hungated l (Node.listInEffect?_eq hsplit hkind hlast)
  obtain ⟨pre, post, htake, hvisible, rfl⟩ := Node.exists_split_visible hsplit
  have hmem : ∀ m ∈ pre ++ l :: post, m ∈ tree.places := fun m hm =>
    List.mem_of_mem_take (htake ▸ hm)
  have hreaches := Located.reaches_of_visible (hmem l (by simp)) hkind hvisible hungated
  -- What the list shows is vouched for, and nothing that reaches `p` changes that.
  have hafter : ∀ m ∈ post.filter (fun m => m.Reaches Node.shields tree p.address),
      m.node.isGate = false ∧ m.node.kind ≠ .parameterList := by
    intro m hm
    obtain ⟨hm, hreach⟩ := List.mem_filter.1 hm
    have hreach := of_decide_eq_true hreach
    refine ⟨Located.not_gate_of_reaches (hmem m (by simp [hm])) hreach hungated
      (Node.not_above_of_split htake hm), hlast m (List.mem_filter.2 ⟨hm, ?_⟩)⟩
    exact decide_eq_true (Located.visible_of_reaches hreach)
  have hlist : ∀ b, l.node.vouch x b = true := fun b => by
    rw [Node.vouch_of_parameterList hkind, decide_eq_true hshown]
  rw [Node.reaching, ← Node.take_places_eq_upTo hp, htake, List.filter_append,
    List.filter_cons_of_pos (by simpa using hreaches), Located.steps_append]
  show Located.steps (Node.vouch x) (l.node.vouch x _) _ = true
  rw [hlist]
  exact Located.steps_vouch_eq_true hafter

end Live

/-! ## Words in parentheses -/

/-- Whether a construct is a bare word, in any number of parentheses that hold nothing
else but comments. -/
inductive Cst.Encloses (w : Cst) : Cst → Prop
  | word (hr : w.role = .identifier) : Cst.Encloses w w
  | parentheses {c d : Cst} (hr : c.role = .group)
      (honly : c.children.filter (fun d => d.named && d.role ≠ .comment) = [d]) :
      Cst.Encloses w d → Cst.Encloses w c

namespace Cst

theorem Encloses.role {w c : Cst} (h : w.Encloses c) : w.role = .identifier := by
  induction h with
  | word hr => exact hr
  | parentheses _ _ _ ih => exact ih

/-- Parentheses leave no trace. -/
theorem Encloses.convert {source : List UInt8} {w c : Cst} (h : w.Encloses c)
    (locals : NameSet) :
    c.convert source locals =
      ([w.resolved source (decide (w.text source ∈ locals))], locals) := by
  induction h with
  | word hr => exact convert_identifier source locals hr
  | parentheses hr honly _ ih =>
      exact (convert_group_of_filter source locals hr honly (congrArg Prod.fst ih)).trans ih

end Cst

/-- What becomes of a condition that is a bare word. -/
theorem Cst.exists_filling (source : List UInt8) {c d w : Cst} {field : String}
    (hd : c.child? field = some d) (h : w.Encloses d) (locals : NameSet) :
    ∃ t, c.filling source field locals = some t ∧ t.IsWord (w.text source) := by
  refine ⟨w.resolved source (decide (w.text source ∈ locals)), ?_, ?_⟩
  · rw [filling, hd]
    simp only [h.convert]
    rfl
  · have htype := Cst.role_eq_identifier_iff.1 h.role
    cases decide (w.text source ∈ locals) with
    | true => exact ⟨htype, rfl, .inr rfl⟩
    | false => exact ⟨htype, rfl, .inl rfl⟩

/-! ## Reports -/

theorem Node.finding_of_live {last : Option String} {n t : Node} {f : Frame} {x : String}
    (hkind : n.kind = .conditional) (ht : n.test? = some t) (hvariable : t.kind = .localVariable)
    (hname : t.name = some x) (hlive : x ∈ f.live) :
    n.finding last f = some (Rule.booleanArgument.issue n f) := by
  have hfires : Rule.testsLive n f = true := by
    simp [Rule.testsLive, ht, hname, hlive]
  simp [Node.finding, Rule.ofKind?, hkind, Rule.finding, Rule.concerns, Rule.fires, ht, hvariable,
    hfires]

theorem Node.finding_of_call {last : Option String} {n t : Node} {f : Frame}
    (hkind : n.kind = .conditional) (ht : n.test? = some t) (hcall : t.kind = .call) :
    n.finding last f = none := by
  simp [Node.finding, Rule.ofKind?, hkind, Rule.finding, Rule.concerns, ht, hcall]

/-- **Agreement.** When the walk over the simplified tree of a source file comes to a
conditional whose condition is a bare word in any number of parentheses, and the
name is live there, then the test is a variable with that name, and the
conditional is reported. This takes that no pattern is shown under the name in a
list of parameters, and that no class, module, singleton class or program stands on
the way between the list of parameters in effect and the conditional. -/
theorem Source.live_test_reported (grammar : Grammar) (path : String) (source : List UInt8)
    (h : (grammar source).hasError = false) :
    let root := (grammar source).root
    ∃ tree done, Source.parse grammar path source = .ok tree ∧
      Walk.run path true tree = .ok done ∧
      ∀ (k : Nat) (p : Located), tree.places[k]? = some p →
        ∃ v f, (Walk.visits path true tree)[k]? = some v ∧ v.node = p.node ∧
          v.frame? = some f ∧
          ∀ c ∈ root.preorder, ∀ locals : NameSet, c.role = .conditional →
            (c.convert source locals).1 = [p.node] →
            ∀ d w : Cst, c.child? "condition" = some d → w.Encloses d →
            let x := w.text source
            (∀ q ∈ root.preorder, q.type = "destructured_parameter" →
              q.parameterName source ≠ x) →
            (∀ l, tree.listInEffect? k p = some l → tree.Ungated l p) →
            x ∈ f.live →
            (∃ t, p.node.test? = some t ∧ t.kind = .localVariable ∧ t.name = some x) ∧
            ∃ issue ∈ done.issues, v.found = some issue ∧ issue.rule = "boolean_argument" ∧
              issue.line = p.node.line := by
  intro root
  obtain ⟨done, hrun, hadds, -, -⟩ := Walk.run_stops path true (root.simplify source)
  refine ⟨root.simplify source, done, parse_eq h path, hrun, fun k p hp => ?_⟩
  obtain ⟨v, hv, hnode, hframe, hfound⟩ := Walk.exists_visit path true hp
  refine ⟨v, _, hv, hnode, hframe, ?_⟩
  intro c _ locals hr hmade d w hd hencloses x hpattern hungated hlive
  -- The test is what became of the word.
  obtain ⟨t, ht, hword⟩ := Cst.exists_filling source hd hencloses locals
  rw [Cst.convert_conditional source hr] at hmade
  have hp' := List.singleton_inj.1 hmade
  have hkind : p.node.kind = .conditional := by
    rw [← hp']
    rfl
  have htest : p.node.test? = some t := by
    rw [← hp', ← ht]
    exact Child.node?_place _
  obtain ⟨s, hs⟩ := Node.exists_mem_tour (List.mem_of_getElem? hp) false
  have hvouched : s = true := by
    rw [← Node.vouched_of_live hp ((Node.mem_live_frameAt true hp x).1 hlive) hungated]
    exact Node.state_of_mem_tour hs
  have hvariable := Cst.testsVariable_of_vouched hpattern hs hvouched hkind t htest hword
  have hfinding : v.found = some (Rule.booleanArgument.issue p.node _) :=
    hfound.trans (Node.finding_of_live hkind htest hvariable hword.2.1 hlive)
  refine ⟨⟨t, htest, hvariable, hword.2.1⟩, _, ?_, hfinding, rfl, rfl⟩
  rw [hadds.issues]
  exact List.mem_append_right _ (List.mem_filterMap.2 ⟨v, List.mem_of_getElem? hv, hfinding⟩)

/-- The source `def m(flag, (a, b))`, `go if (flag)`, `end` on three lines. -/
def Source.testInParentheses : List UInt8 :=
  "def m(flag, (a, b))\n  go if (flag)\nend\n".toUTF8.toList

def Cst.flagAndPattern : Cst :=
  .mk { type := "method_parameters", field := "parameters", startByte := 5, endByte := 19 }
    [.mk { type := "identifier", startByte := 6, endByte := 10 } [],
     .mk { type := "destructured_parameter", startByte := 12, endByte := 18 }
      [.mk { type := "identifier", startByte := 13, endByte := 14 } [],
       .mk { type := "identifier", startByte := 16, endByte := 17 } []]]

def Cst.testInParentheses : Cst :=
  .mk { type := "program", endByte := 39 }
    [.mk { type := "method", endByte := 38 }
      [.mk { type := "identifier", field := "name", startByte := 4, endByte := 5 } [],
       Cst.flagAndPattern,
       .mk { type := "body_statement", field := "body", startByte := 22, endByte := 34, row := 1 }
        [.mk { type := "if_modifier", startByte := 22, endByte := 34, row := 1 }
          [.mk { type := "identifier", field := "body", startByte := 22, endByte := 24 } [],
           .mk { type := "parenthesized_statements", field := "condition", startByte := 28,
                 endByte := 34 }
            [.mk { type := "identifier", startByte := 29, endByte := 33 } []]]]]]

/-- The conditional on the flag is reported. -/
theorem Source.live_test_reported_testInParentheses :
    (Grammar.constant .testInParentheses Source.testInParentheses).hasError = false ∧
    ∃ tree done p issue,
      Source.parse (.constant .testInParentheses) "a.rb" Source.testInParentheses = .ok tree ∧
      Walk.run "a.rb" true tree = .ok done ∧ tree.places[3]? = some p ∧
      p.node.kind = .conditional ∧ issue ∈ done.issues ∧ issue.rule = "boolean_argument" ∧
      issue.line = p.node.line := by
  obtain ⟨tree, done, hparse, hrun, hreport⟩ :=
    live_test_reported (.constant .testInParentheses) "a.rb" Source.testInParentheses rfl
  obtain rfl := eq_simplify_of_parse hparse
  have hp : (Cst.testInParentheses.simplify Source.testInParentheses).places[3]? =
      some _ := rfl
  have hc : Cst.testInParentheses.preorder[9]? = some _ := rfl
  obtain ⟨v, f, hv, -, hframe, htest⟩ := hreport 3 _ hp
  -- The frame is the one in which the visit is made.
  obtain ⟨v', hv', -, hframe', -⟩ := Walk.exists_visit "a.rb" true hp
  obtain rfl : v = v' := Option.some.inj (hv.symm.trans hv')
  obtain rfl := Option.some.inj (hframe.symm.trans hframe')
  have hgates : ∀ g ∈ (Cst.testInParentheses.simplify Source.testInParentheses).places,
      g.node.isGate = false := by decide +kernel
  obtain ⟨-, issue, hissue, -, hrule, hline⟩ := htest _ (List.mem_of_getElem? hc)
    (NameSet.ofList (Cst.flagAndPattern.declaredLocals testInParentheses)) rfl rfl _ _ rfl
    (.parentheses rfl rfl (.word rfl)) (by decide +kernel) (fun l _ g hg hgate => absurd hgate (by simp [hgates g hg]))
    (by decide +kernel)
  exact ⟨rfl, _, done, _, issue, hparse, hrun, hp, rfl, hissue, hrule, hline⟩

/-- The source `def m((a))`, `if a`, `b`, `end`, `end` on five lines, where the grammar
takes the `a` in the pattern for its name. -/
def Source.namedPattern : List UInt8 := "def m((a))\n  if a\n    b\n  end\nend\n".toUTF8.toList

def Cst.namedPattern : Cst :=
  .mk { type := "program", endByte := 36 }
    [.mk { type := "method", endByte := 35 }
      [.mk { type := "identifier", field := "name", startByte := 4, endByte := 5 } [],
       .mk { type := "method_parameters", field := "parameters", startByte := 5, endByte := 10 }
        [.mk { type := "destructured_parameter", startByte := 6, endByte := 9 }
          [.mk { type := "constant", field := "name", startByte := 7, endByte := 8 } []]],
       .mk { type := "body_statement", field := "body", startByte := 13, endByte := 31, row := 1 }
        [.mk { type := "if", startByte := 13, endByte := 31, row := 1 }
          [.mk { type := "identifier", field := "condition", startByte := 16, endByte := 17 } [],
           .mk { type := "then", field := "consequence", startByte := 17, endByte := 27 }
            [.mk { type := "identifier", startByte := 22, endByte := 23, row := 2 } []]]]]]

/-- The name `a` is live at the conditional, it is not the text of a pattern, and no
construct with locals of its own stands in the tree; yet the test is a call, and
nothing is reported. -/
theorem Source.name_of_pattern_not_declared :
    (Grammar.constant .namedPattern Source.namedPattern).hasError = false ∧
    (∀ q ∈ Cst.namedPattern.preorder, ∀ d ∈ q.children, d.role = .parameterList →
      q.role = .methodDefinition ∧ d.fills "parameters" = true) ∧
    (∀ q ∈ Cst.namedPattern.preorder, q.type = "destructured_parameter" →
      q.text Source.namedPattern ≠ "a") ∧
    ∃ tree p c w v f t, Source.parse (.constant .namedPattern) "a.rb" Source.namedPattern =
        .ok tree ∧
      tree.places[3]? = some p ∧ c ∈ Cst.namedPattern.preorder ∧ c.role = .conditional ∧
      (c.convert Source.namedPattern ∅).1 = [p.node] ∧ c.child? "condition" = some w ∧
      w.role = .identifier ∧ w.text Source.namedPattern = "a" ∧
      (∀ g ∈ tree.places, g.node.isGate = false) ∧
      (Walk.visits "a.rb" true tree)[3]? = some v ∧ v.frame? = some f ∧ "a" ∈ f.live ∧
      p.node.test? = some t ∧ t.kind = .call ∧ v.found = none := by
  have hp : (Cst.namedPattern.simplify Source.namedPattern).places[3]? = some _ := rfl
  have hc : Cst.namedPattern.preorder[7]? = some _ := rfl
  obtain ⟨v, hv, -, hframe, hfound⟩ := Walk.exists_visit "a.rb" true hp
  refine ⟨rfl, by decide +kernel, by decide +kernel, _, _, _, _, v, _, _, parse_eq rfl "a.rb",
    hp, List.mem_of_getElem? hc, rfl, rfl, rfl, rfl, ?_, ?_, hv, hframe, ?_, rfl, ?_, ?_⟩
  · decide +kernel
  · decide +kernel
  · decide +kernel
  · decide +kernel
  · rw [hfound]
    exact Node.finding_of_call rfl rfl (by decide +kernel)

end RubySmells
