import RubySmells.Proofs.Traversal

/-!
# Live parameters

A parameter is live as long as it holds what the caller passed. The frames of a
walk keep the live parameters as a set that is replaced, thinned out, copied
and dropped; here it is described without frames:

* `Located.VisibleFrom` — which places can be seen from a place: in nested
  mode, those that are not shut off in a class, method or block that does not
  contain the place as well;
* `Located.LiveAfter` — a name is in the last parameter list of some places, and
  is not assigned to after it.

At every place, the live parameters are those that are live after the visible
places up to there (`Node.mem_live_frameAt`).
-/

namespace RubySmells

/-- Whether a place can be seen from another: every class, method or block around
it is around the other, or is the other. -/
def Located.VisibleFrom (nested : Bool) (tree : Node) (l p : Located) : Prop :=
  nested = true → ∀ s ∈ tree.ancestors l.address,
    Context.framed s.node.kind = true → s.address <+: p.address

instance (nested : Bool) (tree : Node) (l p : Located) :
    Decidable (l.VisibleFrom nested tree p) :=
  inferInstanceAs (Decidable (nested = true → ∀ s ∈ tree.ancestors l.address,
    Context.framed s.node.kind = true → s.address <+: p.address))

/-- The places up to the `k`th, in pre-order, that can be seen from a place. -/
def Node.visible (nested : Bool) (tree : Node) (k : Nat) (p : Located) : List Located :=
  (tree.places.take (k + 1)).filter fun l => l.VisibleFrom nested tree p

/-- The name is in the last parameter list and is not assigned to after it. -/
def Located.LiveAfter (ls : List Located) (x : String) : Prop :=
  ∃ before l after, ls = before ++ l :: after ∧ l.node.kind = .parameterList ∧
    (∀ m ∈ after, m.node.kind ≠ .parameterList) ∧ x ∈ l.node.texts ∧
    ∀ m ∈ after, m.node.kind = .localAssignment → m.node.name ≠ some x

/-! ## What nodes do to the live parameters -/

/-- Whether a node has to do with live parameters. -/
def Node.touchesLive (n : Node) : Bool :=
  n.kind = .parameterList || n.kind = .localAssignment

theorem Frame.live_apply_of_not_touchesLive {n : Node} (h : n.touchesLive = false)
    (f : Frame) : (f.apply n).live = f.live := by
  unfold Frame.apply
  split
  · rfl
  · rfl
  · rename_i hk
    simp [Node.touchesLive, hk] at h
  · rename_i hk
    simp [Node.touchesLive, hk] at h
  · rfl

theorem Frame.live_apply_congr {f g : Frame} (h : f.live = g.live) (n : Node) :
    (f.apply n).live = (g.apply n).live := by
  unfold Frame.apply
  split
  · exact h
  · exact h
  · rfl
  · split
    · rw [h]
    · exact h
  · exact h

/-- Only the nodes that touch the live parameters count. -/
theorem Frame.live_applyAll_filter {f g : Frame} (h : f.live = g.live) (ls : List Located) :
    (f.applyAll ls).live = (g.applyAll (ls.filter (·.node.touchesLive))).live := by
  induction ls generalizing f g with
  | nil => exact h
  | cons l ls ih =>
      rw [Frame.applyAll_cons, List.filter_cons]
      cases hl : l.node.touchesLive with
      | true => exact ih (Frame.live_apply_congr h l.node)
      | false =>
          have hkeep := Frame.live_apply_of_not_touchesLive hl f
          exact ih (hkeep.trans h)

/-- Between parameter lists, names are only taken out. -/
theorem Frame.mem_live_applyAll {f : Frame} {ls : List Located} {x : String}
    (h : ∀ l ∈ ls, l.node.kind ≠ .parameterList) :
    x ∈ (f.applyAll ls).live ↔
      x ∈ f.live ∧ ∀ l ∈ ls, l.node.kind = .localAssignment → l.node.name ≠ some x := by
  induction ls generalizing f with
  | nil => simp
  | cons l ls ih =>
      rw [Frame.applyAll_cons, ih fun m hm => h m (List.mem_cons_of_mem _ hm),
        List.forall_mem_cons, ← and_assoc]
      refine and_congr_left fun _ => ?_
      by_cases hk : l.node.kind = .localAssignment
      · cases hname : l.node.name with
        | none => simp [Frame.apply, hk, hname]
        | some y =>
            simp only [Frame.apply, hk, hname, NameSet.mem_erase, ne_eq, Option.some.injEq,
              forall_const]
            rw [eq_comm]
      · have hkeep : l.node.touchesLive = false := by
          simp [Node.touchesLive, hk, h l List.mem_cons_self]
        rw [Frame.live_apply_of_not_touchesLive hkeep]
        exact ⟨fun hx => ⟨hx, fun hk' => absurd hk' hk⟩, And.left⟩

/-- The live parameters after some nodes: those of the last parameter list, or if
there is none those live before, less what is assigned to. -/
theorem Frame.mem_live_applyAll_iff {f : Frame} {ls : List Located} {x : String} :
    x ∈ (f.applyAll ls).live ↔ Located.LiveAfter ls x ∨
      (∀ l ∈ ls, l.node.kind ≠ .parameterList) ∧ x ∈ f.live ∧
        ∀ l ∈ ls, l.node.kind = .localAssignment → l.node.name ≠ some x := by
  -- A parameter list replaces the set, so what came before it does not matter.
  have hsplit : ∀ before l after, l.node.kind = .parameterList →
      (∀ m ∈ after, m.node.kind ≠ .parameterList) →
      (x ∈ (f.applyAll (before ++ l :: after)).live ↔ x ∈ l.node.texts ∧
        ∀ m ∈ after, m.node.kind = .localAssignment → m.node.name ≠ some x) := by
    intro before l after hl hafter
    rw [Frame.applyAll_append, Frame.applyAll_cons, Frame.mem_live_applyAll hafter]
    simp [Frame.apply, hl]
  constructor
  · intro hx
    rcases Located.split_last .parameterList ls with hnone | ⟨before, l, after, rfl, hl, hafter⟩
    · exact .inr ⟨hnone, (Frame.mem_live_applyAll hnone).1 hx⟩
    · obtain ⟨htexts, hassign⟩ := (hsplit before l after hl hafter).1 hx
      exact .inl ⟨before, l, after, rfl, hl, hafter, htexts, hassign⟩
  · rintro (⟨before, l, after, rfl, hl, hafter, htexts, hassign⟩ | ⟨hnone, hx⟩)
    · exact (hsplit before l after hl hafter).2 ⟨htexts, hassign⟩
    · exact (Frame.mem_live_applyAll hnone).2 hx

theorem Frame.mem_live_iff {ls : List Located} {x : String} :
    x ∈ (Frame.applyAll {} ls).live ↔ Located.LiveAfter ls x := by
  rw [Frame.mem_live_applyAll_iff, or_iff_left]
  rintro ⟨-, hx, -⟩
  exact NameSet.not_mem_empty x hx

instance (ls : List Located) (x : String) : Decidable (Located.LiveAfter ls x) :=
  decidable_of_iff _ Frame.mem_live_iff

/-! ## Visible places -/

theorem Node.not_framed_of_touchesLive {n : Node} (h : n.touchesLive = true) :
    Context.framed n.kind = false := by
  unfold Node.touchesLive at h
  cases hk : n.kind <;> simp [hk, Context.framed] at h ⊢

/-- For a node that gets no frame, being in effect is being visible. -/
theorem Located.inEffect_iff_visibleFrom {nested : Bool} {tree : Node} {p l : Located}
    (hl : l ∈ tree.places) (h : l.node.touchesLive = true) :
    l.InEffect nested tree p.address ↔ l.VisibleFrom nested tree p := by
  constructor
  · intro heffect hnested s hs hframed
    exact heffect s (Node.mem_ancestors.1 hs).1 (Node.opens_eq_true.2 ⟨hnested, hframed⟩)
  · intro hvisible s hs hopens
    obtain ⟨hnested, hframed⟩ := Node.opens_eq_true.1 hopens
    by_cases haddress : s.address = l.address
    · -- The place itself opens no frame.
      obtain rfl : s = l := Node.eq_of_address_eq (List.mem_filter.1 hs).1 hl haddress
      rw [Node.not_framed_of_touchesLive h] at hframed
      exact absurd hframed (by simp)
    · exact hvisible hnested s (Node.mem_ancestors.2 ⟨hs, haddress⟩) hframed

/-- The live parameters at a place are those live after the visible places. -/
theorem Node.mem_live_frameAt (nested : Bool) {tree : Node} {k : Nat} {p : Located}
    (hp : tree.places[k]? = some p) (x : String) :
    x ∈ (tree.frameAt nested p.address).live ↔
      Located.LiveAfter (tree.visible nested k p) x := by
  -- The two lists differ in classes, methods and blocks only.
  have hfilter : (tree.inEffect nested p.address).filter (·.node.touchesLive) =
      (tree.visible nested k p).filter (·.node.touchesLive) := by
    rw [Node.inEffect, Node.visible, Node.take_places_eq_upTo hp, List.filter_filter,
      List.filter_filter]
    refine List.filter_congr fun l hl => ?_
    cases ht : l.node.touchesLive with
    | false => rfl
    | true =>
        rw [← Node.take_places_eq_upTo hp] at hl
        simp [Located.inEffect_iff_visibleFrom (List.mem_of_mem_take hl) ht]
  rw [Node.frameAt, Frame.live_applyAll_filter rfl, hfilter, ← Frame.live_applyAll_filter rfl,
    Frame.mem_live_iff]

/-! ## Conditionals on a parameter -/

theorem Rule.ofKind?_eq_booleanArgument {kind : Kind} :
    Rule.ofKind? kind = some .booleanArgument ↔ kind = .conditional := by
  cases kind <;> simp [Rule.ofKind?]

/-- When a conditional is reported. -/
theorem Node.booleanArgument_iff {last : Option String} {n : Node} {f : Frame} :
    (∃ issue, n.finding last f = some issue ∧ issue.rule = "boolean_argument") ↔
      n.kind = .conditional ∧ ∃ t x, n.firstNode? = some t ∧ t.kind = .localVariable ∧
        t.name = some x ∧ x ∈ f.live := by
  rw [show "boolean_argument" = Rule.booleanArgument.label from rfl, Node.finding_label_iff,
    Rule.ofKind?_eq_booleanArgument]
  refine and_congr_right fun _ => ?_
  unfold Rule.concerns Rule.fires Rule.testsLive Node.test?
  cases n.firstNode? with
  | none => simp
  | some t =>
      cases ht : t.name with
      | none => simp [ht]
      | some x => simp [ht]

/-- **Live parameters.** When the rule for a place runs, a name is live exactly
if it is in the last visible parameter list and is not assigned to at a visible
place after it. So a conditional is reported, once, exactly if its test is a
local variable whose name is live. -/
theorem Walk.live_at_visit (path : String) (nested : Bool) (tree : Node) :
    (∃ w, run path nested tree = .ok w ∧
      w.issues = (visits path nested tree).filterMap (·.found)) ∧
    ∀ (k : Nat) (p : Located), tree.places[k]? = some p →
      ∃ v f, (visits path nested tree)[k]? = some v ∧ v.node = p.node ∧ v.frame? = some f ∧
        (∀ x, x ∈ f.live ↔ Located.LiveAfter (tree.visible nested k p) x) ∧
        ((∃ issue, v.found = some issue ∧ issue.rule = "boolean_argument") ↔
          p.node.kind = .conditional ∧ ∃ t x, p.node.firstNode? = some t ∧
            t.kind = .localVariable ∧ t.name = some x ∧
            Located.LiveAfter (tree.visible nested k p) x) := by
  constructor
  · obtain ⟨w, hrun, hadds, -, -⟩ := run_stops path nested tree
    exact ⟨w, hrun, hadds.issues⟩
  · intro k p hp
    obtain ⟨v, hv, hnode, hframe, hfound⟩ := exists_visit path nested hp
    have hlive := Node.mem_live_frameAt nested hp
    refine ⟨v, _, hv, hnode, hframe, hlive, ?_⟩
    rw [hfound, Node.booleanArgument_iff]
    simp only [hlive]

/-- A method with a parameter `a`, a block in which `a` is assigned to, and a
conditional on `a` after the block. -/
def Node.assignmentInBlock : Node :=
  .mk { kind := .methodDefinition, name := "m" }
    [.node (.mk { kind := .parameterList } [.text "a", .text "b"]),
     .node (.mk { kind := .block }
      [.node (.mk { kind := .localAssignment, name := "a" } [.text "a"])]),
     .node (.mk { kind := .conditional }
      [.node (.mk { kind := .localVariable, name := "a" } [.text "a"])])]

/-- The assignment counts after the block only if frames are not restored. -/
theorem Walk.live_at_visit_assignmentInBlock :
    (∃ v issue, (visits "a.rb" true .assignmentInBlock)[4]? = some v ∧
      v.found = some issue ∧ issue.rule = "boolean_argument") ∧
    (∃ v, (visits "a.rb" false .assignmentInBlock)[4]? = some v ∧
      ¬ ∃ issue, v.found = some issue ∧ issue.rule = "boolean_argument") := by
  have hp : Node.assignmentInBlock.places[4]? =
      some ⟨[2], .mk { kind := .conditional }
        [.node (.mk { kind := .localVariable, name := "a" } [.text "a"])]⟩ := rfl
  constructor
  · obtain ⟨v, f, hv, -, -, -, hfound⟩ := (live_at_visit "a.rb" true .assignmentInBlock).2 4 _ hp
    obtain ⟨issue, hissue, hrule⟩ := hfound.2 ⟨rfl, _, "a", rfl, rfl, rfl, by decide⟩
    exact ⟨v, issue, hv, hissue, hrule⟩
  · obtain ⟨v, f, hv, -, -, -, hfound⟩ := (live_at_visit "a.rb" false .assignmentInBlock).2 4 _ hp
    refine ⟨v, hv, fun hissue => ?_⟩
    obtain ⟨-, t, x, ht, -, hx, hlive⟩ := hfound.1 hissue
    obtain rfl := Option.some.inj ht
    obtain rfl := Option.some.inj hx
    exact absurd hlive (by decide)

end RubySmells
