import RubySmells.Proofs.Attribution

/-!
# Chains of calls

A chain of calls is reported unless the last chain before it was met in a
method of the same name. `Node.chains` lists the chains of a tree in pre-order,
and `Node.previousChain?` is the one before a place.

* `Node.lastOver_take` — the method remembered when a walk stops is that of the
  previous chain;
* `Walk.exists_visit_chain` — so a chain is reported exactly if its method
  differs from that of the previous chain, where a missing chain counts as one
  outside of methods;
* `Walk.exists_visit_outside` — a chain outside of methods is reported in nested
  mode, right after a chain in a method, and nowhere else.
-/

namespace RubySmells

/-- The chains of calls of a tree, in pre-order. -/
def Node.chains (tree : Node) : List Located :=
  tree.places.filter (·.node.isChain)

/-- The last chain of calls before the `k`th place. -/
def Node.previousChain? (tree : Node) (k : Nat) : Option Located :=
  ((tree.places.take k).filter (·.node.isChain)).getLast?

/-- Whether a place is a method definition or stands in one. -/
def Node.InMethod (tree : Node) (p : Located) : Prop :=
  ∃ s ∈ tree.lineage p.address, s.node.kind = .methodDefinition

/-- Whether every method definition of a tree has a name. -/
def Node.MethodsNamed (tree : Node) : Prop :=
  ∀ p ∈ tree.places, p.node.kind = .methodDefinition → p.node.name ≠ none

instance (tree : Node) (p : Located) : Decidable (tree.InMethod p) :=
  inferInstanceAs (Decidable (∃ s ∈ tree.lineage p.address, s.node.kind = .methodDefinition))

instance (tree : Node) : Decidable tree.MethodsNamed :=
  inferInstanceAs (Decidable (∀ p ∈ tree.places,
    p.node.kind = .methodDefinition → p.node.name ≠ none))

/-! ## The method remembered -/

theorem Stop.lastOver_map (last : Option String) (frame : Located → Frame) (ls : List Located) :
    Stop.lastOver last (ls.map fun l => ⟨l, frame l⟩) =
      ((ls.filter (·.node.isChain)).getLast?.map fun l => (frame l).methodName).getD last := by
  induction ls generalizing last with
  | nil => rfl
  | cons l ls ih =>
      show Stop.lastOver (l.node.lastAfter last (frame l)) (ls.map fun l => ⟨l, frame l⟩) = _
      rw [ih, List.filter_cons, Node.lastAfter]
      cases l.node.isChain with
      | false => rfl
      | true =>
          rw [if_pos rfl, if_pos rfl, List.getLast?_cons]
          cases (ls.filter (·.node.isChain)).getLast? <;> rfl

theorem Node.lastOver_take (nested : Bool) (tree : Node) (k : Nat) :
    Stop.lastOver none ((tree.stops nested {}).take k) =
      (tree.previousChain? k).bind fun q => (tree.frameAt nested q.address).methodName := by
  rw [Node.stops_eq, ← List.map_take, Stop.lastOver_map, Node.previousChain?]
  cases ((tree.places.take k).filter (·.node.isChain)).getLast? <;> rfl

theorem Rule.ofKind?_eq_lawOfDemeter {kind : Kind} :
    Rule.ofKind? kind = some .lawOfDemeter ↔ kind = .call := by
  cases kind <;> simp [Rule.ofKind?]

/-- When a chain is reported. -/
theorem Node.lawOfDemeter_iff {last : Option String} {n : Node} {f : Frame} :
    (∃ issue, n.finding last f = some issue ∧ issue.rule = "law_of_demeter") ↔
      n.isChain = true ∧ f.methodName ≠ last := by
  rw [show "law_of_demeter" = Rule.lawOfDemeter.label from rfl, Node.finding_label_iff,
    Rule.ofKind?_eq_lawOfDemeter]
  constructor
  · rintro ⟨-, hconcerns, hfires⟩
    exact ⟨hconcerns, of_decide_eq_true hfires⟩
  · rintro ⟨hchain, hne⟩
    exact ⟨Node.kind_of_isChain hchain, hchain, decide_eq_true hne⟩

/-- The visit of a place, as far as chains are concerned. -/
theorem Walk.exists_visit_chain (path : String) (nested : Bool) {tree : Node} {k : Nat}
    {p : Located} (hp : tree.places[k]? = some p) :
    ∃ v, (visits path nested tree)[k]? = some v ∧ v.node = p.node ∧
      (∀ issue, v.found = some issue →
        issue.methodName = (tree.frameAt nested p.address).methodName) ∧
      ((∃ issue, v.found = some issue ∧ issue.rule = "law_of_demeter") ↔
        p.node.isChain = true ∧ (tree.frameAt nested p.address).methodName ≠
          (tree.previousChain? k).bind fun q => (tree.frameAt nested q.address).methodName) := by
  obtain ⟨v, hv, hnode, -, hfound⟩ := exists_visit path nested hp
  rw [Node.lastOver_take] at hfound
  refine ⟨v, hv, hnode, ?_, ?_⟩
  · intro issue hissue
    rw [hfound] at hissue
    exact (Node.finding_names hissue).2
  · rw [hfound]
    exact Node.lawOfDemeter_iff

/-! ## Places of chains -/

theorem Node.mem_take_of_previousChain? {tree : Node} {k : Nat} {q : Located}
    (h : tree.previousChain? k = some q) : q ∈ tree.places.take k :=
  (List.mem_filter.1 (List.mem_of_getLast? h)).1

theorem Node.mem_places_of_previousChain? {tree : Node} {k : Nat} {q : Located}
    (h : tree.previousChain? k = some q) : q ∈ tree.places :=
  List.mem_of_mem_take (Node.mem_take_of_previousChain? h)

/-- A chain right after another in the list of chains has the other as its
previous chain. -/
theorem Node.previousChain?_of_chains_eq {tree : Node} {before after : List Located}
    {q p : Located} (h : tree.chains = before ++ q :: p :: after) :
    ∃ k, tree.places[k]? = some p ∧ p.node.isChain = true ∧ tree.previousChain? k = some q := by
  have h : tree.chains = (before ++ [q]) ++ p :: after := by rw [h]; simp
  obtain ⟨left, right, hplaces, hleft, hright⟩ := List.filter_eq_append_iff.1 h
  obtain ⟨skipped, rest, rfl, hskipped, hp, -⟩ := List.filter_eq_cons_iff.1 hright
  -- Between the two there is no chain.
  have hnone : skipped.filter (·.node.isChain) = [] := List.filter_eq_nil_iff.2 hskipped
  have hplaces : tree.places = (left ++ skipped) ++ p :: rest := by rw [hplaces]; simp
  refine ⟨(left ++ skipped).length, ?_, hp, ?_⟩
  · rw [hplaces, List.getElem?_append_right (Nat.le_refl _), Nat.sub_self]
    rfl
  · rw [Node.previousChain?, hplaces, List.take_left', List.filter_append, hleft, hnone]
    · simp
    · rfl

theorem Node.chains_eq_of_previousChain? {tree : Node} {k : Nat} {q p : Located}
    (hp : tree.places[k]? = some p) (hchain : p.node.isChain = true)
    (hq : tree.previousChain? k = some q) :
    ∃ before after, tree.chains = before ++ q :: p :: after := by
  obtain ⟨hlt, rfl⟩ := List.getElem?_eq_some_iff.1 hp
  obtain ⟨before, hbefore⟩ := List.getLast?_eq_some_iff.1 hq
  refine ⟨before, (tree.places.drop (k + 1)).filter (·.node.isChain), ?_⟩
  have hplaces : tree.places =
      tree.places.take k ++ tree.places[k] :: tree.places.drop (k + 1) := by
    rw [← List.drop_eq_getElem_cons hlt, List.take_append_drop]
  have hchains := congrArg (List.filter (·.node.isChain)) hplaces
  rw [List.filter_append, hbefore, List.filter_cons, if_pos hchain] at hchains
  rw [Node.chains, hchains]
  simp

/-! ## Chains outside of methods -/

section Named

variable {tree : Node} (hnamed : tree.MethodsNamed)

include hnamed

/-- In nested mode, a frame names no method exactly outside of methods. -/
theorem Node.methodName_nested_eq_none_iff {p : Located} (hp : p ∈ tree.places) :
    (tree.frameAt true p.address).methodName = none ↔ ¬ tree.InMethod p := by
  have hlineage : ∀ l ∈ tree.lineage p.address, l.node.kind = .methodDefinition →
      l.node.name ≠ none := fun l hl => hnamed l (List.mem_filter.1 hl).1
  rw [Frame.methodName_writtenBy.frameAt_nested rfl rfl hp,
    Located.lastName_eq_none_iff hlineage, Node.InMethod]
  simp

/-- Otherwise, a frame that names no method comes before every method. -/
theorem Node.methodName_false_eq_none_iff {k : Nat} {p : Located}
    (hp : tree.places[k]? = some p) :
    (tree.frameAt false p.address).methodName = none ↔
      ∀ l ∈ tree.places.take (k + 1), l.node.kind ≠ .methodDefinition := by
  have htake : ∀ l ∈ tree.places.take (k + 1), l.node.kind = .methodDefinition →
      l.node.name ≠ none := fun l hl => hnamed l (List.mem_of_mem_take hl)
  rw [Node.frameAt_false hp, Frame.methodName_writtenBy.applyAll_eq rfl,
    Located.lastName_eq_none_iff htake]

/-- If frames are not restored, what comes before a frame that names no method
is in a frame that names none either. -/
theorem Node.methodName_false_mono {k : Nat} {p q : Located} (hp : tree.places[k]? = some p)
    (hq : q ∈ tree.places.take k) (h : (tree.frameAt false p.address).methodName = none) :
    (tree.frameAt false q.address).methodName = none := by
  obtain ⟨j, hj⟩ := List.getElem?_of_mem hq
  rw [List.getElem?_take] at hj
  split at hj
  · rename_i hlt
    rw [Node.methodName_false_eq_none_iff hnamed hp] at h
    rw [Node.methodName_false_eq_none_iff hnamed hj]
    intro l hl
    exact h l (List.take_subset_take_left _ (by omega) hl)
  · exact absurd hj (by simp)

/-- A frame that names no method, and differs in that from the frame of the
previous chain, stands outside of methods while that chain stands in one. This
takes frames that are restored. -/
theorem Node.none_ne_previousChain_iff (nested : Bool) {k : Nat} {p : Located}
    (hp : tree.places[k]? = some p) :
    ((tree.frameAt nested p.address).methodName = none ∧
      none ≠ (tree.previousChain? k).bind fun q => (tree.frameAt nested q.address).methodName) ↔
    nested = true ∧ ¬ tree.InMethod p ∧ ∃ q, tree.previousChain? k = some q ∧ tree.InMethod q := by
  have hp_mem := List.mem_of_getElem? hp
  cases hprevious : tree.previousChain? k with
  | none => simp
  | some q =>
      have hq_mem := Node.mem_places_of_previousChain? hprevious
      rw [Option.bind_some, ne_comm]
      cases nested with
      | false =>
          -- Method names are never taken back, so the earlier frame names none.
          have hmono := Node.methodName_false_mono hnamed hp
            (Node.mem_take_of_previousChain? hprevious)
          simpa using hmono
      | true =>
          rw [Ne, Node.methodName_nested_eq_none_iff hnamed hp_mem,
            Node.methodName_nested_eq_none_iff hnamed hq_mem]
          simp

/-- A chain outside of methods is reported in nested mode, right after a chain
in a method, and nowhere else. -/
theorem Walk.exists_visit_outside (path : String) (nested : Bool) {k : Nat} {p : Located}
    (hp : tree.places[k]? = some p) :
    ∃ v, (visits path nested tree)[k]? = some v ∧
      ((∃ issue, v.found = some issue ∧ issue.rule = "law_of_demeter" ∧
          issue.methodName = none) ↔
        p.node.isChain = true ∧ nested = true ∧ ¬ tree.InMethod p ∧
          ∃ q, tree.previousChain? k = some q ∧ tree.InMethod q) := by
  obtain ⟨v, hv, -, hname, hfires⟩ := exists_visit_chain path nested hp
  refine ⟨v, hv, ?_⟩
  rw [← Node.none_ne_previousChain_iff hnamed nested hp]
  constructor
  · rintro ⟨issue, hissue, hrule, hnone⟩
    obtain ⟨hchain, hne⟩ := hfires.1 ⟨issue, hissue, hrule⟩
    have hframe := (hname issue hissue).symm.trans hnone
    exact ⟨hchain, hframe, hframe ▸ hne⟩
  · rintro ⟨hchain, hframe, hne⟩
    obtain ⟨issue, hissue, hrule⟩ := hfires.2 ⟨hchain, hframe ▸ hne⟩
    exact ⟨issue, hissue, hrule, (hname issue hissue).trans hframe⟩

end Named

/-- **Chains outside of methods.** In a tree whose methods have names, no chain
outside of methods is reported, exactly if frames are not restored or no such
chain comes right after a chain in a method. -/
theorem Walk.no_chain_outside_methods_iff (path : String) (nested : Bool) (tree : Node)
    (hnamed : tree.MethodsNamed) :
    ∃ w, run path nested tree = .ok w ∧
      ((∀ issue ∈ w.issues, issue.rule = "law_of_demeter" → issue.methodName ≠ none) ↔
        (nested = true → ∀ before q p after, tree.chains = before ++ q :: p :: after →
          tree.InMethod q → tree.InMethod p)) := by
  obtain ⟨w, hrun, hadds, -, -⟩ := run_stops path nested tree
  have hissues : w.issues = (visits path nested tree).filterMap (·.found) := hadds.issues
  refine ⟨w, hrun, ?_⟩
  rw [hissues]
  constructor
  · intro hreport hnested before q p after hchains hq
    obtain ⟨k, hp, hchain, hprevious⟩ := Node.previousChain?_of_chains_eq hchains
    obtain ⟨v, hv, hiff⟩ := exists_visit_outside hnamed path nested hp
    apply Classical.byContradiction
    intro hout
    obtain ⟨issue, hissue, hrule, hnone⟩ := hiff.2 ⟨hchain, hnested, hout, q, hprevious, hq⟩
    have hmem := List.mem_filterMap.2 ⟨v, List.mem_of_getElem? hv, hissue⟩
    exact hreport issue hmem hrule hnone
  · intro hcond issue hmem hrule hnone
    obtain ⟨v, hv, hissue⟩ := List.mem_filterMap.1 hmem
    obtain ⟨k, p, hk, hp⟩ := exists_place_of_mem_visits hv
    obtain ⟨v', hv', hiff⟩ := exists_visit_outside hnamed path nested hp
    obtain rfl : v = v' := Option.some.inj (hk.symm.trans hv')
    obtain ⟨hchain, hnested, hout, q, hprevious, hq⟩ := hiff.1 ⟨issue, hissue, hrule, hnone⟩
    obtain ⟨before, after, hchains⟩ := Node.chains_eq_of_previousChain? hp hchain hprevious
    exact hout (hcond hnested before q p after hchains hq)

/-- A chain of three calls. -/
def Node.chainOfThree : Node :=
  .mk { kind := .call, name := "c", line := 2 }
    [.node (.mk { kind := .call, name := "b", line := 2 }
      [.node (.mk { kind := .call, name := "a", line := 2 } [.absent, .text "a"]), .text "b"]),
     .text "c"]

/-- A method with a chain in it, and a chain after the method. -/
def Node.chainAfterMethod : Node :=
  .mk { kind := .program }
    [.node (.mk { kind := .methodDefinition, name := "m" } [.node .chainOfThree]),
     .node .chainOfThree]

theorem Walk.no_chain_outside_methods_iff_chainAfterMethod :
    Node.chainAfterMethod.MethodsNamed ∧
    (∃ w, run "sample.rb" true .chainAfterMethod = .ok w ∧
      ¬ ∀ issue ∈ w.issues, issue.rule = "law_of_demeter" → issue.methodName ≠ none) ∧
    (∃ w, run "sample.rb" false .chainAfterMethod = .ok w ∧
      ∀ issue ∈ w.issues, issue.rule = "law_of_demeter" → issue.methodName ≠ none) := by
  have hnamed : Node.chainAfterMethod.MethodsNamed := by decide
  refine ⟨hnamed, ?_, ?_⟩
  · obtain ⟨w, hrun, hiff⟩ := no_chain_outside_methods_iff "sample.rb" true _ hnamed
    refine ⟨w, hrun, fun hreport => ?_⟩
    have hchains : Node.chainAfterMethod.chains =
        [] ++ ⟨[0, 0], .chainOfThree⟩ :: ⟨[1], .chainOfThree⟩ :: [] := rfl
    have hin := hiff.1 hreport rfl [] _ _ [] hchains (by decide)
    exact absurd hin (by decide)
  · obtain ⟨w, hrun, hiff⟩ := no_chain_outside_methods_iff "sample.rb" false _ hnamed
    refine ⟨w, hrun, hiff.2 ?_⟩
    intro hnested
    exact absurd hnested (by decide)

/-- The chain after the method is reported, in no method. -/
theorem Walk.chain_reported_outside_methods :
    Node.chainAfterMethod.MethodsNamed ∧
    ∃ w issue, run "sample.rb" true .chainAfterMethod = .ok w ∧ issue ∈ w.issues ∧
      issue.rule = "law_of_demeter" ∧ issue.methodName = none := by
  have hp : Node.chainAfterMethod.places[5]? = some ⟨[1], .chainOfThree⟩ := rfl
  obtain ⟨w, hrun, hadds, -, -⟩ := run_stops "sample.rb" true .chainAfterMethod
  obtain ⟨v, hv, -, hname, hfires⟩ := exists_visit_chain "sample.rb" true hp
  obtain ⟨issue, hissue, hrule⟩ := hfires.2 ⟨rfl, by decide⟩
  have hmem : issue ∈ w.issues := by
    rw [hadds.issues]
    exact List.mem_append_right _ (List.mem_filterMap.2 ⟨v, List.mem_of_getElem? hv, hissue⟩)
  exact ⟨by decide, w, issue, hrun, hmem, hrule, (hname issue hissue).trans (by decide)⟩

end RubySmells
