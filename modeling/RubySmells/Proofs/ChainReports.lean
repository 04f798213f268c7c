import RubySmells.Proofs.Chains

/-!
# Which chains are reported

The rule on chains of calls remembers one method, that of the last chain met,
and reports a chain whose method is another. What a whole run reports follows
from the visits of its chains alone (`Walk.chainVisits`):

* a chain is reported exactly if its method is not that of the chain visited
  before it (`Walk.chain_reported_iff`);
* the methods of the reports are the methods of the chains with repetitions
  left out (`Walk.reported_methods`), so a method is reported once more whenever
  the walk comes back to it from a chain in another method
  (`Walk.reported_methods_nodup_iff`).
-/

namespace RubySmells

/-- Whether a node is a call on a call on a call. -/
def Node.ThreeCalls (n : Node) : Prop :=
  n.kind = .call ∧ ∃ r, n.receiver? = some r ∧ r.kind = .call ∧
    ∃ q, r.receiver? = some q ∧ q.kind = .call

theorem Node.isChain_iff (n : Node) : n.isChain = true ↔ n.ThreeCalls := by
  unfold Node.isChain Node.ThreeCalls Rule.chainDepth
  simp [Rule.startsChain, Node.isCall, Option.any_eq_true]

instance (n : Node) : Decidable n.ThreeCalls :=
  decidable_of_iff _ n.isChain_iff

/-- The method current when the rule for a node runs. -/
def Visit.method? (v : Visit) : Option String :=
  v.frame?.bind Frame.methodName

/-- Whether a chain of calls is reported at a visit. -/
def Visit.ReportsChain (v : Visit) : Prop :=
  ∃ issue, v.found = some issue ∧ issue.rule = "law_of_demeter"

/-- The method of the last chain among some visits. -/
def Visit.lastMethod? (vs : List Visit) : Option String :=
  (vs.filter (·.node.ThreeCalls)).getLast?.bind Visit.method?

/-- The visits of the chains of a tree. -/
def Walk.chainVisits (path : String) (nested : Bool) (tree : Node) : List Visit :=
  (visits path nested tree).filter (·.node.ThreeCalls)

/-! ## Visits and places -/

/-- The nodes and methods of visits that agree with stops. -/
theorem Visit.Agree.methods {last : Option String} {ss : List Stop} {vs : List Visit}
    (h : Visit.Agree last ss vs) :
    vs.map (fun v => (v.node, v.method?)) =
      ss.map fun s => (s.place.node, s.frame.methodName) := by
  have hmethod : vs.map Visit.method? = ss.map (·.frame.methodName) := by
    have hframe := congrArg (List.map (·.bind Frame.methodName)) h.frame
    rwa [List.map_map, List.map_map] at hframe
  rw [← List.zip_map', h.node, hmethod, List.zip_map']

/-- Of visits and places with the same nodes and methods, the chains are in the
same methods. -/
theorem Visit.map_method_filter {vs : List Visit} {ls : List Located}
    {method : Located → Option String}
    (h : vs.map (fun v => (v.node, v.method?)) = ls.map fun l => (l.node, method l)) :
    (vs.filter (·.node.ThreeCalls)).map Visit.method? =
      (ls.filter (·.node.isChain)).map method := by
  have hchain : ∀ n : Node, decide n.ThreeCalls = n.isChain := fun n => by
    rw [Bool.eq_iff_iff, decide_eq_true_iff, n.isChain_iff]
  have h := congrArg (fun qs => (qs.filter (·.1.isChain)).map Prod.snd) h
  simpa only [List.filter_map, List.map_map, Function.comp_def, hchain] using h

namespace Walk

variable (path : String) (nested : Bool) (tree : Node)

/-- Node and method at each visit depend on the place only. -/
theorem map_visits_eq :
    (visits path nested tree).map (fun v => (v.node, v.method?)) =
      tree.places.map fun p => (p.node, (tree.frameAt nested p.address).methodName) := by
  obtain ⟨_, _, _, _, hagree⟩ := run_stops path nested tree
  rw [hagree.methods, Node.stops_eq, List.map_map]
  rfl

/-- The methods of the chains visited. -/
theorem map_method_chainVisits :
    (chainVisits path nested tree).map Visit.method? =
      tree.chains.map fun p => (tree.frameAt nested p.address).methodName :=
  Visit.map_method_filter (map_visits_eq path nested tree)

/-- The method remembered after some visits is that of the last chain among
them. -/
theorem lastOver_take_stops (k : Nat) :
    Stop.lastOver none ((tree.stops nested {}).take k) =
      Visit.lastMethod? ((visits path nested tree).take k) := by
  have htake := congrArg (List.take k) (map_visits_eq path nested tree)
  rw [← List.map_take, ← List.map_take] at htake
  have hmethods := congrArg (·.getLast?.bind id) (Visit.map_method_filter htake)
  simp only [List.getLast?_map, Option.bind_map, Function.id_comp] at hmethods
  exact (Node.lastOver_take nested tree k).trans hmethods.symm

/-- What is reported at a visit. -/
theorem reportsChain_iff {k : Nat} {v : Visit} (hv : (visits path nested tree)[k]? = some v) :
    v.ReportsChain ↔ v.node.ThreeCalls ∧
      v.method? ≠ Visit.lastMethod? ((visits path nested tree).take k) := by
  have hlt : k < tree.places.length := by
    have hlength := congrArg List.length (map_visits_eq path nested tree)
    rw [List.length_map, List.length_map] at hlength
    exact hlength ▸ (List.getElem?_eq_some_iff.1 hv).1
  obtain ⟨v', hv', hnode, hframe, hfound⟩ :=
    exists_visit path nested (List.getElem?_eq_getElem hlt)
  obtain rfl : v = v' := Option.some.inj (hv.symm.trans hv')
  have hmethod : v.method? = (tree.frameAt nested tree.places[k].address).methodName := by
    rw [Visit.method?, hframe]
    rfl
  rw [Visit.ReportsChain, hfound, Node.lawOfDemeter_iff, hnode, Node.isChain_iff, hmethod,
    lastOver_take_stops path]

end Walk

/-- An entry of a filtered list, and what comes before it there. -/
theorem exists_getElem?_of_filter {α : Type} {p : α → Bool} {xs : List α} {i : Nat} {x : α}
    (h : (xs.filter p)[i]? = some x) :
    ∃ k, xs[k]? = some x ∧ p x = true ∧ (xs.take k).filter p = (xs.filter p).take i := by
  induction xs generalizing i with
  | nil => simp at h
  | cons y ys ih =>
      rw [List.filter_cons] at h ⊢
      cases hy : p y with
      | false =>
          simp only [hy, Bool.false_eq_true, if_false] at h ⊢
          obtain ⟨k, hk, hx, htake⟩ := ih h
          exact ⟨k + 1, hk, hx, by simp [hy, htake]⟩
      | true =>
          simp only [hy, if_true] at h ⊢
          cases i with
          | zero =>
              obtain rfl : y = x := by simpa using h
              exact ⟨0, rfl, hy, by simp⟩
          | succ i =>
              obtain ⟨k, hk, hx, htake⟩ := ih (by simpa using h)
              exact ⟨k + 1, hk, hx, by simp [hy, htake]⟩

/-- **Reported chains.** A chain of calls is reported exactly if its method differs
from that of the chain visited before it, where a missing chain counts as one
outside of methods; nothing else is reported under this rule; and after the
run the method of the last chain is remembered. -/
theorem Walk.chain_reported_iff (path : String) (nested : Bool) (tree : Node) :
    ∃ w, run path nested tree = .ok w ∧
      w.issues = (visits path nested tree).filterMap (·.found) ∧
      (visits path nested tree).map (·.node) = tree.places.map (·.node) ∧
      (∀ (i : Nat) (d : Visit), (chainVisits path nested tree)[i]? = some d →
        (d.ReportsChain ↔
          d.method? ≠ ((chainVisits path nested tree).take i).getLast?.bind Visit.method?)) ∧
      (∀ v ∈ visits path nested tree, v.ReportsChain → v.node.ThreeCalls) ∧
      w.context.lastDemeterMethod =
        (chainVisits path nested tree).getLast?.bind Visit.method? := by
  obtain ⟨w, hrun, hadds, hcontext, hagree⟩ := run_stops path nested tree
  refine ⟨w, hrun, hadds.issues, ?_, ?_, ?_, ?_⟩
  · have h := congrArg (List.map Prod.fst) (map_visits_eq path nested tree)
    rwa [List.map_map, List.map_map] at h
  · intro i d hd
    obtain ⟨k, hk, hcalls, htake⟩ := exists_getElem?_of_filter hd
    have hcalls : d.node.ThreeCalls := of_decide_eq_true hcalls
    rw [reportsChain_iff path nested tree hk, Visit.lastMethod?, htake]
    exact and_iff_right hcalls
  · intro v hv hreports
    obtain ⟨k, hk⟩ := List.getElem?_of_mem hv
    exact ((reportsChain_iff path nested tree hk).1 hreports).1
  · -- Remembering starts from no method, so all visits together decide.
    have h := lastOver_take_stops path nested tree
      ((tree.stops nested {}).length + (visits path nested tree).length)
    rw [List.take_of_length_le (by omega), List.take_of_length_le (by omega)] at h
    rw [hcontext]
    exact h

/-! ## The methods of the reports -/

/-- Names with repetitions left out, where another name came before them. -/
def changes (last : Option String) : List (Option String) → List (Option String)
  | [] => []
  | m :: ms => if m = last then changes last ms else m :: changes m ms

/-- The reports on chains among some findings. -/
def Issue.chainMethods (found : List Issue) : List (Option String) :=
  (found.filter (·.rule = "law_of_demeter")).map (·.methodName)

/-- What is reported on a chain at one stop. -/
theorem Node.chainMethods_finding (last : Option String) (n : Node) (f : Frame) :
    Issue.chainMethods (n.finding last f).toList =
      if n.isChain = true ∧ f.methodName ≠ last then [f.methodName] else [] := by
  have hiff := @Node.lawOfDemeter_iff last n f
  cases hfound : n.finding last f with
  | none =>
      rw [hfound] at hiff
      rw [if_neg fun h => by simpa using hiff.2 h]
      rfl
  | some issue =>
      have hmethod := (Node.finding_names hfound).2
      rw [hfound] at hiff
      by_cases hrule : issue.rule = "law_of_demeter"
      · rw [if_pos (hiff.1 ⟨issue, rfl, hrule⟩)]
        simp [Issue.chainMethods, hrule, hmethod]
      · rw [if_neg fun h => by
          obtain ⟨issue', hissue, hrule'⟩ := hiff.2 h
          exact hrule (Option.some.inj hissue ▸ hrule')]
        simp [Issue.chainMethods, hrule]

theorem Issue.chainMethods_append (found found' : List Issue) :
    Issue.chainMethods (found ++ found') =
      Issue.chainMethods found ++ Issue.chainMethods found' := by
  simp [Issue.chainMethods]

/-- The reports on chains at several stops: the methods of the chains, with
repetitions left out. -/
theorem Stop.chainMethods_findings (last : Option String) (ss : List Stop) :
    Issue.chainMethods ((Stop.findings last ss).filterMap id) =
      changes last ((ss.filter (·.place.node.isChain)).map (·.frame.methodName)) := by
  induction ss generalizing last with
  | nil => rfl
  | cons s ss ih =>
      have hcons : (Stop.findings last (s :: ss)).filterMap id =
          (s.place.node.finding last s.frame).toList ++
            (Stop.findings (s.place.node.lastAfter last s.frame) ss).filterMap id := by
        rw [Stop.findings, List.filterMap_cons]
        cases s.place.node.finding last s.frame <;> rfl
      rw [hcons, Issue.chainMethods_append, Node.chainMethods_finding, ih, List.filter_cons,
        Node.lastAfter]
      cases s.place.node.isChain with
      | false => rfl
      | true =>
          rw [if_pos rfl, if_pos rfl, List.map_cons, changes]
          -- An unreported chain is in the method remembered.
          by_cases hm : s.frame.methodName = last
          · rw [if_neg (fun h => h.2 hm), if_pos hm, hm]
            rfl
          · rw [if_pos ⟨rfl, hm⟩, if_neg hm]
            rfl

/-- The methods of the reports on chains, over a whole run. -/
theorem Walk.reported_methods (path : String) (nested : Bool) (tree : Node) :
    ∃ w, run path nested tree = .ok w ∧
      Issue.chainMethods w.issues =
        changes none ((chainVisits path nested tree).map Visit.method?) := by
  obtain ⟨w, hrun, hadds, -, hagree⟩ := run_stops path nested tree
  have hissues : w.issues = (Stop.findings none (tree.stops nested {})).filterMap id := by
    rw [← hagree.found, List.filterMap_map, hadds.issues]
    rfl
  refine ⟨w, hrun, ?_⟩
  rw [hissues, Stop.chainMethods_findings, map_method_chainVisits, Node.stops_eq,
    List.filter_map, List.map_map, Node.chains]
  rfl

/-! ## Methods reported more than once -/

/-- Names of which each occurs in one unbroken stretch. -/
def Grouped (ms : List (Option String)) : Prop :=
  ∀ before m between after, ms = before ++ m :: (between ++ m :: after) →
    ∀ x ∈ between, x = m

theorem grouped_nil : Grouped [] := by
  intro before m between after h
  exact absurd h (by simp)

theorem grouped_cons {m : Option String} {ms : List (Option String)} :
    Grouped (m :: ms) ↔
      Grouped ms ∧ ∀ between after, ms = between ++ m :: after → ∀ x ∈ between, x = m := by
  constructor
  · intro h
    constructor
    · rintro before m' between after rfl
      exact h (m :: before) m' between after rfl
    · rintro between after rfl
      exact h [] m between after rfl
  · rintro ⟨htail, hhead⟩ before m' between after h
    cases before with
    | nil =>
        obtain ⟨rfl, rfl⟩ := List.cons.inj h
        exact hhead between after rfl
    | cons b before =>
        obtain ⟨-, rfl⟩ := List.cons.inj h
        exact htail before m' between after rfl

theorem grouped_cons_self {m : Option String} {ms : List (Option String)} :
    Grouped (m :: m :: ms) ↔ Grouped (m :: ms) := by
  rw [grouped_cons, and_iff_left_iff_imp]
  intro h between after hms x hx
  cases between with
  | nil => exact absurd hx List.not_mem_nil
  | cons b between =>
      obtain ⟨rfl, htail⟩ := List.cons.inj hms
      rcases List.mem_cons.1 hx with rfl | hx
      · rfl
      · exact (grouped_cons.1 h).2 between after htail x hx

theorem grouped_cons_of_ne {m x : Option String} {ms : List (Option String)} (h : x ≠ m) :
    Grouped (m :: x :: ms) ↔ m ∉ x :: ms ∧ Grouped (x :: ms) := by
  rw [grouped_cons, and_comm]
  refine and_congr_left fun _ => ⟨fun hhead hmem => ?_, fun hmem between after hms => ?_⟩
  · -- The first of the names in between is `x`.
    obtain ⟨between, after, hms⟩ := List.append_of_mem hmem
    cases between with
    | nil => exact h (List.cons.inj hms).1
    | cons b between =>
        obtain ⟨rfl, -⟩ := List.cons.inj hms
        exact h (hhead _ after hms x List.mem_cons_self)
  · exact absurd (hms ▸ List.mem_append_right _ List.mem_cons_self) hmem

theorem mem_cons_changes {m x : Option String} {ms : List (Option String)} :
    x ∈ m :: changes m ms ↔ x ∈ m :: ms := by
  induction ms generalizing m with
  | nil => rfl
  | cons y ms ih =>
      rw [changes]
      split
      · rename_i hy
        subst hy
        rw [ih]
        simp
      · rw [List.mem_cons, ih, ← List.mem_cons]

theorem nodup_cons_changes {m : Option String} {ms : List (Option String)} :
    (m :: changes m ms).Nodup ↔ Grouped (m :: ms) := by
  induction ms generalizing m with
  | nil => simp [changes, grouped_cons, grouped_nil]
  | cons x ms ih =>
      rw [changes]
      split
      · rename_i hx
        subst hx
        rw [ih, grouped_cons_self]
      · rename_i hx
        rw [List.nodup_cons, ih, mem_cons_changes, grouped_cons_of_ne hx]

/-- No name comes back, once repetitions are left out, if each occurs in one
stretch; the names that repeat what came before do not count. -/
theorem nodup_changes (last : Option String) (ms : List (Option String)) :
    (changes last ms).Nodup ↔ Grouped (ms.dropWhile (· = last)) := by
  induction ms with
  | nil => simp [changes, grouped_nil]
  | cons m ms ih =>
      rw [changes, List.dropWhile_cons]
      by_cases hm : m = last
      · rw [if_pos hm, if_pos (decide_eq_true hm), ih]
      · rw [if_neg hm, if_neg (by simpa using hm), nodup_cons_changes]

/-- **Methods reported once.** No two reports on chains name the same method,
exactly if the chains of each method are visited in one stretch, not counting
those visited before the first chain in a method. -/
theorem Walk.reported_methods_nodup_iff (path : String) (nested : Bool) (tree : Node) :
    ∃ w, run path nested tree = .ok w ∧
      (((w.issues.filter (·.rule = "law_of_demeter")).map (·.methodName)).Nodup ↔
        Grouped (((chainVisits path nested tree).map Visit.method?).dropWhile (· = none))) := by
  obtain ⟨w, hrun, hmethods⟩ := reported_methods path nested tree
  refine ⟨w, hrun, ?_⟩
  show (Issue.chainMethods w.issues).Nodup ↔ _
  rw [hmethods, nodup_changes]

/-- Two methods with a chain each, and another one with the name of the first. -/
def Node.sameNameAgain : Node :=
  .mk { kind := .program }
    [.node (.mk { kind := .methodDefinition, name := "m" } [.node .chainOfThree]),
     .node (.mk { kind := .methodDefinition, name := "n" } [.node .chainOfThree]),
     .node (.mk { kind := .methodDefinition, name := "m" } [.node .chainOfThree])]

/-- In either mode, the name of the first method is reported again. -/
theorem Walk.method_reported_twice :
    (∃ w, run "sample.rb" true .sameNameAgain = .ok w ∧
      ¬ ((w.issues.filter (·.rule = "law_of_demeter")).map (·.methodName)).Nodup) ∧
    (∃ w, run "sample.rb" false .sameNameAgain = .ok w ∧
      ¬ ((w.issues.filter (·.rule = "law_of_demeter")).map (·.methodName)).Nodup) := by
  constructor
  · obtain ⟨w, hrun, hmethods⟩ := reported_methods "sample.rb" true .sameNameAgain
    refine ⟨w, hrun, ?_⟩
    show ¬ (Issue.chainMethods w.issues).Nodup
    rw [hmethods, map_method_chainVisits]
    decide
  · obtain ⟨w, hrun, hmethods⟩ := reported_methods "sample.rb" false .sameNameAgain
    refine ⟨w, hrun, ?_⟩
    show ¬ (Issue.chainMethods w.issues).Nodup
    rw [hmethods, map_method_chainVisits]
    decide

end RubySmells
