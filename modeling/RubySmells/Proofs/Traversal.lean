import RubySmells.Proofs.Frames

/-!
# The walk over a tree

A walk with a list of tasks (`Walk.loop`) and the walk by recursion
(`Walk.recurse`) are one. `Walk.visits` records what the loop does: which
nodes it visits, the context in which the rule for each of them runs, and what
the rule finds.

* **two walks** — a visit from the list of tasks is the recursive walk over
  the tree, followed by the other tasks (`Walk.loop_visit`);
* **record** — findings, output and trace are read off the visits
  (`Walk.loop_adds`);
* **stops** — a walk never fails: it visits every place of the tree in
  pre-order, there finds what the rule finds in the frame of that stop, and
  ends in the frame it is to leave behind (`Walk.run_stops`).
-/

namespace RubySmells

/-! ## Visits -/

/-- What happens when a walk visits a node. -/
structure Visit where
  node : Node
  /-- The context in which the rule for the node runs. -/
  context : Context
  /-- What the rule finds. -/
  found : Option Issue

namespace Visit

/-- The visit of a node from a context. -/
def of (node : Node) (ctx : Context) : Visit where
  node := node
  context := (Context.enter node ctx).2
  found := (Walk.inspect node ctx).1.toOption.join

/-- The innermost frame when the rule for the node runs. -/
def frame? (v : Visit) : Option Frame :=
  v.context.frames.head?

/-- How a visit is traced: a line for the visit, and one for what is found. -/
def lines (v : Visit) : List String :=
  Walk.visitLine v.node :: (v.found.map Walk.issueLine).toList

end Visit

namespace Walk

/-- The visits that the tasks of a walk lead to, in order. -/
def visitsFrom (path : String) : List Task → Walk → List Visit
  | [], _ => []
  | .visit node :: rest, w =>
    .of node w.context ::
      match visit path node w with
      | .ok w => visitsFrom path (node.nodes.map .visit ++ .leave node :: rest) w
      | .error _ => []
  | .leave node :: rest, w =>
    match leave node w with
    | .ok w => visitsFrom path rest w
    | .error _ => []
  termination_by tasks => work tasks
  decreasing_by
    · exact work_visit node rest
    · exact work_leave node rest

/-- The visits of a run. -/
def visits (path : String) (nested : Bool) (tree : Node) : List Visit :=
  visitsFrom path [.visit tree] (start nested)

/-! ## The two walks -/

theorem recurseAll_eq (path : String) (cs : List Child) (w : Walk) :
    recurseAll path cs w =
      (cs.filterMap Child.node?).foldlM (fun w c => recurse path c w) w := by
  induction cs generalizing w with
  | nil => rfl
  | cons c cs ih =>
      cases c with
      | node n =>
          show (recurse path n w >>= fun w => recurseAll path cs w) = _
          simp only [List.filterMap_cons, Child.node?, List.foldlM_cons, ih]
      | text s => exact ih w
      | absent => exact ih w

/-- The recursive walk: the node, then its child nodes from left to right, then
the way back. -/
theorem recurse_eq (path : String) (n : Node) (w : Walk) :
    recurse path n w = (do
      let w ← visit path n w
      let w ← n.nodes.foldlM (fun w c => recurse path c w) w
      leave n w) := by
  cases n with
  | mk h cs => simp only [recurse, recurseAll_eq, Node.nodes, Node.children]

theorem loop_visit_eq (path : String) (n : Node) (rest : List Task) (w : Walk) :
    loop path (.visit n :: rest) w =
      (visit path n w >>= loop path (n.nodes.map .visit ++ .leave n :: rest)) := by
  rw [loop]
  cases visit path n w <;> rfl

theorem loop_leave_eq (path : String) (n : Node) (rest : List Task) (w : Walk) :
    loop path (.leave n :: rest) w = (leave n w >>= loop path rest) := by
  rw [loop]
  cases leave n w <;> rfl

theorem loop_map_visit {path : String} {ns : List Node}
    (hns : ∀ c ∈ ns, ∀ rest w,
      loop path (.visit c :: rest) w = (recurse path c w >>= loop path rest))
    (rest : List Task) (w : Walk) :
    loop path (ns.map .visit ++ rest) w =
      (ns.foldlM (fun w c => recurse path c w) w >>= loop path rest) := by
  induction ns generalizing w with
  | nil => rfl
  | cons n ns ih =>
      have ih := fun w => ih (fun c hc => hns c (List.mem_cons_of_mem _ hc)) w
      rw [List.map_cons, List.cons_append, hns n List.mem_cons_self, List.foldlM_cons,
        bind_assoc]
      exact bind_congr ih

/-- A visit from the list of tasks is the recursive walk over the tree, followed
by the other tasks. -/
theorem loop_visit (path : String) (n : Node) (rest : List Task) (w : Walk) :
    loop path (.visit n :: rest) w = (recurse path n w >>= loop path rest) := by
  induction n using Node.induction generalizing rest w with
  | step n ih =>
      -- The other tasks are arbitrary: the child nodes are walked over with the
      -- way back from `n` in front of them.
      rw [loop_visit_eq, recurse_eq]
      simp only [bind_assoc]
      refine bind_congr fun w => ?_
      rw [loop_map_visit ih]
      refine bind_congr fun w => ?_
      exact loop_leave_eq path n rest w

/-! ## What a walk adds to its record -/

/-- From one state of a walk to a later one, what was found, printed and traced
is that of the visits in between. -/
structure Adds (path : String) (w : Walk) (vs : List Visit) (w' : Walk) : Prop where
  issues : w'.issues = w.issues ++ vs.filterMap (·.found)
  output : w'.output =
    w.output ++ String.join ((vs.filterMap (·.found)).map (Issue.print path))
  trace : w'.trace = w.trace ++ vs.flatMap Visit.lines

theorem Adds.refl (path : String) (w : Walk) : Adds path w [] w := by
  constructor <;> simp

theorem Adds.append {path : String} {w₁ w₂ w₃ : Walk} {vs₁ vs₂ : List Visit}
    (h₁ : Adds path w₁ vs₁ w₂) (h₂ : Adds path w₂ vs₂ w₃) : Adds path w₁ (vs₁ ++ vs₂) w₃ where
  issues := by rw [h₂.issues, h₁.issues, List.filterMap_append, List.append_assoc]
  output := by
    rw [h₂.output, h₁.output, List.filterMap_append, List.map_append, String.join_append,
      String.append_assoc]
  trace := by rw [h₂.trace, h₁.trace, List.flatMap_append, List.append_assoc]

theorem visit_adds {path : String} {n : Node} {w w' : Walk} (h : visit path n w = .ok w') :
    Adds path w [.of n w.context] w' := by
  unfold visit at h
  -- The line for the visit is traced before the rule runs; the context is not
  -- touched by that.
  have hctx : (w.log (visitLine n)).context = w.context := rfl
  simp only [hctx] at h
  have hfound : (Visit.of n w.context).found = (inspect n w.context).1.toOption.join := rfl
  have hnode : (Visit.of n w.context).node = n := rfl
  rcases hi : inspect n w.context with ⟨outcome, ctx⟩
  rw [hi] at h hfound
  cases outcome with
  | error fault => simp at h
  | ok found =>
      have hfound : (Visit.of n w.context).found = found := hfound
      cases found with
      | none =>
          obtain rfl := Except.ok.inj h
          constructor <;> simp [log, Visit.lines, hfound, hnode]
      | some issue =>
          obtain rfl := Except.ok.inj h
          constructor <;> simp [log, report, Visit.lines, hfound, hnode]

theorem leave_adds {path : String} {n : Node} {w w' : Walk} (h : leave n w = .ok w') :
    Adds path w [] w' := by
  unfold leave at h
  split at h
  · obtain rfl := Except.ok.inj h
    constructor <;> simp
  · simp at h

/-- Findings, output and trace of a walk are read off its visits. -/
theorem loop_adds {path : String} {tasks : List Task} {w w' : Walk}
    (h : loop path tasks w = .ok w') : Adds path w (visitsFrom path tasks w) w' := by
  fun_induction loop path tasks w with
  | case1 w =>
      obtain rfl := Except.ok.inj h
      rw [visitsFrom]
      exact .refl path w
  | case2 w n rest w₁ hvisit ih =>
      rw [visitsFrom, hvisit]
      exact (visit_adds hvisit).append (ih h)
  | case3 w n rest fault hvisit => simp at h
  | case4 w n rest w₁ hleave ih =>
      rw [visitsFrom, hleave]
      exact (leave_adds hleave).append (ih h)
  | case5 w n rest fault hleave => simp at h

end Walk

/-! ## What is found at the stops -/

namespace Stop

/-- The method remembered after several stops. -/
def lastOver (last : Option String) (ss : List Stop) : Option String :=
  ss.foldl (fun last s => s.place.node.lastAfter last s.frame) last

/-- What is found at several stops, one after the other. -/
def findings : Option String → List Stop → List (Option Issue)
  | _, [] => []
  | last, s :: ss =>
    s.place.node.finding last s.frame :: findings (s.place.node.lastAfter last s.frame) ss

theorem lastOver_append (last : Option String) (ss ts : List Stop) :
    lastOver last (ss ++ ts) = lastOver (lastOver last ss) ts :=
  List.foldl_append

theorem lastOver_under (last : Option String) (i : Nat) (ss : List Stop) :
    lastOver last (ss.map (.under i)) = lastOver last ss :=
  List.foldl_map

theorem findings_append (last : Option String) (ss ts : List Stop) :
    findings last (ss ++ ts) = findings last ss ++ findings (lastOver last ss) ts := by
  induction ss generalizing last with
  | nil => rfl
  | cons s ss ih => exact congrArg (_ :: ·) (ih _)

theorem findings_under (last : Option String) (i : Nat) (ss : List Stop) :
    findings last (ss.map (.under i)) = findings last ss := by
  induction ss generalizing last with
  | nil => rfl
  | cons s ss ih => exact congrArg (_ :: ·) (ih _)

/-- What is found at a stop depends on the stops before it only through the
method remembered. -/
theorem getElem?_findings (last : Option String) (ss : List Stop) (k : Nat) :
    (findings last ss)[k]? =
      ss[k]?.map fun s => s.place.node.finding (lastOver last (ss.take k)) s.frame := by
  induction ss generalizing last k with
  | nil => rfl
  | cons s ss ih =>
      cases k with
      | zero => rfl
      | succ k => exact ih _ k

end Stop

/-- Visits agree with stops: the same nodes, the same innermost frames, and the
findings of the stops. -/
structure Visit.Agree (last : Option String) (ss : List Stop) (vs : List Visit) : Prop where
  node : vs.map (·.node) = ss.map (·.place.node)
  frame : vs.map (·.frame?) = ss.map fun s => some s.frame
  found : vs.map (·.found) = Stop.findings last ss

namespace Visit.Agree

theorem nil (last : Option String) : Visit.Agree last [] [] := ⟨rfl, rfl, rfl⟩

theorem append {last : Option String} {ss ts : List Stop} {vs us : List Visit}
    (h₁ : Visit.Agree last ss vs) (h₂ : Visit.Agree (Stop.lastOver last ss) ts us) :
    Visit.Agree last (ss ++ ts) (vs ++ us) where
  node := by rw [List.map_append, List.map_append, h₁.node, h₂.node]
  frame := by rw [List.map_append, List.map_append, h₁.frame, h₂.frame]
  found := by rw [List.map_append, h₁.found, h₂.found, Stop.findings_append]

theorem under {last : Option String} {ss : List Stop} {vs : List Visit}
    (h : Visit.Agree last ss vs) (i : Nat) : Visit.Agree last (ss.map (.under i)) vs where
  node := by rw [h.node, List.map_map]; rfl
  frame := by rw [h.frame, List.map_map]; rfl
  found := by rw [h.found, Stop.findings_under]

end Visit.Agree

namespace Walk

/-- A visit from a context with a frame is as the stop there says. -/
theorem visit_stop (path : String) {nested : Bool} {last : Option String} {f : Frame}
    {below : List Frame} {w : Walk} (hw : w.context = ⟨nested, last, f :: below⟩) (n : Node) :
    (∃ w', visit path n w = .ok w' ∧
      w'.context = ⟨nested, n.lastAfter last (f.apply n),
        f.apply n :: n.underneath nested f below⟩) ∧
    Visit.Agree last [⟨⟨[], n⟩, f.apply n⟩] [.of n w.context] := by
  have hlog : (w.log (visitLine n)).context = ⟨nested, last, f :: below⟩ := hw
  constructor
  · unfold visit
    simp only [hlog, inspect_frame]
    cases n.finding last (f.apply n) with
    | none => exact ⟨_, rfl, rfl⟩
    | some issue => exact ⟨_, rfl, rfl⟩
  · rw [hw]
    refine ⟨rfl, ?_, ?_⟩
    · simp [Visit.frame?, Visit.of, Context.enter_frame]
    · simp [Visit.of, inspect_frame, Stop.findings, Except.toOption]

/-- The way back from a node, on a context with a frame. -/
theorem leave_stop {nested : Bool} {last : Option String} {f g : Frame} {below : List Frame}
    {n : Node} {w : Walk} (hw : w.context = ⟨nested, last, g :: n.underneath nested f below⟩) :
    ∃ w', leave n w = .ok w' ∧
      w'.context = ⟨nested, last, (if n.opens nested then f else g) :: below⟩ := by
  unfold leave
  rw [hw, Context.leave_frame]
  exact ⟨_, rfl, rfl⟩

/-- From a context with a frame, tasks lead to the visits of some stops and on
to the tasks after them; what they make of the innermost frame is given, and
the frames below it are unchanged. -/
def Performs (path : String) (nested : Bool) (tasks : List Task) (f : Frame)
    (ss : List Stop) (g : Frame) : Prop :=
  ∀ rest w last below, w.context = ⟨nested, last, f :: below⟩ →
    ∃ w' vs, loop path (tasks ++ rest) w = loop path rest w' ∧
      visitsFrom path (tasks ++ rest) w = vs ++ visitsFrom path rest w' ∧
      w'.context = ⟨nested, Stop.lastOver last ss, g :: below⟩ ∧
      Visit.Agree last ss vs

namespace Performs

variable {path : String} {nested : Bool} {f g h : Frame} {ss ts : List Stop}

theorem nil (path : String) (nested : Bool) (f : Frame) : Performs path nested [] f [] f := by
  intro rest w last below hw
  exact ⟨w, [], rfl, rfl, hw, .nil last⟩

theorem append {tasks₁ tasks₂ : List Task} (h₁ : Performs path nested tasks₁ f ss g)
    (h₂ : Performs path nested tasks₂ g ts h) :
    Performs path nested (tasks₁ ++ tasks₂) f (ss ++ ts) h := by
  intro rest w last below hw
  obtain ⟨w₁, vs, hloop₁, hvisits₁, hw₁, hvs⟩ := h₁ (tasks₂ ++ rest) w last below hw
  obtain ⟨w₂, us, hloop₂, hvisits₂, hw₂, hus⟩ := h₂ rest w₁ _ below hw₁
  refine ⟨w₂, vs ++ us, ?_, ?_, ?_, hvs.append hus⟩
  · rw [List.append_assoc, hloop₁, hloop₂]
  · rw [List.append_assoc, hvisits₁, hvisits₂, List.append_assoc]
  · rw [hw₂, Stop.lastOver_append]

theorem under {tasks : List Task} (h₁ : Performs path nested tasks f ss g) (i : Nat) :
    Performs path nested tasks f (ss.map (.under i)) g := by
  intro rest w last below hw
  obtain ⟨w', vs, hloop, hvisits, hw', hvs⟩ := h₁ rest w last below hw
  exact ⟨w', vs, hloop, hvisits, by rw [hw', Stop.lastOver_under], hvs.under i⟩

theorem map_visit {ns : List Node}
    (hns : ∀ c ∈ ns, ∀ f, Performs path nested [.visit c] f (c.stops nested f)
      (Frame.across nested c f)) (i : Nat) (f : Frame) :
    Performs path nested (ns.map .visit) f (Node.stopsFrom nested i ns f)
      (Frame.acrossAll nested ns f) := by
  induction ns generalizing i f with
  | nil =>
      rw [Node.stopsFrom, Frame.acrossAll]
      exact .nil path nested f
  | cons n ns ih =>
      rw [Node.stopsFrom, Frame.acrossAll]
      have hfirst := (hns n List.mem_cons_self f).under i
      exact hfirst.append (ih (fun c hc => hns c (List.mem_cons_of_mem _ hc)) (i + 1) _)

/-- The visit of a node makes the stops of its tree. -/
theorem visit (path : String) (nested : Bool) (n : Node) (f : Frame) :
    Performs path nested [.visit n] f (n.stops nested f) (Frame.across nested n f) := by
  induction n using Node.induction generalizing f with
  | step n ih =>
      intro rest w last below hw
      obtain ⟨⟨w₁, hvisit, hw₁⟩, hv⟩ := visit_stop path hw n
      -- The child nodes are walked over with the way back still to do, and on
      -- top of the frames that lie under the one the node works on.
      obtain ⟨w₂, vs, hloop, hvisits, hw₂, hvs⟩ :=
        map_visit ih 0 (f.apply n) (.leave n :: rest) w₁ _ _ hw₁
      obtain ⟨w₃, hleave, hw₃⟩ := leave_stop hw₂
      refine ⟨w₃, .of n w.context :: vs, ?_, ?_, ?_, ?_⟩
      · show loop path (.visit n :: rest) w = _
        rw [loop, hvisit]
        show loop path (n.nodes.map .visit ++ .leave n :: rest) w₁ = _
        rw [hloop, loop, hleave]
      · show visitsFrom path (.visit n :: rest) w = _
        rw [visitsFrom, hvisit]
        show _ :: visitsFrom path (n.nodes.map .visit ++ .leave n :: rest) w₁ = _
        rw [hvisits, visitsFrom, hleave]
        rfl
      · rw [hw₃, Node.stops, Frame.across]
        rfl
      · rw [Node.stops]
        exact hv.append hvs

end Performs

/-- **A run.** It does not fail, visits agree with the stops of the tree, and
one frame is left. -/
theorem run_stops (path : String) (nested : Bool) (tree : Node) :
    ∃ w, run path nested tree = .ok w ∧
      Adds path (start nested) (visits path nested tree) w ∧
      w.context = ⟨nested, Stop.lastOver none (tree.stops nested {}),
        [Frame.across nested tree {}]⟩ ∧
      Visit.Agree none (tree.stops nested {}) (visits path nested tree) := by
  obtain ⟨w, vs, hloop, hvisits, hw, hvs⟩ :=
    Performs.visit path nested tree {} [] (start nested) none [] rfl
  have hrun : run path nested tree = .ok w := by
    show loop path ([.visit tree] ++ []) (start nested) = _
    rw [hloop, loop]
  have hvs' : visits path nested tree = vs := by
    show visitsFrom path ([.visit tree] ++ []) (start nested) = _
    rw [hvisits, visitsFrom, List.append_nil]
  refine ⟨w, hrun, loop_adds hrun, hw, ?_⟩
  rw [hvs']
  exact hvs

/-- The visit of a place: the frame it is made in, and what is found there. -/
theorem exists_visit (path : String) (nested : Bool) {tree : Node} {k : Nat} {p : Located}
    (hp : tree.places[k]? = some p) :
    ∃ v, (visits path nested tree)[k]? = some v ∧ v.node = p.node ∧
      v.frame? = some (tree.frameAt nested p.address) ∧
      v.found = p.node.finding (Stop.lastOver none ((tree.stops nested {}).take k))
        (tree.frameAt nested p.address) := by
  obtain ⟨_, _, _, _, hagree⟩ := run_stops path nested tree
  have hs : (tree.stops nested {})[k]? = some ⟨p, tree.frameAt nested p.address⟩ := by
    rw [Node.stops_eq, List.getElem?_map, hp]
    rfl
  -- The lists agree entry by entry, so the `k`th visit is that of the `k`th stop.
  have hnode := congrArg (·[k]?) hagree.node
  have hframe := congrArg (·[k]?) hagree.frame
  have hfound := congrArg (·[k]?) hagree.found
  simp only [Stop.getElem?_findings, List.getElem?_map, hs, Option.map_some] at hnode hframe hfound
  cases hv : (visits path nested tree)[k]? with
  | none =>
      rw [hv] at hnode
      exact absurd hnode (by simp)
  | some v =>
      rw [hv] at hnode hframe hfound
      exact ⟨v, rfl, Option.some.inj hnode, Option.some.inj hframe, Option.some.inj hfound⟩

/-- Every visit of a run is that of a place. -/
theorem exists_place_of_mem_visits {path : String} {nested : Bool} {tree : Node} {v : Visit}
    (hv : v ∈ visits path nested tree) :
    ∃ (k : Nat) (p : Located), (visits path nested tree)[k]? = some v ∧
      tree.places[k]? = some p := by
  obtain ⟨_, _, _, _, hagree⟩ := run_stops path nested tree
  obtain ⟨k, hk⟩ := List.getElem?_of_mem hv
  have hlength := congrArg List.length hagree.node
  rw [List.length_map, List.length_map, Node.stops_eq, List.length_map] at hlength
  have hlt := (List.getElem?_eq_some_iff.1 hk).1
  exact ⟨k, _, hk, List.getElem?_eq_getElem (hlength ▸ hlt)⟩

theorem join_map_print (path : String) (issues : List Issue) :
    String.join (issues.map (Issue.print path)) =
      String.join ((issues.flatMap (Issue.lines path)).map (· ++ "\n")) := by
  induction issues with
  | nil => rfl
  | cons issue issues ih =>
      rw [List.map_cons, String.join_cons, List.flatMap_cons, List.map_append,
        String.join_append, ih, Issue.print]

/-- **The two walks agree.** With a list of tasks or by recursion, a walk comes
to the same end, and never fails on the way. It visits the nodes of the tree in
pre-order; it prints the two lines of each finding, in order; and its trace
has a line for each visit, followed by one for what was found there. -/
theorem run_eq_recurse (path : String) (nested : Bool) (tree : Node) :
    ∃ w, run path nested tree = .ok w ∧
      recurse path tree (start nested) = .ok w ∧
      (visits path nested tree).map (·.node) = tree.places.map (·.node) ∧
      w.issues = (visits path nested tree).filterMap (·.found) ∧
      w.output = String.join ((w.issues.flatMap (Issue.lines path)).map (· ++ "\n")) ∧
      w.trace = (visits path nested tree).flatMap Visit.lines := by
  obtain ⟨w, hrun, hadds, -, hagree⟩ := run_stops path nested tree
  have hrecurse : recurse path tree (start nested) = .ok w := by
    have h := loop_visit path tree [] (start nested)
    rw [show loop path [.visit tree] (start nested) = .ok w from hrun] at h
    cases hr : recurse path tree (start nested) with
    | error fault =>
        rw [hr] at h
        exact absurd h (by simp [bind, Except.bind])
    | ok w' =>
        rw [hr] at h
        have h : Except.ok w = loop path [] w' := h
        rw [h, loop]
  refine ⟨w, hrun, hrecurse, ?_, ?_, ?_, ?_⟩
  · rw [hagree.node, ← Node.map_place_stops nested tree {}, List.map_map]
    rfl
  · rw [hadds.issues]
    rfl
  · rw [← join_map_print, hadds.issues, hadds.output]
    exact String.empty_append
  · rw [hadds.trace]
    rfl

end Walk

end RubySmells
