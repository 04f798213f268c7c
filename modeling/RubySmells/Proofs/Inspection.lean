import RubySmells.Walk

/-!
# Entering, inspecting, leaving

What the actions of a walk do to a context that has a frame. None of them
fails there, and none of them touches the frames further down:

* entering a node applies it to the innermost frame, or to a copy of it
  (`Context.enter_frame`);
* the rule for a node leaves the frames alone (`Rule.check_frame`) and, being
  a function of the node, the innermost frame and the method remembered
  before, is described by `Node.finding` and `Node.lastAfter`;
* leaving a node drops the copy (`Context.leave_frame`).
-/

namespace RubySmells

/-- Whether a node gets a frame of its own. -/
def Node.opens (nested : Bool) (n : Node) : Bool :=
  nested && Context.framed n.kind

theorem Node.opens_eq_true {nested : Bool} {n : Node} :
    n.opens nested = true ↔ nested = true ∧ Context.framed n.kind = true :=
  Bool.and_eq_true_iff

/-- What lies under the innermost frame once a node has been entered. -/
def Node.underneath (nested : Bool) (n : Node) (f : Frame) (below : List Frame) :
    List Frame :=
  if n.opens nested then f :: below else below

/-- Whether a node starts a chain of calls. -/
def Node.isChain (n : Node) : Bool :=
  Rule.startsChain Rule.chainDepth n

theorem Node.kind_of_isChain {n : Node} (h : n.isChain = true) : n.kind = .call := by
  have h : (n.isCall && _) = true := h
  rw [Bool.and_eq_true] at h
  exact of_decide_eq_true h.1

/-! ## What a rule finds -/

/-- What a rule finds at a node, from the method in which a chain was last
reported and the innermost frame. -/
def Rule.finding (rule : Rule) (last : Option String) (n : Node) (f : Frame) :
    Option Issue :=
  if rule.concerns n && rule.fires n { lastDemeterMethod := last } f then
    some (rule.issue n f)
  else none

/-- What the rule for a node finds there. -/
def Node.finding (last : Option String) (n : Node) (f : Frame) : Option Issue :=
  (Rule.ofKind? n.kind).bind fun rule => rule.finding last n f

theorem Rule.ofLabel?_label (rule : Rule) : Rule.ofLabel? rule.label = some rule := by
  cases rule <;> decide

theorem Rule.label_injective {rule rule' : Rule} (h : rule.label = rule'.label) :
    rule = rule' := by
  have hlabel := Rule.ofLabel?_label rule
  rw [h, Rule.ofLabel?_label] at hlabel
  exact (Option.some.inj hlabel).symm

/-- Which rule reports at a node, and when. -/
theorem Node.finding_label_iff {last : Option String} {n : Node} {f : Frame} {rule : Rule} :
    (∃ issue, n.finding last f = some issue ∧ issue.rule = rule.label) ↔
      Rule.ofKind? n.kind = some rule ∧ rule.concerns n = true ∧
        rule.fires n { lastDemeterMethod := last } f = true := by
  unfold Node.finding
  cases hr : Rule.ofKind? n.kind with
  | none => simp
  | some rule' =>
      rw [Option.bind_some, Rule.finding]
      constructor
      · rintro ⟨issue, hissue, hlabel⟩
        split at hissue
        · rename_i hfires
          obtain rfl := Option.some.inj hissue
          obtain rfl : rule' = rule := Rule.label_injective hlabel
          exact ⟨rfl, by simpa using hfires⟩
        · exact absurd hissue (by simp)
      · rintro ⟨hrule, hconcerns, hfires⟩
        obtain rfl : rule' = rule := Option.some.inj hrule
        exact ⟨rule'.issue n f, by simp [hconcerns, hfires], rfl⟩

/-- The method to remember after a node. A chain is reported unless its method
is the one remembered, so its method is remembered either way. -/
def Node.lastAfter (last : Option String) (n : Node) (f : Frame) : Option String :=
  if n.isChain then f.methodName else last

/-- Of the context, a rule looks at the method remembered only. -/
theorem Rule.fires_eq (rule : Rule) (n : Node) (ctx : Context) (f : Frame) :
    rule.fires n ctx f =
      rule.fires n { lastDemeterMethod := ctx.lastDemeterMethod } f := by
  cases rule <;> rfl

theorem Rule.decideIn_frame (rule : Rule) (nested : Bool) (last : Option String) (n : Node)
    (f : Frame) (below : List Frame) :
    rule.decideIn n ⟨nested, last, f :: below⟩ =
      if rule.fires n { lastDemeterMethod := last } f then
        (.ok (some (rule.issue n f)), (rule.record f ⟨nested, last, f :: below⟩).2)
      else (.ok none, ⟨nested, last, f :: below⟩) := by
  show (if rule.fires n ⟨nested, last, f :: below⟩ f then
      (do rule.record f; Action.done (some (rule.issue n f)) : Action (Option Issue))
    else Action.done none) ⟨nested, last, f :: below⟩ = _
  rw [rule.fires_eq]
  cases rule.fires n { lastDemeterMethod := last } f with
  | false => rfl
  | true => cases rule <;> rfl

/-- A rule other than the one on chains changes nothing. -/
theorem Rule.check_of_ne {rule : Rule} (h : rule ≠ .lawOfDemeter) (nested : Bool)
    (last : Option String) (n : Node) (f : Frame) (below : List Frame) :
    rule.check n ⟨nested, last, f :: below⟩ =
      (.ok (rule.finding last n f), ⟨nested, last, f :: below⟩) := by
  have hrecord : rule.record f = Action.done () := by
    cases rule with
    | lawOfDemeter => exact absurd rfl h
    | tooManyArguments => rfl
    | booleanArgument => rfl
    | complexity => rfl
  unfold Rule.check Rule.finding
  cases rule.concerns n with
  | false => rfl
  | true =>
      rw [if_pos rfl, Rule.decideIn_frame, hrecord]
      cases rule.fires n { lastDemeterMethod := last } f <;> rfl

theorem Rule.check_lawOfDemeter (nested : Bool) (last : Option String) (n : Node)
    (f : Frame) (below : List Frame) :
    Rule.lawOfDemeter.check n ⟨nested, last, f :: below⟩ =
      (.ok (Rule.lawOfDemeter.finding last n f),
        ⟨nested, n.lastAfter last f, f :: below⟩) := by
  have hchain : n.isChain = Rule.lawOfDemeter.concerns n := rfl
  unfold Rule.check Rule.finding Node.lastAfter
  rw [hchain]
  cases Rule.lawOfDemeter.concerns n with
  | false => rfl
  | true =>
      rw [if_pos rfl, Rule.decideIn_frame]
      -- Where the chain goes unreported, its method is the one remembered.
      by_cases hm : f.methodName = last
      · simp [Rule.fires, hm]
      · simp [Rule.fires, hm]
        rfl

theorem Node.lastAfter_of_kind_ne {n : Node} (h : n.kind ≠ .call) (last : Option String)
    (f : Frame) : n.lastAfter last f = last := by
  unfold Node.lastAfter
  rw [if_neg fun hc => h (Node.kind_of_isChain hc)]

/-- The rule for a node, on a context with a frame. -/
theorem Rule.check_frame {rule : Rule} {n : Node} (h : Rule.ofKind? n.kind = some rule)
    (nested : Bool) (last : Option String) (f : Frame) (below : List Frame) :
    rule.check n ⟨nested, last, f :: below⟩ =
      (.ok (rule.finding last n f), ⟨nested, n.lastAfter last f, f :: below⟩) := by
  by_cases hr : rule = .lawOfDemeter
  · subst hr
    exact Rule.check_lawOfDemeter nested last n f below
  · have hk : n.kind ≠ .call := by
      intro hk
      rw [hk] at h
      exact hr (Option.some.inj h).symm
    rw [Rule.check_of_ne hr, Node.lastAfter_of_kind_ne hk]

/-! ## Entering and leaving -/

theorem Context.openFrame_frame (nested : Bool) (last : Option String) (n : Node) (f : Frame)
    (below : List Frame) :
    Context.openFrame n ⟨nested, last, f :: below⟩ =
      (.ok (), ⟨nested, last, f :: n.underneath nested f below⟩) := by
  show (if n.opens nested then (do let top ← Context.current; Context.push top)
    else Action.done () : Action Unit) ⟨nested, last, f :: below⟩ = _
  unfold Node.underneath
  cases n.opens nested <;> rfl

/-- Entering a node applies it to the innermost frame, or to a copy of it. -/
theorem Context.enter_frame (nested : Bool) (last : Option String) (n : Node) (f : Frame)
    (below : List Frame) :
    Context.enter n ⟨nested, last, f :: below⟩ =
      (.ok (), ⟨nested, last, f.apply n :: n.underneath nested f below⟩) := by
  show Action.andThen (Context.openFrame n) (fun _ => Context.update n) _ = _
  unfold Action.andThen
  rw [Context.openFrame_frame]
  rfl

/-- Leaving a node drops the frame it got, if it got one. -/
theorem Context.leave_frame (nested : Bool) (last : Option String) (n : Node) (f g : Frame)
    (below : List Frame) :
    Context.leave n ⟨nested, last, g :: n.underneath nested f below⟩ =
      (.ok (), ⟨nested, last, (if n.opens nested then f else g) :: below⟩) := by
  show (if n.opens nested then Context.pop else Action.done ())
    ⟨nested, last, g :: n.underneath nested f below⟩ = _
  unfold Node.underneath
  cases n.opens nested <;> rfl

/-- Going into a node and running the rule for it. -/
theorem Walk.inspect_frame (nested : Bool) (last : Option String) (n : Node) (f : Frame)
    (below : List Frame) :
    Walk.inspect n ⟨nested, last, f :: below⟩ =
      (.ok (n.finding last (f.apply n)),
        ⟨nested, n.lastAfter last (f.apply n),
          f.apply n :: n.underneath nested f below⟩) := by
  show Action.andThen (Context.enter n) _ _ = _
  unfold Action.andThen Node.finding
  rw [Context.enter_frame]
  cases hr : Rule.ofKind? n.kind with
  | none =>
      have hk : n.kind ≠ .call := by
        intro hk
        rw [hk] at hr
        exact absurd hr (by simp [Rule.ofKind?])
      rw [Node.lastAfter_of_kind_ne hk]
      rfl
  | some rule => exact Rule.check_frame hr nested last (f.apply n) _

end RubySmells
