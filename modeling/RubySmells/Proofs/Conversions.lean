import RubySmells.Proofs.Requests
import RubySmells.Proofs.Targets

/-!
# Which places are converted

Not every node of a concrete syntax tree is converted: names and parameter lists
are read, bare words that are assigned to are declared, lists of targets are taken
apart, and the rest is converted. Which of these is done with a node is a matter
of the way to it from the root (`Cst.takenFor`, `Cst.ConvertedAt`).

The machine agrees with this: the nodes that it is asked to convert are those that
stand at the addresses of converted places (`Cst.mem_requests_iff`). One node
taken for what it is hands on to its children (`Cst.mem_convertedAs`), and the way
to a place is followed by induction on the tree.
-/

namespace RubySmells

/-- The fields of a construct that are not simply converted in order. -/
def Role.ownFields : Role → List String
  | .classDefinition => ["name"]
  | .moduleDefinition => ["name"]
  | .methodDefinition => ["object", "name", "parameters"]
  | .block => ["parameters"]
  | .conditional => ["condition"]
  | .call => ["receiver", "method"]
  | .assignment => ["left"]
  | .loop => ["pattern"]
  | _ => []

theorem Role.nodup_ownFields (role : Role) : role.ownFields.Nodup := by
  cases role <;> decide

namespace Cst

/-! ## What a child is taken for -/

/-- One of several parts, if it is more than a keyword or a bracket. -/
def asPart (d : Cst) : Option Standing :=
  if d.named then some .construct else none

/-- One of several targets. A bare word is declared and not converted. -/
def asTarget (d : Cst) : Option Standing :=
  if !d.named then none
  else if d.role = .identifier then none
  else if d.type ∈ targetLists then some .target
  else some .construct

/-- The first node in a field that is not simply converted in order: an expression,
targets, or a name or parameters, which are read. -/
def inOwnField (d : Cst) (field : String) : Option Standing :=
  if field ∈ ["object", "condition", "receiver"] then some .construct
  else if field = "pattern" then
    if d.role = .identifier then none else some .target
  else if field = "left" then
    if d.role = .identifier then none
    else if d.type = "left_assignment_list" then some .target
    else d.asPart
  else none

/-- The field among several that a child is the first to fill. -/
def leading? (c : Cst) (fields : List String) (i : Nat) : Option String :=
  fields.find? fun f => c.children.findIdx? (fills f) = some i

/-- What a child of a node is taken for, if it is more than read or declared. -/
def takenFor (c : Cst) (i : Nat) (d : Cst) : Standing → Option Standing
  | .file => d.asPart
  | .target => d.asTarget
  | .construct =>
    if c.role ∈ [.comment, .parameterList, .identifier] then none
    else if c.role = .exceptionVariable then d.asTarget
    else match c.leading? c.role.ownFields i with
      | some f => d.inOwnField f
      | none => d.asPart

/-- Whether the node at an address is converted. -/
def ConvertedAt : Cst → Standing → Address → Prop
  | _, standing, [] => standing = .construct
  | c, standing, i :: a =>
    ∃ d standing', c.children[i]? = some d ∧ c.takenFor i d standing = some standing' ∧
      d.ConvertedAt standing' a

/-- The nodes that are converted when a node is taken for something. -/
def convertedAs (source : List UInt8) (c : Cst) : Standing → List Cst
  | .file => Step.convertedAll source c.programSteps
  | .construct => c.converted source
  | .target => Step.convertedAll source (targets source c)

/-! ## The first in a field, and the others -/

theorem findIdx?_fills_cons (f : String) (c : Cst) (cs : List Cst) (i : Nat) :
    (c :: cs).findIdx? (fills f) = some (i + 1) ↔
      ¬ c.fills f = true ∧ cs.findIdx? (fills f) = some i := by
  rw [List.findIdx?_cons]
  cases c.fills f <;> simp

/-- The children that are left over are those that are not the first in a field. -/
theorem mem_dropFields {fields : List String} (hnodup : fields.Nodup) {d : Cst}
    {cs : List Cst} :
    d ∈ dropFields fields cs ↔
      ∃ i : Nat, cs[i]? = some d ∧ ∀ f ∈ fields, cs.findIdx? (fills f) ≠ some i := by
  induction cs generalizing fields with
  | nil => simp [dropFields_nil]
  | cons c cs ih =>
      have hhead : ∀ f, (c :: cs).findIdx? (fills f) = some 0 ↔ c.fills f = true := by
        intro f
        rw [List.findIdx?_cons]
        cases c.fills f <;> simp
      rw [dropFields_cons]
      cases hf : fields.find? (fun f => c.fills f) with
      | some f =>
          have hfill : c.fills f = true := by simpa using List.find?_some hf
          simp only [ih (hnodup.erase f)]
          constructor
          · rintro ⟨i, hd, hfirst⟩
            refine ⟨i + 1, by simpa using hd, fun g hg hi => ?_⟩
            obtain ⟨hne, hi⟩ := (findIdx?_fills_cons g c cs i).1 hi
            have hgf : g ≠ f := fun h => hne (h ▸ hfill)
            exact hfirst g ((List.mem_erase_of_ne hgf).2 hg) hi
          · rintro ⟨i, hd, hfirst⟩
            cases i with
            | zero =>
                exact absurd ((hhead f).2 hfill) (hfirst f (List.mem_of_find?_eq_some hf))
            | succ i =>
                refine ⟨i, by simpa using hd, fun g hg hi => ?_⟩
                obtain ⟨hgf, hg⟩ := (hnodup.mem_erase_iff).1 hg
                refine hfirst g hg ((findIdx?_fills_cons g c cs i).2 ⟨fun hfill' => ?_, hi⟩)
                exact hgf (eq_of_fills hfill' hfill)
      | none =>
          have hnone : ∀ f ∈ fields, ¬ c.fills f = true := by simpa using hf
          simp only [List.mem_cons, ih hnodup]
          constructor
          · rintro (rfl | ⟨i, hd, hfirst⟩)
            · exact ⟨0, rfl, fun f hf h0 => hnone f hf ((hhead f).1 h0)⟩
            · refine ⟨i + 1, by simpa using hd, fun f hf hi => ?_⟩
              exact hfirst f hf ((findIdx?_fills_cons f c cs i).1 hi).2
          · rintro ⟨i, hd, hfirst⟩
            cases i with
            | zero => exact .inl (Option.some.inj hd).symm
            | succ i =>
                refine .inr ⟨i, by simpa using hd, fun f hf hi => ?_⟩
                exact hfirst f hf ((findIdx?_fills_cons f c cs i).2 ⟨hnone f hf, hi⟩)

theorem mem_others {fields : List String} (hnodup : fields.Nodup) {c d : Cst} :
    d ∈ c.others fields ↔
      ∃ i : Nat, c.children[i]? = some d ∧ d.named = true ∧
        ∀ f ∈ fields, c.children.findIdx? (fills f) ≠ some i := by
  rw [others, List.mem_filter, mem_dropFields hnodup]
  constructor
  · rintro ⟨⟨i, hd, hfirst⟩, hnamed⟩
    exact ⟨i, hd, hnamed, hfirst⟩
  · rintro ⟨i, hd, hnamed, hfirst⟩
    exact ⟨⟨i, hd, hfirst⟩, hnamed⟩

theorem child?_eq_some_iff {c d : Cst} {field : String} :
    c.child? field = some d ↔
      ∃ i : Nat, c.children[i]? = some d ∧ c.children.findIdx? (fills field) = some i := by
  simp only [child?, List.find?_eq_some_iff_getElem, List.findIdx?_eq_some_iff_getElem,
    List.getElem?_eq_some_iff]
  constructor
  · rintro ⟨hfill, i, hi, rfl, hfirst⟩
    exact ⟨i, ⟨hi, rfl⟩, hi, hfill, fun j hj => by simpa using hfirst j hj⟩
  · rintro ⟨i, ⟨hi, rfl⟩, _, hfill, hfirst⟩
    exact ⟨hfill, i, hi, rfl, fun j hj => by simpa using hfirst j hj⟩

/-! ## What the steps of plans convert -/

section Steps

variable (source : List UInt8) {e : Cst}

theorem convertedAll_of_request {s : Step} (h : s.request? = none) (rest : List Step) :
    Step.convertedAll source (s :: rest) = Step.convertedAll source rest := by
  rw [Step.convertedAll_cons, Step.converted_eq, h]
  rfl

theorem mem_convertedAll_each {cs : List Cst} :
    e ∈ Step.convertedAll source (each cs) ↔ ∃ d ∈ cs, e ∈ d.converted source := by
  induction cs with
  | nil => simp [each, Step.convertedAll_nil]
  | cons c cs ih =>
      show e ∈ Step.convertedAll source (.convert c :: each cs) ↔ _
      rw [Step.convertedAll_cons, Step.converted, List.mem_append, ih]
      simp

theorem mem_convertedAll_slotAt {c : Cst} {field : String} :
    e ∈ Step.convertedAll source (c.slotAt field) ↔
      ∃ d, c.child? field = some d ∧ e ∈ d.converted source := by
  rw [slotAt]
  cases c.child? field with
  | none => simp [convertedAll_of_request source (s := .emit .absent) rfl, Step.convertedAll_nil]
  | some d => simp [Step.convertedAll_cons, Step.converted, Step.convertedAll_nil]

theorem convertedAll_scope (inherits : Bool) (steps : List Step) :
    Step.convertedAll source (.openScope inherits :: steps ++ [.closeScope]) =
      Step.convertedAll source steps := by
  rw [List.cons_append, convertedAll_of_request source rfl, Step.convertedAll_append,
    convertedAll_of_request source rfl, Step.convertedAll_nil, List.append_nil]

theorem convertedAll_addParameters (d : Cst) :
    Step.convertedAll source (d.addParameters source) = [] := by
  rw [addParameters, convertedAll_of_request source rfl, convertedAll_of_request source rfl,
    Step.convertedAll_nil]

theorem convertedAll_assignTarget (d : Cst) :
    Step.convertedAll source (d.assignTarget source) = [] := by
  rw [assignTarget, convertedAll_of_request source rfl, convertedAll_of_request source rfl,
    Step.convertedAll_nil]

theorem mem_convertedAll_targets {c : Cst} :
    e ∈ Step.convertedAll source (targets source c) ↔
      ∃ d ∈ c.children, ∃ standing, d.asTarget = some standing ∧
        e ∈ d.convertedAs source standing := by
  obtain ⟨info, cs⟩ := c
  rw [targets]
  simp only [children]
  induction cs with
  | nil => simp [targetsAll, Step.convertedAll_nil]
  | cons c cs ih =>
      have hc : e ∈ Step.convertedAll source
            (if !c.named then []
              else if c.role = .identifier then assignTarget source c
              else if c.type = "rest_assignment" ∨ c.type = "destructured_left_assignment" ∨
                c.type = "left_assignment_list" then targets source c
              else [.convert c]) ↔
          ∃ standing, c.asTarget = some standing ∧ e ∈ c.convertedAs source standing := by
        unfold asTarget
        split
        · simp [Step.convertedAll_nil]
        · split
          · simp [convertedAll_assignTarget]
          · simp only [targetLists, List.mem_cons, List.not_mem_nil, or_false]
            split
            · simp [convertedAs]
            · simp [convertedAs, Step.convertedAll_cons, Step.convertedAll_nil, Step.converted]
      rw [targetsAll, Step.convertedAll_append, List.mem_append, ih, hc]
      simp

end Steps

/-! ## What a node hands on to its children -/

theorem leading?_eq_some_iff {c : Cst} {fields : List String} {i : Nat} {f : String} :
    c.leading? fields i = some f ↔
      f ∈ fields ∧ c.children.findIdx? (fills f) = some i := by
  constructor
  · intro h
    exact ⟨List.mem_of_find?_eq_some h, by simpa using List.find?_some h⟩
  · rintro ⟨hf, hi⟩
    cases hlead : c.leading? fields i with
    | none =>
        rw [leading?, List.find?_eq_none] at hlead
        exact absurd hi (by simpa using hlead f hf)
    | some g =>
        have hg : c.children.findIdx? (fills g) = some i := by simpa using List.find?_some hlead
        by_cases hgf : g = f
        · rw [hgf]
        · exact absurd hi (findIdx?_fills_ne hgf hg)

theorem leading?_eq_none_iff {c : Cst} {fields : List String} {i : Nat} :
    c.leading? fields i = none ↔
      ∀ f ∈ fields, c.children.findIdx? (fills f) ≠ some i := by
  simp [leading?]

section Taken

variable {c d : Cst} {i : Nat} {standing : Standing}

theorem eq_construct_of_asPart (h : d.asPart = some standing) : standing = .construct := by
  simp only [asPart, Option.ite_none_right_eq_some] at h
  exact (Option.some.inj h.2).symm

theorem named_of_asPart (h : d.asPart = some standing) : d.named = true := by
  simp only [asPart, Option.ite_none_right_eq_some] at h
  exact h.1

theorem asTarget_eq_some (h : d.asTarget = some standing) :
    d.role ≠ .identifier ∧
      (standing = .target ∧ d.type ∈ targetLists ∨
        standing = .construct ∧ d.type ∉ targetLists) := by
  simp only [asTarget, Option.ite_none_left_eq_some] at h
  obtain ⟨-, hword, h⟩ := h
  refine ⟨hword, ?_⟩
  split at h
  · exact .inl ⟨(Option.some.inj h).symm, ‹_›⟩
  · exact .inr ⟨(Option.some.inj h).symm, ‹_›⟩

theorem inOwnField_pattern (h : d.inOwnField "pattern" = some standing) :
    d.role ≠ .identifier ∧ standing = .target := by
  simp only [inOwnField, List.mem_cons, String.reduceEq, List.not_mem_nil, or_self, if_false,
    if_true, Option.ite_none_left_eq_some] at h
  exact ⟨h.1, (Option.some.inj h.2).symm⟩

theorem inOwnField_left (h : d.inOwnField "left" = some standing) :
    d.role ≠ .identifier ∧
      (d.type = "left_assignment_list" ∧ standing = .target ∨
        d.type ≠ "left_assignment_list" ∧ standing = .construct) := by
  simp only [inOwnField, List.mem_cons, String.reduceEq, List.not_mem_nil, or_self, if_false,
    if_true, Option.ite_none_left_eq_some] at h
  refine ⟨h.1, ?_⟩
  by_cases hlist : d.type = "left_assignment_list"
  · rw [if_pos hlist] at h
    exact .inl ⟨hlist, (Option.some.inj h.2).symm⟩
  · rw [if_neg hlist] at h
    exact .inr ⟨hlist, eq_construct_of_asPart h.2⟩

/-- Only targets of assignments and loops are taken apart in a field of their own. -/
theorem eq_construct_of_inOwnField {f : String} (h : d.inOwnField f = some standing)
    (hf : f ∉ ["left", "pattern"]) : standing = .construct := by
  simp only [List.mem_cons, List.not_mem_nil, or_false, not_or] at hf
  rw [inOwnField, if_neg hf.2, if_neg hf.1] at h
  split at h
  · exact (Option.some.inj h).symm
  · exact absurd h (by simp)

variable (htaken : c.takenFor i d .construct = some standing)

include htaken

/-- What is known of the field that a child leads. -/
theorem inOwnField_of_takenFor (hexception : c.role ≠ .exceptionVariable) {f : String}
    (hf : f ∈ c.role.ownFields) (hlead : c.children.findIdx? (fills f) = some i) :
    d.inOwnField f = some standing := by
  simp only [takenFor, Option.ite_none_left_eq_some, if_neg hexception] at htaken
  rw [leading?_eq_some_iff.2 ⟨hf, hlead⟩] at htaken
  exact htaken.2

/-- A child that leads none of those fields is an expression. -/
theorem eq_construct_of_not_leading (hexception : c.role ≠ .exceptionVariable)
    (hlead : ∀ f ∈ c.role.ownFields, c.children.findIdx? (fills f) ≠ some i) :
    standing = .construct := by
  simp only [takenFor, Option.ite_none_left_eq_some, if_neg hexception] at htaken
  rw [leading?_eq_none_iff.2 hlead] at htaken
  exact eq_construct_of_asPart htaken.2

theorem eq_construct_of_takenFor
    (hrole : c.role ∉ [.exceptionVariable, .assignment, .loop]) : standing = .construct := by
  have hexception : c.role ≠ .exceptionVariable := fun hr => hrole (by simp [hr])
  have hfields : ∀ f ∈ c.role.ownFields, f ∉ ["left", "pattern"] := by
    cases hr : c.role <;> simp [hr, Role.ownFields] at hrole ⊢
  by_cases hlead : ∃ f ∈ c.role.ownFields, c.children.findIdx? (fills f) = some i
  · obtain ⟨f, hf, hlead⟩ := hlead
    exact eq_construct_of_inOwnField (inOwnField_of_takenFor htaken hexception hf hlead)
      (hfields f hf)
  · exact eq_construct_of_not_leading htaken hexception fun f hf hi => hlead ⟨f, hf, hi⟩

end Taken

/-- The children of a node, field by field, and those that are left over. -/
theorem exists_child_iff {c : Cst} {fields : List String} (hnodup : fields.Nodup)
    (p : Cst → Standing → Prop) :
    (∃ (i : Nat) (d : Cst) (standing : Standing), c.children[i]? = some d ∧
        (match c.leading? fields i with
          | some f => d.inOwnField f
          | none => d.asPart) = some standing ∧ p d standing) ↔
      (∃ f ∈ fields, ∃ d standing, c.child? f = some d ∧ d.inOwnField f = some standing ∧
        p d standing) ∨ ∃ d ∈ c.others fields, p d .construct := by
  constructor
  · rintro ⟨i, d, standing, hd, htaken, hp⟩
    cases hlead : c.leading? fields i with
    | some f =>
        rw [hlead] at htaken
        obtain ⟨hf, hi⟩ := leading?_eq_some_iff.1 hlead
        exact .inl ⟨f, hf, d, standing, child?_eq_some_iff.2 ⟨i, hd, hi⟩, htaken, hp⟩
    | none =>
        rw [hlead] at htaken
        obtain rfl := eq_construct_of_asPart htaken
        refine .inr ⟨d, (mem_others hnodup).2 ⟨i, hd, named_of_asPart htaken, ?_⟩, hp⟩
        exact leading?_eq_none_iff.1 hlead
  · rintro (⟨f, hf, d, standing, hd, htaken, hp⟩ | ⟨d, hd, hp⟩)
    · obtain ⟨i, hd, hi⟩ := child?_eq_some_iff.1 hd
      refine ⟨i, d, standing, hd, ?_, hp⟩
      rw [leading?_eq_some_iff.2 ⟨hf, hi⟩]
      exact htaken
    · obtain ⟨i, hd, hnamed, hfirst⟩ := (mem_others hnodup).1 hd
      refine ⟨i, d, .construct, hd, ?_, hp⟩
      rw [leading?_eq_none_iff.2 hfirst]
      exact if_pos hnamed

/-- Whether a node is converted by way of a child of another. -/
def HandsOn (source : List UInt8) (c : Cst) (standing : Standing) (e : Cst) : Prop :=
  ∃ (i : Nat) (d : Cst) (standing' : Standing), c.children[i]? = some d ∧
    c.takenFor i d standing = some standing' ∧ e ∈ d.convertedAs source standing'

section Children

variable (source : List UInt8) {c e : Cst}

/-- What a node hands on by a plan that deals with some fields and converts the
others in order. -/
theorem mem_convertedAll_fields (hrole : c.role ∉ [.comment, .parameterList, .identifier])
    (hexception : c.role ≠ .exceptionVariable) {steps : List Step}
    (hsteps : e ∈ Step.convertedAll source steps ↔
      (∃ f ∈ c.role.ownFields, ∃ d standing, c.child? f = some d ∧
        d.inOwnField f = some standing ∧ e ∈ d.convertedAs source standing) ∨
      ∃ d ∈ c.others c.role.ownFields, e ∈ d.converted source) :
    e ∈ Step.convertedAll source steps ↔ c.HandsOn source .construct e := by
  have hparts := exists_child_iff (c := c) c.role.nodup_ownFields
    fun d standing => e ∈ d.convertedAs source standing
  rw [hsteps]
  simp only [HandsOn, takenFor, if_neg hrole, if_neg hexception]
  exact hparts.symm

/-- What a node hands on that converts all of its children in order. -/
theorem mem_convertedAll_namedChildren {standing : Standing}
    (hpart : ∀ (i : Nat) (d : Cst), c.children[i]? = some d →
      c.takenFor i d standing = d.asPart) :
    e ∈ Step.convertedAll source (each c.namedChildren) ↔ c.HandsOn source standing e := by
  have hparts := exists_child_iff (c := c) List.nodup_nil
    fun d standing => e ∈ d.convertedAs source standing
  simp only [List.not_mem_nil, false_and, exists_false, false_or] at hparts
  rw [mem_convertedAll_each]
  refine hparts.symm.trans (exists_congr fun i => exists_congr fun d => exists_congr fun s => ?_)
  exact and_congr_right fun hd => by rw [hpart i d hd]; rfl

/-- What a node hands on whose children are targets. -/
theorem mem_convertedAll_takenApart {standing : Standing}
    (htarget : ∀ (i : Nat) (d : Cst), c.takenFor i d standing = d.asTarget) :
    e ∈ Step.convertedAll source (targets source c) ↔ c.HandsOn source standing e := by
  rw [mem_convertedAll_targets]
  simp only [HandsOn, htarget]
  constructor
  · rintro ⟨d, hd, standing', htaken, he⟩
    obtain ⟨i, hd⟩ := List.getElem?_of_mem hd
    exact ⟨i, d, standing', hd, htaken, he⟩
  · rintro ⟨i, d, standing', hd, htaken, he⟩
    exact ⟨d, List.mem_of_getElem? hd, standing', htaken, he⟩

theorem takenFor_of_ownFields_eq_nil (hrole : c.role ∉ [.comment, .parameterList, .identifier])
    (hexception : c.role ≠ .exceptionVariable) (hfields : c.role.ownFields = []) (i : Nat)
    (d : Cst) : c.takenFor i d .construct = d.asPart := by
  simp [takenFor, hrole, hexception, hfields, leading?]

/-- A construct with nothing below it asks for nothing, and has nothing to hand on. -/
theorem mem_convertedAll_plainPlan (hr : c.role = .plain ∨ c.role = .gate) :
    e ∈ Step.convertedAll source (c.plainPlan source).steps ↔
      c.HandsOn source .construct e := by
  have hparts := mem_convertedAll_namedChildren source (c := c) (e := e) fun i d _ => by
    apply takenFor_of_ownFields_eq_nil <;> rcases hr with hr | hr <;> simp [hr, Role.ownFields]
  rw [← hparts, plainPlan]
  cases hnamed : c.namedChildren with
  | nil => simp [each, convertedAll_of_request source (s := .emit _) rfl]
  | cons d ds => simp

theorem mem_convertedAll_methodPlan (hr : c.role = .methodDefinition) :
    e ∈ Step.convertedAll source (c.methodPlan source).steps ↔
      c.HandsOn source .construct e := by
  refine mem_convertedAll_fields source (by simp [hr]) (by simp [hr]) ?_
  simp only [methodPlan, Step.convertedAll_append, convertedAll_of_request source
    (s := .openScope _) rfl, convertedAll_of_request source (s := .closeScope) rfl,
    Step.convertedAll_nil, List.append_nil, List.mem_append, mem_convertedAll_each,
    hr, Role.ownFields]
  -- The parameters are read, given or not; the owner is converted.
  cases hlist : c.child? "parameters" <;> cases hobject : c.child? "object" <;>
    simp [hlist, hobject, inOwnField, convertedAs, convertedAll_addParameters,
      convertedAll_of_request source (s := .emit _) rfl, Step.convertedAll_cons,
      Step.convertedAll_nil, Step.converted]

theorem mem_convertedAll_blockPlan (hr : c.role = .block) :
    e ∈ Step.convertedAll source (c.blockPlan source).steps ↔
      c.HandsOn source .construct e := by
  refine mem_convertedAll_fields source (by simp [hr]) (by simp [hr]) ?_
  simp only [blockPlan, Step.convertedAll_append, convertedAll_of_request source
    (s := .openScope _) rfl, convertedAll_of_request source (s := .closeScope) rfl,
    Step.convertedAll_nil, List.append_nil, List.mem_append, mem_convertedAll_each,
    hr, Role.ownFields]
  cases hlist : c.child? "parameters" <;>
    simp [inOwnField, convertedAll_addParameters, Step.convertedAll_nil]

/-- Of an assignment the target is handed on too, unless it is a bare word. -/
theorem mem_convertedAll_assignmentPlan (hr : c.role = .assignment) :
    e ∈ Step.convertedAll source (c.assignmentPlan source).steps ↔
      c.HandsOn source .construct e := by
  rw [assignmentPlan]
  cases hleft : c.child? "left" with
  | none =>
      refine mem_convertedAll_namedChildren source fun i d hd => ?_
      have hlead : c.leading? ["left"] i = none :=
        leading?_eq_none_iff.2 fun f hf hi => by
          obtain rfl := List.mem_singleton.1 hf
          exact absurd (child?_eq_some_iff.2 ⟨i, hd, hi⟩) (by simp [hleft])
      simp [takenFor, hr, Role.ownFields, hlead]
  | some left =>
      simp only
      by_cases hword : left.role = .identifier
      · rw [if_pos hword]
        refine mem_convertedAll_fields source (by simp [hr]) (by simp [hr]) ?_
        simp [convertedAll_of_request source (s := .declare _) rfl,
          convertedAll_of_request source (s := .emit _) rfl, mem_convertedAll_each,
          hr, Role.ownFields, hleft, inOwnField, hword]
      · rw [if_neg hword]
        by_cases hlist : left.type = "left_assignment_list"
        · rw [if_pos hlist]
          refine mem_convertedAll_fields source (by simp [hr]) (by simp [hr]) ?_
          simp [Step.convertedAll_append, mem_convertedAll_each, hr, Role.ownFields, hleft,
            inOwnField, hword, hlist, convertedAs]
        · rw [if_neg hlist]
          refine mem_convertedAll_namedChildren source fun i d hd => ?_
          simp only [takenFor, hr, Role.ownFields]
          cases hlead : c.leading? ["left"] i with
          | none => simp
          | some f =>
              obtain ⟨hf, hi⟩ := leading?_eq_some_iff.1 hlead
              obtain rfl := List.mem_singleton.1 hf
              obtain rfl := Option.some.inj
                ((child?_eq_some_iff.2 ⟨i, hd, hi⟩).symm.trans hleft)
              simp [inOwnField, hword, hlist]

/-- The plan of a node asks for what the node hands on. -/
theorem mem_convertedAll_plan :
    e ∈ Step.convertedAll source (c.plan source).steps ↔ c.HandsOn source .construct e := by
  cases hr : c.role with
  | comment | parameterList | identifier =>
      have hnone : ¬ c.HandsOn source .construct e := by
        simp [HandsOn, takenFor, hr]
      simp [plan, hr, hnone, convertedAll_addParameters, Step.convertedAll_nil,
        convertedAll_of_request source (s := .resolve _) rfl]
  | exceptionVariable =>
      rw [plan, hr]
      exact mem_convertedAll_takenApart source fun i d => by simp [takenFor, hr]
  | wrapper | group =>
      rw [plan, hr]
      refine mem_convertedAll_namedChildren source fun i d _ => ?_
      apply takenFor_of_ownFields_eq_nil <;> simp [hr, Role.ownFields]
  | plain =>
      rw [plan, hr]
      exact mem_convertedAll_plainPlan source (.inl hr)
  | gate =>
      rw [← mem_convertedAll_plainPlan source (.inr hr), plan, hr]
      simp only [gatePlan, plainPlan]
      split
      · rfl
      · rw [convertedAll_scope]
  | assignment =>
      rw [plan, hr]
      exact mem_convertedAll_assignmentPlan source hr
  | methodDefinition =>
      rw [plan, hr]
      exact mem_convertedAll_methodPlan source hr
  | block =>
      rw [plan, hr]
      exact mem_convertedAll_blockPlan source hr
  | classDefinition | moduleDefinition =>
      refine mem_convertedAll_fields source (by simp [hr]) (by simp [hr]) ?_
      simp only [plan, hr, definitionPlan, convertedAll_scope, mem_convertedAll_each,
        Role.ownFields]
      simp [inOwnField]
  | conditional =>
      refine mem_convertedAll_fields source (by simp [hr]) (by simp [hr]) ?_
      simp only [plan, hr, conditionalPlan, Step.convertedAll_append, List.mem_append,
        mem_convertedAll_slotAt, mem_convertedAll_each, Role.ownFields]
      simp [inOwnField, convertedAs]
  | call =>
      refine mem_convertedAll_fields source (by simp [hr]) (by simp [hr]) ?_
      simp only [plan, hr, callPlan, Step.convertedAll_append, List.mem_append,
        mem_convertedAll_slotAt, convertedAll_of_request source (s := .emit _) rfl,
        mem_convertedAll_each, Role.ownFields]
      simp [inOwnField, convertedAs]
  | loop =>
      refine mem_convertedAll_fields source (by simp [hr]) (by simp [hr]) ?_
      simp only [plan, hr, loopPlan, loopTarget, Step.convertedAll_append, List.mem_append,
        mem_convertedAll_each, Role.ownFields]
      cases hpattern : c.child? "pattern" with
      | none => simp [hpattern, Step.convertedAll_nil]
      | some d =>
          by_cases hword : d.role = .identifier <;>
            simp [hpattern, hword, inOwnField, convertedAs, convertedAll_assignTarget]

/-- What is converted when a node is taken for something: the node, if it is an
expression, and what it hands on. -/
theorem mem_convertedAs {standing : Standing} :
    e ∈ c.convertedAs source standing ↔
      standing = .construct ∧ e = c ∨ c.HandsOn source standing e := by
  cases standing with
  | file =>
      have hparts : e ∈ Step.convertedAll source (each c.namedChildren) ↔
          c.HandsOn source .file e := mem_convertedAll_namedChildren source fun i d _ => rfl
      rw [convertedAs, programSteps, convertedAll_scope, hparts]
      simp
  | target =>
      have htargets : e ∈ Step.convertedAll source (targets source c) ↔
          c.HandsOn source .target e := mem_convertedAll_takenApart source fun i d => rfl
      rw [convertedAs, htargets]
      simp
  | construct =>
      rw [convertedAs, converted, List.mem_cons, mem_convertedAll_plan]
      simp

end Children

/-! ## The places that are converted -/

/-- The nodes that are converted when a node is taken for something are those at
the addresses of converted places. -/
theorem mem_convertedAs_iff (source : List UInt8) {c e : Cst} {standing : Standing} :
    e ∈ c.convertedAs source standing ↔ ∃ a, c.ConvertedAt standing a ∧ c.at? a = some e := by
  induction c using Cst.induction generalizing standing with
  | step c ih =>
      rw [mem_convertedAs]
      constructor
      · rintro (⟨rfl, rfl⟩ | ⟨i, d, standing', hd, htaken, he⟩)
        · exact ⟨[], rfl, rfl⟩
        · obtain ⟨a, hplace, ha⟩ := (ih d (List.mem_of_getElem? hd)).1 he
          exact ⟨i :: a, ⟨d, standing', hd, htaken, hplace⟩, (at?_cons hd a).trans ha⟩
      · rintro ⟨a, hplace, ha⟩
        cases a with
        | nil => exact .inl ⟨hplace, (Option.some.inj ha).symm⟩
        | cons i a =>
            obtain ⟨d, standing', hd, htaken, hplace⟩ := hplace
            rw [at?_cons hd] at ha
            exact .inr ⟨i, d, standing', hd, htaken, (ih d (List.mem_of_getElem? hd)).2
              ⟨a, hplace, ha⟩⟩

/-- **Converted places.** The machine is asked to convert the nodes at the addresses
of converted places of a source file, and no others. -/
theorem mem_requests_iff (source : List UInt8) {root e : Cst} :
    e ∈ Machine.requests source ⟨root.programSteps, [], [], []⟩ ↔
      ∃ a, root.ConvertedAt .file a ∧ root.at? a = some e := by
  rw [← mem_convertedAs_iff source, Machine.requests_eq (run_programSteps source root),
    Machine.ahead, List.flatMap_nil, List.append_nil]
  rfl

end Cst

end RubySmells
