import RubySmells.Proofs.Conversions

/-!
# Nodes that can be interchanged

Wherever a grammar node is converted, another that becomes the same may stand in its
place, and the constructs around it become the same (`Cst.alikeAs_replaceAt`).

* Of a child that it converts, a construct looks at the field and at whether the child
  is named, at its type if it is a target, and at nothing else
  (`Cst.Interchangeable`).
* What a construct reads from other children is untouched
  (`Cst.child?_withChild_of_read`), and what it converts becomes the same, child by
  child (`Cst.eachIn_set`, `Cst.targetsIn_set`).
* One step of the way up is `Cst.alikeAs_withChild`, with one lemma for each
  construct that does more than convert its children in order.
-/

namespace RubySmells.Cst

variable {source : List UInt8}

/-! ## What can be interchanged -/

/-- Two nodes become the same, with the same locals afterwards, and nothing that a
construct around them looks at tells them apart. -/
structure Interchangeable (source : List UInt8) (d d' : Cst) : Prop where
  field : d'.info.field = d.info.field
  named : d'.named = d.named
  /-- Parentheses are no target. -/
  type : d'.type = d.type ∨ d'.role = .group
  convert : ∀ locals, convert source d' locals = convert source d locals
  gathered : ∀ locals, d'.gathered (Cst.convert source d locals).1 =
    d.gathered (Cst.convert source d locals).1

/-- Two nodes become the same when they are taken for the same thing. -/
def AlikeAs (source : List UInt8) : Standing → Cst → Cst → Prop
  | .file, d, d' =>
    d'.info = d.info ∧
      ∀ locals, eachIn source [] d'.children locals = eachIn source [] d.children locals
  | .construct, d, d' => Interchangeable source d d'
  | .target, d, d' =>
    d'.info = d.info ∧
      ∀ locals, targetsIn source d'.children locals = targetsIn source d.children locals

/-- What is no target of some type is not interchanged with one. -/
theorem Interchangeable.type_ne {d d' : Cst} (h : Interchangeable source d d') {type : String}
    (htype : Role.ofType type ≠ .group) (hne : d.type ≠ type) : d'.type ≠ type := by
  rcases h.type with hsame | hgroup
  · rwa [hsame]
  · rintro rfl
    exact htype hgroup

theorem Interchangeable.role_ne_identifier {d d' : Cst} (h : Interchangeable source d d')
    (hword : d.role ≠ .identifier) : d'.role ≠ .identifier := by
  rw [Ne, role_eq_identifier_iff] at hword ⊢
  exact h.type_ne (by decide) hword

theorem AlikeAs.field {standing : Standing} {d d' : Cst} (h : AlikeAs source standing d d') :
    d'.info.field = d.info.field := by
  cases standing with
  | file => exact congrArg Info.field h.1
  | construct => exact Interchangeable.field h
  | target => exact congrArg Info.field h.1

theorem AlikeAs.named {standing : Standing} {d d' : Cst} (h : AlikeAs source standing d d') :
    d'.named = d.named := by
  cases standing with
  | file => exact congrArg Info.named h.1
  | construct => exact Interchangeable.named h
  | target => exact congrArg Info.named h.1

theorem AlikeAs.targetsBelow {d d' : Cst} (h : AlikeAs source .target d d') (locals : NameSet) :
    targetsBelow source d' locals = targetsBelow source d locals := by
  obtain ⟨info, cs⟩ := d
  obtain ⟨info', cs'⟩ := d'
  exact h.2 locals

/-! ## Children that trade places -/

/-- The same node with another child at a position. -/
def withChild (c : Cst) (i : Nat) (d : Cst) : Cst :=
  .mk c.info (c.children.set i d)

section Siblings

variable {cs : List Cst} {i : Nat} {d d' : Cst}

/-- The same children are the first in their fields. -/
theorem findIdx?_set (hd : cs[i]? = some d) (hfield : d'.info.field = d.info.field)
    (f : String) : (cs.set i d').findIdx? (fills f) = cs.findIdx? (fills f) := by
  induction cs generalizing i with
  | nil => rfl
  | cons c cs ih =>
      cases i with
      | zero =>
          obtain rfl := Option.some.inj hd
          have hfills : d'.fills f = c.fills f := by rw [fills, fills, hfield]
          rw [List.set_cons_zero, List.findIdx?_cons, List.findIdx?_cons, hfills]
      | succ i =>
          rw [List.set_cons_succ, List.findIdx?_cons, List.findIdx?_cons,
            ih (by simpa using hd)]

/-- Children become the same after one has been interchanged, if it becomes the same
or leads a field that is passed over. -/
theorem eachIn_set (hd : cs[i]? = some d) (hfield : d'.info.field = d.info.field)
    (hnamed : d'.named = d.named) {fields : List String}
    (h : (∃ f ∈ fields, cs.findIdx? (fills f) = some i) ∨
      ∀ locals, convert source d' locals = convert source d locals) (locals : NameSet) :
    eachIn source fields (cs.set i d') locals = eachIn source fields cs locals := by
  induction cs generalizing i fields locals with
  | nil => rfl
  | cons c cs ih =>
      cases i with
      | zero =>
          obtain rfl := Option.some.inj hd
          have hfills : (fun f => d'.fills f) = fun f => c.fills f := by
            funext f
            rw [fills, fills, hfield]
          rw [List.set_cons_zero, eachIn, eachIn, hfills, hnamed]
          cases hf : fields.find? fun f => c.fills f with
          | some f => rfl
          | none =>
              rcases h with ⟨f, hmem, hlead⟩ | hconvert
              · have hnone : ¬ c.fills f = true := by simpa using List.find?_eq_none.1 hf f hmem
                rw [List.findIdx?_cons, if_neg hnone] at hlead
                exact absurd hlead (by simp)
              · simp only [hconvert]
      | succ i =>
          have hd : cs[i]? = some d := by simpa using hd
          have hlater : ∀ {fields' : List String},
              (∀ f ∈ fields, c.fills f = true ∨ f ∈ fields') →
              (∃ f ∈ fields', cs.findIdx? (fills f) = some i) ∨
                ∀ locals, convert source d' locals = convert source d locals := by
            intro fields' hfields
            rcases h with ⟨f, hmem, hlead⟩ | hconvert
            · obtain ⟨hc, hlead⟩ := (findIdx?_fills_cons f c cs i).1 hlead
              exact .inl ⟨f, (hfields f hmem).resolve_left hc, hlead⟩
            · exact .inr hconvert
          rw [List.set_cons_succ, eachIn, eachIn]
          cases hf : fields.find? fun f => c.fills f with
          | some f =>
              have hfill : c.fills f = true := by simpa using List.find?_some hf
              refine ih hd (hlater fun g hg => ?_) locals
              by_cases hgf : g = f
              · exact .inl (hgf ▸ hfill)
              · exact .inr ((List.mem_erase_of_ne hgf).2 hg)
          | none =>
              have ih := fun locals => ih hd (hlater fun g hg => .inr hg) locals
              simp only [ih]

/-- Targets become the same after one that becomes the same has been interchanged. -/
theorem targetsIn_set (hd : cs[i]? = some d)
    (h : ∀ locals, asElement source d' locals = asElement source d locals) (locals : NameSet) :
    targetsIn source (cs.set i d') locals = targetsIn source cs locals := by
  obtain ⟨hi, hget⟩ := List.getElem?_eq_some_iff.1 hd
  have hcs : cs = cs.take i ++ d :: cs.drop (i + 1) := by
    rw [← hget, ← List.drop_eq_getElem_cons hi, List.take_append_drop]
  rw [List.set_eq_take_append_cons_drop, if_pos hi]
  conv_rhs => rw [hcs]
  simp only [targetsIn_around, h]

/-- A target becomes the same if it is interchanged with one that does. -/
theorem asElement_congr {standing : Standing} (htaken : d.asTarget = some standing)
    (h : AlikeAs source standing d d') (locals : NameSet) :
    asElement source d' locals = asElement source d locals := by
  obtain ⟨hword, ⟨rfl, hlist⟩ | ⟨rfl, hlist⟩⟩ := asTarget_eq_some htaken
  · have htype : d'.type = d.type := congrArg Info.type h.1
    have hrole : d'.role = d.role := congrArg Role.ofType htype
    rw [asElement_eq, asElement_eq, h.named, hrole, htype, if_neg hword, if_neg hword,
      if_pos hlist, if_pos hlist, h.2]
  · have hnamed := h.named
    have h : Interchangeable source d d' := h
    have hlist' : d'.type ∉ targetLists := by
      intro hmem
      have hgroup : ∀ type ∈ targetLists, Role.ofType type ≠ .group := by decide
      exact h.type_ne (hgroup _ hmem) (fun heq => hlist (heq ▸ hmem)) rfl
    rw [asElement_eq, asElement_eq, hnamed, if_neg hword, if_neg (h.role_ne_identifier hword),
      if_neg hlist, if_neg hlist', h.convert]

end Siblings

section Parent

variable {c d d' : Cst} {i : Nat}

theorem getElem?_withChild (hd : c.children[i]? = some d) :
    (c.withChild i d').children[i]? = some d' := by
  obtain ⟨hi, -⟩ := List.getElem?_eq_some_iff.1 hd
  exact List.getElem?_set_self hi

/-- The node in a field is the same, unless it is the one that was interchanged. -/
theorem child?_withChild (hd : c.children[i]? = some d) (hfield : d'.info.field = d.info.field)
    (f : String) :
    (c.children.findIdx? (fills f) ≠ some i ∧ (c.withChild i d').child? f = c.child? f) ∨
      (c.children.findIdx? (fills f) = some i ∧ c.child? f = some d ∧
        (c.withChild i d').child? f = some d') := by
  have hset := findIdx?_set hd hfield f
  by_cases hlead : c.children.findIdx? (fills f) = some i
  · refine .inr ⟨hlead, child?_eq_some_iff.2 ⟨i, hd, hlead⟩, child?_eq_some_iff.2 ⟨i, ?_, ?_⟩⟩
    · exact getElem?_withChild hd
    · exact hset.trans hlead
  · refine .inl ⟨hlead, Option.ext fun e => ?_⟩
    rw [child?_eq_some_iff, child?_eq_some_iff]
    refine exists_congr fun j => ?_
    show ((c.children.set i d')[j]? = some e ∧ (c.children.set i d').findIdx? _ = some j) ↔ _
    rw [hset]
    refine and_congr_left fun hj => ?_
    have hne : i ≠ j := fun h => hlead (h ▸ hj)
    rw [List.getElem?_set_ne hne]

/-- What fills one place becomes the same. -/
theorem slot_withChild (hd : c.children[i]? = some d) (h : Interchangeable source d d')
    (f : String) (locals : NameSet) :
    (c.withChild i d').filling source f locals = c.filling source f locals ∧
      slotIn source f (c.withChild i d').children locals = slotIn source f c.children locals ∧
      convertAt source f (c.withChild i d').children locals =
        convertAt source f c.children locals := by
  have hchild := child?_withChild hd h.field f
  rw [slotIn_eq, slotIn_eq, convertAt_eq, convertAt_eq]
  rw [child?, child?] at hchild
  rw [filling, filling, child?, child?]
  rcases hchild with ⟨-, hsame⟩ | ⟨-, hc, hc'⟩
  · rw [hsame]
    exact ⟨rfl, rfl, rfl⟩
  · rw [hc, hc']
    simp only [single_eq_place, h.convert, h.gathered, and_self]

/-! ## One step of the way -/

section Step

variable {standing : Standing} (hd : c.children[i]? = some d)
  (htaken : c.takenFor i d .construct = some standing) (h : AlikeAs source standing d d')

include hd htaken h in
/-- A field that is read does not hold what was interchanged. -/
theorem child?_withChild_of_read (hexception : c.role ≠ .exceptionVariable) {f : String}
    (hf : f ∈ c.role.ownFields) (hread : f ∈ ["name", "parameters", "method"]) :
    (c.withChild i d').child? f = c.child? f := by
  rcases child?_withChild hd h.field f with ⟨-, hsame⟩ | ⟨hlead, -, -⟩
  · exact hsame
  · have hown := inOwnField_of_takenFor htaken hexception hf hlead
    have hnone : d.inOwnField f = none := by
      simp only [List.mem_cons, List.not_mem_nil, or_false] at hread
      rcases hread with rfl | rfl | rfl <;> simp [inOwnField]
    exact absurd (hnone.symm.trans hown) (by simp)

include hd h in
/-- What is passed over or becomes the same makes no difference to the children. -/
theorem eachIn_withChild {fields : List String}
    (hpassed : standing = .construct ∨ ∃ f ∈ fields, c.children.findIdx? (fills f) = some i)
    (locals : NameSet) :
    eachIn source fields (c.withChild i d').children locals =
      eachIn source fields c.children locals := by
  refine eachIn_set hd h.field h.named ?_ locals
  rcases hpassed with rfl | hlead
  · exact .inr h.convert
  · exact .inl hlead

include hd htaken h in
theorem convert_withChild_method (hr : c.role = .methodDefinition) (locals : NameSet) :
    convert source (c.withChild i d') locals = convert source c locals := by
  have hread := fun f => child?_withChild_of_read (f := f) hd htaken h (by simp [hr])
  have hname := hread "name" (by simp [hr, Role.ownFields]) (by simp)
  have hlist := hread "parameters" (by simp [hr, Role.ownFields]) (by simp)
  obtain rfl := eq_construct_of_takenFor htaken (by simp [hr])
  have hr' : (c.withChild i d').role = .methodDefinition := hr
  have howner := (slot_withChild hd h "object" locals).2.2
  have hfield : (c.withChild i d').fieldText source "name" = c.fieldText source "name" := by
    rw [fieldText, fieldText, hname]
  have hparameters : (c.withChild i d').ownParameters source = c.ownParameters source := by
    rw [ownParameters, ownParameters, hlist]
    rfl
  have hlocals : (c.withChild i d').ownLocals source = c.ownLocals source := by
    rw [ownLocals, ownLocals, hlist]
  rw [convert_method source hr', convert_method source hr, ← convertAt_eq_owner,
    ← convertAt_eq_owner, howner, hparameters, hlocals, hfield,
    eachIn_withChild hd h (.inl rfl)]
  rfl

include hd htaken h in
theorem convert_withChild_definition
    (hr : c.role = .classDefinition ∨ c.role = .moduleDefinition) (locals : NameSet) :
    convert source (c.withChild i d') locals = convert source c locals := by
  have hexception : c.role ≠ .exceptionVariable := by rcases hr with hr | hr <;> simp [hr]
  have hname := child?_withChild_of_read (f := "name") hd htaken h hexception
    (by rcases hr with hr | hr <;> simp [hr, Role.ownFields]) (by simp)
  obtain rfl := eq_construct_of_takenFor htaken (by rcases hr with hr | hr <;> simp [hr])
  have hfield : (c.withChild i d').fieldText source "name" = c.fieldText source "name" := by
    rw [fieldText, fieldText, hname]
  rcases hr with hr | hr
  · have hr' : (c.withChild i d').role = .classDefinition := hr
    rw [convert_classDefinition source locals hr', convert_classDefinition source locals hr,
      hfield, eachIn_withChild hd h (.inl rfl)]
    rfl
  · have hr' : (c.withChild i d').role = .moduleDefinition := hr
    rw [convert_moduleDefinition source locals hr', convert_moduleDefinition source locals hr,
      hfield, eachIn_withChild hd h (.inl rfl)]
    rfl

include hd htaken h in
theorem convert_withChild_block (hr : c.role = .block) (locals : NameSet) :
    convert source (c.withChild i d') locals = convert source c locals := by
  have hlist := child?_withChild_of_read (f := "parameters") hd htaken h (by simp [hr])
    (by simp [hr, Role.ownFields]) (by simp)
  obtain rfl := eq_construct_of_takenFor htaken (by simp [hr])
  have hr' : (c.withChild i d').role = .block := hr
  have hparameters : (c.withChild i d').blockParameters source locals =
      c.blockParameters source locals := by
    rw [blockParameters, blockParameters, hlist]
  rw [convert_block source locals hr', convert_block source locals hr, hparameters]
  simp only [eachIn_withChild hd h (.inl rfl)]
  rfl

include hd htaken h in
theorem convert_withChild_call (hr : c.role = .call) (locals : NameSet) :
    convert source (c.withChild i d') locals = convert source c locals := by
  have hmethod := child?_withChild_of_read (f := "method") hd htaken h (by simp [hr])
    (by simp [hr, Role.ownFields]) (by simp)
  obtain rfl := eq_construct_of_takenFor htaken (by simp [hr])
  have hr' : (c.withChild i d').role = .call := hr
  obtain ⟨hfilling, hslot, -⟩ := slot_withChild hd h "receiver" locals
  have hname : (c.withChild i d').calledName source = c.calledName source := by
    rw [calledName, calledName, hmethod]
  rw [convert_call source hr', convert_call source hr, hfilling, hslot, hname]
  simp only [eachIn_withChild hd h (.inl rfl)]
  rfl

include hd htaken h in
theorem convert_withChild_conditional (hr : c.role = .conditional) (locals : NameSet) :
    convert source (c.withChild i d') locals = convert source c locals := by
  obtain rfl := eq_construct_of_takenFor htaken (by simp [hr])
  have hr' : (c.withChild i d').role = .conditional := hr
  obtain ⟨hfilling, hslot, -⟩ := slot_withChild hd h "condition" locals
  rw [convert_conditional source hr', convert_conditional source hr, hfilling, hslot]
  simp only [eachIn_withChild hd h (.inl rfl)]
  rfl

include hd htaken h in
theorem convert_withChild_loop (hr : c.role = .loop) (locals : NameSet) :
    convert source (c.withChild i d') locals = convert source c locals := by
  have hr' : (c.withChild i d').role = .loop := hr
  have hstep : loopTargetAt source (c.withChild i d').children locals =
        loopTargetAt source c.children locals ∧
      (standing = .construct ∨
        ∃ f ∈ ["pattern"], c.children.findIdx? (fills f) = some i) := by
    rw [loopTargetAt_eq, loopTargetAt_eq]
    rcases child?_withChild hd h.field "pattern" with ⟨hlead, hsame⟩ | ⟨hlead, hc, hc'⟩
    · rw [child?, child?] at hsame
      rw [hsame]
      refine ⟨rfl, .inl (eq_construct_of_not_leading htaken (by simp [hr]) ?_)⟩
      simpa [hr, Role.ownFields] using hlead
    · rw [child?] at hc hc'
      rw [hc, hc']
      obtain ⟨hword, rfl⟩ := inOwnField_pattern
        (inOwnField_of_takenFor htaken (by simp [hr]) (by simp [hr, Role.ownFields]) hlead)
      have hword' : d'.role ≠ .identifier := by
        rwa [role, show d'.type = d.type from congrArg Info.type h.1]
      simp only [if_neg hword, if_neg hword', h.targetsBelow, true_and]
      exact .inr ⟨_, List.mem_singleton_self _, hlead⟩
  obtain ⟨htarget, hpassed⟩ := hstep
  rw [convert_loop source locals hr', convert_loop source locals hr, htarget]
  simp only [eachIn_withChild hd h hpassed]
  rfl

include hd htaken h in
theorem convert_withChild_assignment (hr : c.role = .assignment) (locals : NameSet) :
    convert source (c.withChild i d') locals = convert source c locals := by
  have hr' : (c.withChild i d').role = .assignment := hr
  have hlead := child?_withChild hd h.field "left"
  rcases hlead with ⟨hlead, hsame⟩ | ⟨hlead, hc, hc'⟩
  · -- One of the values: the target is what it was.
    obtain rfl := eq_construct_of_not_leading htaken (by simp [hr])
      (by simpa [hr, Role.ownFields] using hlead)
    cases hleft : c.child? "left" with
    | none =>
        rw [convert_assignment_of_none source locals hr hleft,
          convert_assignment_of_none source locals hr' (hsame.trans hleft),
          eachIn_withChild hd h (.inl rfl)]
        rfl
    | some left =>
        have htargets : targetsAt source "left" (c.withChild i d').children locals =
            targetsAt source "left" c.children locals := by
          rw [child?, child?] at hsame
          rw [targetsAt_eq, targetsAt_eq, hsame]
        rw [convert_assignment_of_some source locals hr hleft,
          convert_assignment_of_some source locals hr' (hsame.trans hleft)]
        simp only [eachIn_withChild hd h (.inl rfl), htargets]
        rfl
  · obtain ⟨hword, ⟨hlist, rfl⟩ | ⟨hlist, rfl⟩⟩ := inOwnField_left
      (inOwnField_of_takenFor htaken (by simp [hr]) (by simp [hr, Role.ownFields]) hlead)
    · -- A list of targets, one of which has been interchanged.
      have htype : d'.type = d.type := congrArg Info.type h.1
      have hword' : d'.role ≠ .identifier := by rwa [role, htype]
      have htargets : targetsAt source "left" (c.withChild i d').children locals =
          targetsAt source "left" c.children locals := by
        rw [child?] at hc hc'
        rw [targetsAt_eq, targetsAt_eq, hc, hc']
        exact h.targetsBelow locals
      rw [convert_assignment_of_some source locals hr hc,
        convert_assignment_of_some source locals hr' hc', if_neg hword, if_neg hword', htype,
        if_pos hlist, if_pos hlist, htargets]
      simp only [eachIn_withChild hd h (.inr ⟨_, List.mem_singleton_self _, hlead⟩)]
      rfl
    · -- A target that is an expression.
      have hd' : Interchangeable source d d' := h
      rw [convert_assignment_of_some source locals hr hc,
        convert_assignment_of_some source locals hr' hc', if_neg hword,
        if_neg (hd'.role_ne_identifier hword), if_neg hlist,
        if_neg (hd'.type_ne (by decide) hlist), eachIn_withChild hd h (.inl rfl)]
      rfl

include hd htaken h in
/-- A construct with a part that is converted has parts. -/
theorem namedChildren_withChild (hr : c.role = .plain ∨ c.role = .gate) :
    ¬ c.namedChildren.isEmpty = true ∧ ¬ (c.withChild i d').namedChildren.isEmpty = true := by
  have hpart : c.takenFor i d .construct = d.asPart := by
    apply takenFor_of_ownFields_eq_nil <;> rcases hr with hr | hr <;> simp [hr, Role.ownFields]
  have hnamed : d.named = true := named_of_asPart (hpart.symm.trans htaken)
  have hmem : d ∈ c.namedChildren := List.mem_filter.2 ⟨List.mem_of_getElem? hd, hnamed⟩
  have hmem' : d' ∈ (c.withChild i d').namedChildren :=
    List.mem_filter.2 ⟨List.mem_of_getElem? (getElem?_withChild hd), h.named.trans hnamed⟩
  rw [List.isEmpty_iff, List.isEmpty_iff]
  exact ⟨List.ne_nil_of_mem hmem, List.ne_nil_of_mem hmem'⟩

include hd htaken h in
/-- A construct becomes the same after a child has been interchanged with one that
becomes the same where it stands. -/
theorem convert_withChild (locals : NameSet) :
    convert source (c.withChild i d') locals = convert source c locals := by
  have hrole : ∀ {role}, c.role = role → (c.withChild i d').role = role := fun hr => hr
  cases hr : c.role with
  | comment | parameterList | identifier => exact absurd htaken (by simp [takenFor, hr])
  | methodDefinition => exact convert_withChild_method hd htaken h hr locals
  | classDefinition => exact convert_withChild_definition hd htaken h (.inl hr) locals
  | moduleDefinition => exact convert_withChild_definition hd htaken h (.inr hr) locals
  | block => exact convert_withChild_block hd htaken h hr locals
  | call => exact convert_withChild_call hd htaken h hr locals
  | conditional => exact convert_withChild_conditional hd htaken h hr locals
  | loop => exact convert_withChild_loop hd htaken h hr locals
  | assignment => exact convert_withChild_assignment hd htaken h hr locals
  | exceptionVariable =>
      have htarget : d.asTarget = some standing := by simpa [takenFor, hr] using htaken
      rw [convert_exceptionVariable source locals (hrole hr),
        convert_exceptionVariable source locals hr, withChild, children,
        targetsIn_set hd (asElement_congr htarget h)]
      rfl
  | wrapper =>
      obtain rfl := eq_construct_of_takenFor htaken (by simp [hr])
      rw [convert_wrapper source locals (hrole hr), convert_wrapper source locals hr,
        eachIn_withChild hd h (.inl rfl)]
  | group =>
      obtain rfl := eq_construct_of_takenFor htaken (by simp [hr])
      rw [convert_group source locals (hrole hr), convert_group source locals hr,
        eachIn_withChild hd h (.inl rfl)]
      rfl
  | plain =>
      obtain ⟨hparts, hparts'⟩ := namedChildren_withChild hd htaken h (.inl hr)
      obtain rfl := eq_construct_of_takenFor htaken (by simp [hr])
      rw [convert_plain source locals (hrole hr), convert_plain source locals hr, if_neg hparts,
        if_neg hparts', eachIn_withChild hd h (.inl rfl)]
      rfl
  | gate =>
      obtain ⟨hparts, hparts'⟩ := namedChildren_withChild hd htaken h (.inr hr)
      obtain rfl := eq_construct_of_takenFor htaken (by simp [hr])
      rw [convert_gate source locals (hrole hr), convert_gate source locals hr, if_neg hparts,
        if_neg hparts', eachIn_withChild hd h (.inl rfl)]
      rfl

end Step

/-- One step of the way: what a node is taken for does not matter. -/
theorem alikeAs_withChild {outer standing : Standing} (hd : c.children[i]? = some d)
    (htaken : c.takenFor i d outer = some standing) (h : AlikeAs source standing d d') :
    AlikeAs source outer c (c.withChild i d') := by
  cases outer with
  | file =>
      obtain rfl := eq_construct_of_asPart htaken
      exact ⟨rfl, eachIn_withChild hd h (.inl rfl)⟩
  | target => exact ⟨rfl, targetsIn_set hd (asElement_congr htaken h)⟩
  | construct =>
      exact ⟨rfl, rfl, .inl rfl, convert_withChild hd htaken h, fun locals => rfl⟩

end Parent

/-! ## All around -/

/-- The same tree with another node at an address. -/
def replaceAt : Cst → Address → Cst → Cst
  | _, [], d' => d'
  | c, i :: a, d' =>
    match c.children[i]? with
    | some d => c.withChild i (d.replaceAt a d')
    | none => c

/-- Where a node is converted, a tree becomes the same with what the node can be
interchanged with. -/
theorem alikeAs_replaceAt {c d d' : Cst} {a : Address} {standing : Standing}
    (hd : c.at? a = some d) (hplace : c.ConvertedAt standing a)
    (h : Interchangeable source d d') : AlikeAs source standing c (c.replaceAt a d') := by
  induction a generalizing c standing with
  | nil =>
      obtain rfl : standing = .construct := hplace
      obtain rfl : c = d := Option.some.inj hd
      exact h
  | cons i a ih =>
      obtain ⟨e, standing', he, htaken, hplace⟩ := hplace
      rw [at?_cons he] at hd
      rw [replaceAt, he]
      exact alikeAs_withChild he htaken (ih hd hplace)

theorem simplify_replaceAt {root d d' : Cst} {a : Address} (hd : root.at? a = some d)
    (hplace : root.ConvertedAt .file a) (h : Interchangeable source d d') :
    (root.replaceAt a d').simplify source = root.simplify source := by
  obtain ⟨hinfo, hparts⟩ := alikeAs_replaceAt hd hplace h
  have hheader : (root.replaceAt a d').header .program none = root.header .program none := by
    rw [header, header, Cst.type, Cst.type, line, line, hinfo]
  rw [simplify, simplify, hheader, hparts]

end RubySmells.Cst
