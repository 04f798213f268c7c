import RubySmells.Proofs.ScopeStack

/-!
# Targets of loops

A loop assigns to its target as a multiple assignment does to each of several. Here
the two are compared, node for node and local for local.

* **elements** — several targets become what each of them becomes, one after the other
  (`Cst.targetsIn_append`); the field that a node fills does not matter
  (`Cst.asElement_inField`);
* **where they agree** — a bare word, and a node that is itself a list of targets
  (`Cst.asLoopTarget_eq_asElement`);
* **where they differ** — anything else is an expression as one of several targets
  (`Cst.asElement_of_expression`), and the target of a loop is a list of targets
  whatever it is: bare words in it are declared (`Cst.mem_asLoopTarget`), and
  where nothing is in it, it is dropped (`Cst.asLoopTarget_of_leaf`).
-/

namespace RubySmells.Cst

/-- The types of nodes whose children are targets in turn. -/
def targetLists : List String :=
  ["rest_assignment", "destructured_left_assignment", "left_assignment_list"]

/-- The same node in another field, or in none. -/
def inField (c : Cst) (field : Option String) : Cst :=
  .mk { c.info with field := field } c.children

/-- What a node becomes as one of several targets. -/
def asElement (source : List UInt8) (q : Cst) (locals : NameSet) : Made :=
  targetsIn source [q] locals

/-- What a node becomes as the target of a loop. -/
def asLoopTarget (source : List UInt8) (q : Cst) (locals : NameSet) : Made :=
  if q.role = .identifier then assigned source q locals
  else targetsIn source q.children locals

variable (source : List UInt8)

/-! ## Elements -/

theorem targetsIn_append (xs ys : List Cst) (locals : NameSet) :
    targetsIn source (xs ++ ys) locals =
      let first := targetsIn source xs locals
      let more := targetsIn source ys first.2
      (first.1 ++ more.1, more.2) := by
  induction xs generalizing locals with
  | nil => rfl
  | cons c xs ih =>
      rw [List.cons_append, targetsIn, targetsIn, ih]
      simp only [List.append_assoc]

theorem targetsIn_around (xs ys : List Cst) (q : Cst) (locals : NameSet) :
    targetsIn source (xs ++ q :: ys) locals =
      let first := targetsIn source xs locals
      let element := asElement source q first.2
      let more := targetsIn source ys element.2
      (first.1 ++ element.1 ++ more.1, more.2) := by
  rw [targetsIn_append]
  simp only [← List.singleton_append (l := ys), targetsIn_append, asElement, List.append_assoc]

theorem asElement_eq (q : Cst) (locals : NameSet) :
    asElement source q locals =
      if !q.named then ([], locals)
      else if q.role = .identifier then assigned source q locals
      else if q.type ∈ targetLists then targetsIn source q.children locals
      else convert source q locals := by
  obtain ⟨i, cs⟩ := q
  rw [asElement, targetsIn]
  simp only [targetsIn, List.append_nil, targetsBelow, targetLists, List.mem_cons,
    List.not_mem_nil, or_false]
  rfl

theorem asElement_of_named {q : Cst} (hnamed : q.named = true) (locals : NameSet) :
    asElement source q locals =
      if q.role = .identifier then assigned source q locals
      else if q.type ∈ targetLists then targetsIn source q.children locals
      else convert source q locals := by
  rw [asElement_eq, hnamed]
  rfl

theorem convert_inField (q : Cst) (field : Option String) (locals : NameSet) :
    convert source (q.inField field) locals = convert source q locals := by
  obtain ⟨i, cs⟩ := q
  rw [inField, convert, convert]
  rfl

theorem asElement_inField (q : Cst) (field : Option String) (locals : NameSet) :
    asElement source (q.inField field) locals = asElement source q locals := by
  rw [asElement_eq, asElement_eq, convert_inField]
  rfl

/-- Nothing comes of targets that are all keywords and brackets. -/
theorem targetsIn_of_unnamed (locals : NameSet) {cs : List Cst}
    (h : ∀ d ∈ cs, ¬ d.named = true) : targetsIn source cs locals = ([], locals) := by
  induction cs with
  | nil => rfl
  | cons c cs ih =>
      rw [targetsIn, if_pos (by simpa using h c List.mem_cons_self)]
      exact ih fun d hd => h d (List.mem_cons_of_mem _ hd)

/-! ## Where they agree -/

section Target

variable {q : Cst} (locals : NameSet)

theorem asLoopTarget_eq_asElement (hnamed : q.named = true)
    (htype : q.type ∈ "identifier" :: targetLists) :
    asLoopTarget source q locals = asElement source q locals := by
  rw [asLoopTarget, asElement_of_named source hnamed]
  by_cases hword : q.role = .identifier
  · rw [if_pos hword, if_pos hword]
  · have hlist := List.mem_of_ne_of_mem (fun h => hword (role_eq_identifier_iff.2 h)) htype
    rw [if_neg hword, if_neg hword, if_pos hlist]

/-! ## Where they differ -/

theorem asElement_of_expression (hnamed : q.named = true)
    (htype : q.type ∉ "identifier" :: targetLists) :
    asElement source q locals = convert source q locals := by
  have hword : ¬ q.role = .identifier := by
    intro hr
    exact htype (List.mem_cons.2 (.inl (role_eq_identifier_iff.1 hr)))
  have hlist : ¬ q.type ∈ targetLists := fun h => htype (List.mem_cons_of_mem _ h)
  rw [asElement_of_named source hnamed, if_neg hword, if_neg hlist]

theorem asLoopTarget_of_ne (hword : q.type ≠ "identifier") :
    asLoopTarget source q locals = targetsIn source q.children locals :=
  if_neg fun hr => hword (role_eq_identifier_iff.1 hr)

/-- A bare word among targets is a local after them. -/
theorem mem_locals_targetsIn {cs : List Cst} {w : Cst} (hw : w ∈ cs) (hnamed : w.named = true)
    (hword : w.type = "identifier") : w.text source ∈ (targetsIn source cs locals).2 := by
  obtain ⟨xs, ys, rfl⟩ := List.append_of_mem hw
  have helement : w.text source ∈
      (asElement source w (targetsIn source xs locals).2).2 := by
    rw [asElement_of_named source hnamed, if_pos (role_eq_identifier_iff.2 hword), assigned]
    exact NameSet.mem_insertAll.2 (.inl List.mem_cons_self)
  rw [targetsIn_around]
  exact ((accounted_targetsIn (fun d _ => resolves source d) 0 _).mem_after _).2
    (.inl helement)

theorem mem_asLoopTarget (hq : q.type ≠ "identifier") {w : Cst} (hw : w ∈ q.children)
    (hnamed : w.named = true) (hword : w.type = "identifier") :
    w.text source ∈ (asLoopTarget source q locals).2 := by
  rw [asLoopTarget_of_ne source locals hq]
  exact mem_locals_targetsIn source locals hw hnamed hword

theorem asLoopTarget_of_leaf (hq : q.type ≠ "identifier") (hleaf : q.namedChildren = []) :
    asLoopTarget source q locals = ([], locals) := by
  rw [asLoopTarget_of_ne source locals hq]
  exact targetsIn_of_unnamed source locals (by simpa [namedChildren] using hleaf)

end Target

/-! ## Both places -/

theorem takes_loop {c q : Cst} (hc : c.type = "for") (hq : c.child? "pattern" = some q)
    (locals : NameSet) (below : Scopes) :
    let target := asLoopTarget source q locals
    let rest := eachIn source ["pattern"] c.children target.2
    Machine.Takes source [.convert c] (locals :: below)
      [.node (.mk (c.header .other none) (Made.children target ++ Made.children rest))]
      (rest.2 :: below) := by
  have hr : c.role = .loop := by
    rw [role, hc]
    rfl
  have htarget : loopTargetAt source c.children locals = asLoopTarget source q locals := by
    obtain ⟨i, cs⟩ := q
    rw [loopTargetAt_eq, show c.children.find? (fills "pattern") = some _ from hq]
    rfl
  have htakes := takes_convert source c locals below
  rw [convert_loop source locals hr, htarget] at htakes
  simpa only [Made.wrap, Made.children, List.map_append, List.map_cons, List.map_nil] using htakes

theorem takes_assignment {a left : Cst} {xs ys : List Cst} {q : Cst}
    {field : Option String} (ha : a.type ∈ ["assignment", "operator_assignment"])
    (hleft : a.child? "left" = some left) (hlist : left.type = "left_assignment_list")
    (hparts : left.children = xs ++ q.inField field :: ys)
    (locals : NameSet) (below : Scopes) :
    let first := targetsIn source xs locals
    let element := asElement source q first.2
    let more := targetsIn source ys element.2
    let values := eachIn source ["left"] a.children more.2
    Machine.Takes source [.convert a] (locals :: below)
      [.node (.mk (a.header .other none) (Made.children first ++ Made.children element ++
        Made.children more ++ Made.children values))] (values.2 :: below) := by
  have hr : a.role = .assignment := by
    rw [role]
    rcases List.mem_cons.1 ha with h | h
    · rw [h]
      rfl
    · rw [List.mem_singleton.1 h]
      rfl
  have hword : ¬ left.role = .identifier := by
    rw [role, hlist]
    decide
  have htargets : targetsAt source "left" a.children locals =
      targetsIn source left.children locals := by
    obtain ⟨i, cs⟩ := left
    rw [targetsAt_eq, show a.children.find? (fills "left") = some _ from hleft]
    rfl
  have htakes := takes_convert source a locals below
  rw [convert_assignment_of_some source locals hr hleft, if_neg hword, if_pos hlist, htargets,
    hparts, targetsIn_around] at htakes
  simpa only [asElement_inField, Made.wrap, Made.children, List.map_append, List.append_assoc,
    List.map_cons, List.map_nil] using htakes

end RubySmells.Cst

namespace RubySmells

open Cst

/-- **Loop targets.** The target of a loop and an element of a multiple assignment end
up in the same place: their nodes come first, in order, and what they declare is known
after them. A bare word and a node that is itself a list of targets become the same
in both. Anything else is an expression as an element; the loop takes it apart, so that
bare words in it are declared, and drops it where there is nothing in it. -/
theorem Cst.loop_target_as_element (source : List UInt8) {c q : Cst} (hc : c.type = "for")
    (hq : c.child? "pattern" = some q) :
    (∀ locals below,
      let target := asLoopTarget source q locals
      let rest := eachIn source ["pattern"] c.children target.2
      Machine.Takes source [.convert c] (locals :: below)
        [.node (.mk (c.header .other none) (Made.children target ++ Made.children rest))]
        (rest.2 :: below)) ∧
    (∀ (a left : Cst) (field : Option String) (xs ys : List Cst),
      a.type ∈ ["assignment", "operator_assignment"] → a.child? "left" = some left →
      left.type = "left_assignment_list" → left.children = xs ++ q.inField field :: ys →
      ∀ locals below,
        let first := targetsIn source xs locals
        let element := asElement source q first.2
        let more := targetsIn source ys element.2
        let values := eachIn source ["left"] a.children more.2
        Machine.Takes source [.convert a] (locals :: below)
          [.node (.mk (a.header .other none) (Made.children first ++ Made.children element ++
            Made.children more ++ Made.children values))] (values.2 :: below)) ∧
    (q.named = true → q.type ∈ "identifier" :: targetLists → ∀ locals,
      asLoopTarget source q locals = asElement source q locals) ∧
    (q.named = true → q.type ∉ "identifier" :: targetLists → ∀ locals,
      asElement source q locals = convert source q locals ∧
      asLoopTarget source q locals = targetsIn source q.children locals ∧
      (∀ w ∈ q.children, w.named = true → w.type = "identifier" →
        w.text source ∈ (asLoopTarget source q locals).2) ∧
      (q.namedChildren = [] → asLoopTarget source q locals = ([], locals))) := by
  refine ⟨takes_loop source hc hq, ?_, ?_, ?_⟩
  · intro a left field xs ys ha hleft hlist hparts
    exact takes_assignment source ha hleft hlist hparts
  · intro hnamed htype locals
    exact asLoopTarget_eq_asElement source locals hnamed htype
  · intro hnamed htype locals
    have hword : q.type ≠ "identifier" := fun h => htype (List.mem_cons.2 (.inl h))
    refine ⟨asElement_of_expression source locals hnamed htype,
      asLoopTarget_of_ne source locals hword, ?_, asLoopTarget_of_leaf source locals hword⟩
    intro w hw
    exact mem_asLoopTarget source locals hword hw

/-- The source `for i, j in list`, `end` on two lines. -/
def Source.loopOverPairs : List UInt8 := "for i, j in list\nend\n".toUTF8.toList

/-- The loop in it. -/
def Cst.loopOverPairs : Cst :=
  .mk { type := "for", endByte := 20 }
    [.mk { type := "for", named := false, endByte := 3 } [],
     .mk { type := "left_assignment_list", field := "pattern", startByte := 4, endByte := 8 }
      [.mk { type := "identifier", startByte := 4, endByte := 5 } [],
       .mk { type := ",", named := false, startByte := 5, endByte := 6 } [],
       .mk { type := "identifier", startByte := 7, endByte := 8 } []],
     .mk { type := "in", field := "value", startByte := 9, endByte := 16 }
      [.mk { type := "in", named := false, startByte := 9, endByte := 11 } [],
       .mk { type := "identifier", startByte := 12, endByte := 16 } []],
     .mk { type := "do", field := "body", startByte := 16, endByte := 20 }
      [.mk { type := "end", named := false, startByte := 17, endByte := 20, row := 1 } []]]

/-- Both names are declared, as in a multiple assignment. -/
theorem Cst.loop_target_as_element_loopOverPairs :
    ∃ q, Cst.loopOverPairs.type = "for" ∧ Cst.loopOverPairs.child? "pattern" = some q ∧
      asLoopTarget Source.loopOverPairs q ∅ = asElement Source.loopOverPairs q ∅ ∧
      "i" ∈ (asElement Source.loopOverPairs q ∅).2 ∧
      "j" ∈ (asElement Source.loopOverPairs q ∅).2 := by
  have hpattern : Cst.loopOverPairs.child? "pattern" = some _ := rfl
  obtain ⟨-, -, hsame, -⟩ := loop_target_as_element Source.loopOverPairs rfl hpattern
  exact ⟨_, rfl, hpattern, hsame rfl (by decide) ∅, by decide +kernel, by decide +kernel⟩

/-- The source `for a.b in list`, `a`, `end` on three lines. -/
def Source.loopOverAttribute : List UInt8 := "for a.b in list\n  a\nend\n".toUTF8.toList

def Cst.loopOverAttribute : Cst :=
  .mk { type := "program", endByte := 24 }
    [.mk { type := "for", endByte := 23 }
      [.mk { type := "for", named := false, endByte := 3 } [],
       .mk { type := "call", field := "pattern", startByte := 4, endByte := 7 }
        [.mk { type := "identifier", field := "receiver", startByte := 4, endByte := 5 } [],
         .mk { type := ".", named := false, field := "operator", startByte := 5,
               endByte := 6 } [],
         .mk { type := "identifier", field := "method", startByte := 6, endByte := 7 } []],
       .mk { type := "in", field := "value", startByte := 8, endByte := 15 }
        [.mk { type := "in", named := false, startByte := 8, endByte := 10 } [],
         .mk { type := "identifier", startByte := 11, endByte := 15 } []],
       .mk { type := "do", field := "body", startByte := 15, endByte := 23 }
        [.mk { type := "identifier", startByte := 18, endByte := 19, row := 1 } [],
         .mk { type := "end", named := false, startByte := 20, endByte := 23, row := 2 } []]]]

/-- Receiver and method of the target become locals, and the `a` in the body is taken
for a variable; as an element of a multiple assignment the target is a call. -/
theorem Source.loop_target_taken_apart :
    (Grammar.constant .loopOverAttribute Source.loopOverAttribute).hasError = false ∧
    ∃ tree c q, Source.parse (.constant .loopOverAttribute) "a.rb" Source.loopOverAttribute =
        .ok tree ∧
      Cst.loopOverAttribute.children = [c] ∧ c.type = "for" ∧
      c.child? "pattern" = some q ∧ q.type = "call" ∧
      tree.places.map (·.node.kind) =
        [.program, .other, .localAssignment, .localAssignment, .other, .call, .localVariable] ∧
      (asElement Source.loopOverAttribute q ∅).1.map (·.kind) = [.call] ∧
      asLoopTarget Source.loopOverAttribute q ∅ ≠ asElement Source.loopOverAttribute q ∅ ∧
      "a" ∈ (asLoopTarget Source.loopOverAttribute q ∅).2 ∧
      "a" ∉ (asElement Source.loopOverAttribute q ∅).2 := by
  refine ⟨rfl, _, _, _, parse_eq rfl "a.rb", rfl, rfl, rfl, rfl, ?_, ?_, ?_, ?_, ?_⟩
  · decide +kernel
  · decide +kernel
  · intro h
    -- There are two nodes on one side and one on the other.
    exact absurd (congrArg (fun m => m.1.length) h) (by decide +kernel)
  · decide +kernel
  · decide +kernel

end RubySmells
