import RubySmells.Conversion.Depth
import RubySmells.Proofs.Requests
import RubySmells.Source

/-!
# The machine and the recursion on the tree, with a limit on nested targets

A machine that has room for a limited number of lists of targets inside each
other does what the machine without a limit does, which is what the recursion on
the concrete syntax tree says, unless it comes to a construct whose targets are
nested deeper. Then it breaks off without a tree.

* **one step** — a step is taken as without a limit, unless it asks for such a
  construct (`Machine.advanceWithin_eq`);
* **a run** — every construct that the machine is still to be asked for is come to
  (`Machine.ahead`), so a run breaks off exactly if one of these is nested too
  deep (`Machine.runWithin_eq`);
* **a file** — `Cst.buildWithin_eq_simplify`, and for source files
  `Source.parseWithin_eq`.
-/

namespace RubySmells

namespace Machine

variable {source : List UInt8}

/-! ## One step -/

theorem advanceWithin_eq (source : List UInt8) (limit : Nat) (m : Machine) :
    m.advanceWithin source limit =
      if ∀ c ∈ m.steps.head?.bind Step.request?, c.nesting ≤ limit then
        (m.advance source).mapError .scope
      else .error .tooDeep := by
  obtain ⟨steps, made, waiting, scopes⟩ := m
  cases steps with
  | nil => rw [if_pos (by simp)]; rfl
  | cons s rest =>
      cases s with
      | convert c | slot c =>
          simp only [advanceWithin, Cst.planWithin_eq, List.head?_cons, Option.bind_some,
            Step.request?, Option.mem_some_iff, forall_eq']
          split <;> rfl
      | declare names | emit child | resolve word | openScope inherits | closeScope =>
          rw [if_pos (by simp [Step.request?])]; rfl

/-! ## A run -/

section Run

variable {m : Machine}

/-- A run goes on from where its first step leads, without the proof that it ends. -/
theorem runWithin_step (source : List UInt8) (limit : Nat) (m : Machine) :
    m.runWithin source limit =
      match m.advanceWithin source limit with
      | .error fault => .error fault
      | .ok (.done made scopes) => .ok (made, scopes)
      | .ok (.more next) => next.runWithin source limit := by
  rw [runWithin]
  split <;> rename_i h <;> rw [h]

/-- A machine that is done asks for nothing. -/
theorem advanceWithin_of_done (limit : Nat) {made : List Child} {scopes : Scopes}
    (h : m.advance source = .ok (.done made scopes)) :
    m.advanceWithin source limit = .ok (.done made scopes) := by
  obtain ⟨steps, made', waiting, scopes'⟩ := m
  cases steps with
  | nil =>
      show (advance source ⟨[], made', waiting, scopes'⟩).mapError _ = _
      rw [h]
      rfl
  | cons s rest =>
      obtain ⟨next, hmore, -⟩ := advance_cons h
      exact absurd hmore (by simp)

/-- Until it is done, a machine comes to everything that it is still to be asked for; it
breaks off exactly if the targets of some of that are nested too deep. -/
theorem runWithin_eq {p : List Child × Scopes} (limit : Nat) (h : m.run source = .ok p) :
    m.runWithin source limit =
      if ∀ c ∈ m.ahead source, c.nesting ≤ limit then .ok p else .error .tooDeep := by
  fun_induction run source m with
  | case1 m fault hadvance => exact absurd h (by simp)
  | case2 m made scopes hadvance =>
      obtain rfl : (made, scopes) = p := Except.ok.inj h
      rw [runWithin_step, advanceWithin_of_done limit hadvance, ahead_of_done hadvance,
        if_pos (List.forall_mem_nil _)]
  | case3 m next hadvance ih =>
      have hstep := advanceWithin_eq source limit m
      rw [hadvance] at hstep
      simp only [ahead_advance hadvance, List.forall_mem_append, Option.mem_toList]
      by_cases hroom : ∀ c ∈ m.steps.head?.bind Step.request?, c.nesting ≤ limit
      · rw [if_pos hroom] at hstep
        rw [runWithin_step, hstep]
        show next.runWithin source limit = _
        rw [ih h]
        by_cases hrest : ∀ c ∈ next.ahead source, c.nesting ≤ limit
        · rw [if_pos hrest, if_pos ⟨hroom, hrest⟩]
        · rw [if_neg hrest, if_neg fun hall => hrest hall.2]
      · rw [if_neg hroom] at hstep
        rw [runWithin_step, hstep, if_neg fun hall => hroom hall.1]

end Run

end Machine

/-! ## A file -/

namespace Cst

/-- The grammar nodes that are converted on the way to the simplified tree of a file. -/
def convertedBelow (source : List UInt8) (root : Cst) : List Cst :=
  Step.convertedAll source root.programSteps

theorem buildWithin_eq (source : List UInt8) (limit : Nat) (root : Cst) :
    root.buildWithin source limit =
      if ∀ c ∈ root.convertedBelow source, c.nesting ≤ limit then
        .ok (root.simplify source, [])
      else .error .tooDeep := by
  have hahead : Machine.ahead source ⟨root.programSteps, [], [], []⟩ =
      root.convertedBelow source := by
    rw [Machine.ahead, List.flatMap_nil, List.append_nil, convertedBelow]
  rw [buildWithin, Machine.runWithin_eq limit (run_programSteps source root), hahead]
  split <;> rfl

/-- What is converted is in the file. -/
theorem convertedBelow_subset (source : List UInt8) (root : Cst) :
    root.convertedBelow source ⊆ root.preorder := by
  have hahead := Machine.requests_eq (run_programSteps source root)
  rw [Machine.ahead, List.flatMap_nil, List.append_nil] at hahead
  have hsub := (requests_subperm source root).subset
  rw [hahead] at hsub
  exact fun c hc => hsub (List.mem_cons_of_mem _ hc)

/-- **Three ways to simplify.** With room for a number of lists of targets inside each
other, the machine comes to the tree that the recursion on the concrete syntax
tree describes, without a fault and with no scope left open, exactly if no
construct that is converted has its targets nested deeper; otherwise it breaks
off. However deep a file is nested otherwise makes no difference, and a large
enough limit is no limit: then, and without a limit, the machine always comes to
that tree. So does the recursion over plans, which has the stack of scopes
handed from step to step; on the way it changes the innermost scope only. -/
theorem buildWithin_eq_simplify (source : List UInt8) (root : Cst) :
    (∀ limit,
      (root.buildWithin source limit = .ok (root.simplify source, []) ↔
        ∀ c ∈ root.convertedBelow source, c.nesting ≤ limit) ∧
      (root.buildWithin source limit = .error .tooDeep ↔
        ∃ c ∈ root.convertedBelow source, limit < c.nesting)) ∧
    root.convertedBelow source ⊆ root.preorder ∧
    root.build source = .ok (root.simplify source, []) ∧
    Step.performAll source root.programSteps [] = .ok ((root.simplify source).children, []) ∧
    ∀ (c : Cst) (top : NameSet) (below : Scopes),
      c.perform source (top :: below) =
        .ok (Made.children (convert source c top), (convert source c top).2 :: below) := by
  refine ⟨fun limit => ?_, convertedBelow_subset source root, build_eq source root,
    performAll_programSteps source root, perform_eq source⟩
  rw [buildWithin_eq]
  by_cases hroom : ∀ c ∈ root.convertedBelow source, c.nesting ≤ limit
  · have hnone : ¬ ∃ c ∈ root.convertedBelow source, limit < c.nesting := by
      rintro ⟨c, hc, hdeep⟩
      exact absurd (hroom c hc) (Nat.not_le.2 hdeep)
    rw [if_pos hroom]
    exact ⟨iff_of_true rfl hroom, iff_of_false (by simp) hnone⟩
  · have hsome : ∃ c ∈ root.convertedBelow source, limit < c.nesting := by
      simpa using hroom
    rw [if_neg hroom]
    exact ⟨iff_of_false (by simp) hroom, iff_of_true rfl hsome⟩

/-! ### Targets nested too deep -/

/-- A bare word in as many parentheses on either side, and a value. -/
def nestedSource (n : Nat) : List UInt8 :=
  List.replicate n 0x28 ++ 0x61 :: (List.replicate n 0x29 ++ [0x20, 0x3D, 0x20, 0x31])

/-- The word in the innermost `k` of `n` parentheses. -/
def nestedTarget (n : Nat) : Nat → Cst
  | 0 => .mk { type := "identifier", startByte := n, endByte := n + 1, column := n } []
  | k + 1 =>
    .mk
      { type := "destructured_left_assignment"
        startByte := n - (k + 1)
        endByte := n + 1 + (k + 1)
        column := n - (k + 1) }
      [nestedTarget n k]

/-- The value behind the targets. -/
def nestedValue (n : Nat) : Cst :=
  .mk
    { type := "integer"
      field := some "right"
      startByte := 2 * n + 4
      endByte := 2 * n + 5
      column := 2 * n + 4 }
    []

/-- An assignment to a bare word in `n` parentheses, each of them a list of targets. -/
def nestedAssignment (n : Nat) : Cst :=
  .mk { type := "assignment", endByte := 2 * n + 5 }
    [.mk { type := "left_assignment_list", field := some "left", endByte := 2 * n + 1 }
        [nestedTarget n n],
      nestedValue n]

/-- A file with nothing else in it. -/
def nestedFile (n : Nat) : Cst :=
  .mk { type := "program", endByte := 2 * n + 5 } [nestedAssignment n]

/-- What becomes of it by recursion. -/
def flatAssignment : Node :=
  .mk ⟨.program, none, "program", 1⟩
    [.node (.mk ⟨.other, none, "assignment", 1⟩
      [.node (.mk ⟨.localAssignment, some "a", "identifier", 1⟩ [.text "a"]),
        .node (.mk ⟨.literal, none, "integer", 1⟩ [.text "1"])])]

theorem targetDepth_nestedTarget (n k : Nat) :
    targetDepthAll [nestedTarget n k] = k := by
  induction k with
  | zero => rfl
  | succ k ih =>
      have hdepth : (nestedTarget n (k + 1)).targetDepth = k + 1 := by
        rw [nestedTarget, targetDepth, ih]
      show max (nestedTarget n (k + 1)).targetDepth 0 = k + 1
      rw [hdepth, Nat.max_zero]

/-- However many the parentheses, a single target is in them. -/
theorem targetsIn_nestedTarget (source : List UInt8) (n k : Nat) (locals : NameSet) :
    targetsIn source [nestedTarget n k] locals = assigned source (nestedTarget n 0) locals := by
  induction k with
  | zero => rfl
  | succ k ih =>
      have hlist : targetsIn source [nestedTarget n (k + 1)] locals =
          ((targetsIn source [nestedTarget n k] locals).1 ++ [],
            (targetsIn source [nestedTarget n k] locals).2) := rfl
      rw [hlist, List.append_nil, ih]

theorem slice_append_cons (xs ys : List UInt8) (b : UInt8) :
    slice (xs ++ b :: ys) xs.length (xs.length + 1) = [b] := by
  simp [slice]

theorem text_nestedTarget (n : Nat) : (nestedTarget n 0).text (nestedSource n) = "a" := by
  have hslice := slice_append_cons (List.replicate n 0x28)
    (List.replicate n 0x29 ++ [0x20, 0x3D, 0x20, 0x31]) 0x61
  rw [List.length_replicate] at hslice
  show String.ofList (Utf8.decode (slice (nestedSource n) n (n + 1))) = "a"
  rw [nestedSource, hslice]
  rfl

theorem text_nestedValue (n : Nat) : (nestedValue n).text (nestedSource n) = "1" := by
  have hslice := slice_append_cons
    (List.replicate n 0x28 ++ 0x61 :: (List.replicate n 0x29 ++ [0x20, 0x3D, 0x20])) [] 0x31
  have hlength : (List.replicate n 0x28 ++
      0x61 :: (List.replicate n 0x29 ++ [0x20, 0x3D, 0x20]) : List UInt8).length = 2 * n + 4 := by
    simp only [List.length_append, List.length_cons, List.length_replicate, List.length_nil]
    omega
  rw [hlength] at hslice
  have hsource : nestedSource n = List.replicate n 0x28 ++
      0x61 :: (List.replicate n 0x29 ++ [0x20, 0x3D, 0x20]) ++ [0x31] := by
    simp [nestedSource]
  show String.ofList (Utf8.decode (slice (nestedSource n) (2 * n + 4) (2 * n + 5))) = "1"
  rw [hsource, hslice]
  rfl

theorem simplify_nestedFile (n : Nat) :
    (nestedFile n).simplify (nestedSource n) = flatAssignment := by
  have htargets := targetsIn_nestedTarget (nestedSource n) n n ∅
  have hassignment : convert (nestedSource n) (nestedAssignment n) ∅ =
      ([.mk ⟨.other, none, "assignment", 1⟩
        (Made.children ((targetsIn (nestedSource n) [nestedTarget n n] ∅).1 ++
          [.mk ⟨.literal, none, "integer", 1⟩ [.text ((nestedValue n).text (nestedSource n))]],
          (targetsIn (nestedSource n) [nestedTarget n n] ∅).2))],
        (targetsIn (nestedSource n) [nestedTarget n n] ∅).2) := rfl
  have hfile : (nestedFile n).simplify (nestedSource n) = .mk ⟨.program, none, "program", 1⟩
      (Made.children ((convert (nestedSource n) (nestedAssignment n) ∅).1 ++ [], ∅)) := rfl
  rw [hfile, hassignment, htargets, assigned, text_nestedTarget, text_nestedValue]
  rfl

theorem nesting_nestedAssignment (n : Nat) : (nestedAssignment n).nesting = n + 1 := by
  show targetDepthAll [nestedTarget n n] + 1 = n + 1
  rw [targetDepth_nestedTarget]

theorem mem_convertedBelow_nestedFile (n : Nat) :
    nestedAssignment n ∈ (nestedFile n).convertedBelow (nestedSource n) := by
  show _ ∈ Step.convertedAll _ (.openScope false :: .convert (nestedAssignment n) :: _)
  rw [Step.convertedAll_cons, Step.convertedAll_cons, Step.converted_eq, Step.converted_eq]
  simp [Step.request?, converted]

/-- A list of targets nested deeper than usual, and the tree that should come of it. -/
theorem nested_targets_break_off :
    (nestedFile 1000).buildWithin (nestedSource 1000) usualLimit = .error .tooDeep ∧
    (nestedFile 1000).simplify (nestedSource 1000) = flatAssignment := by
  refine ⟨?_, simplify_nestedFile 1000⟩
  rw [buildWithin_eq, if_neg]
  intro hall
  have hle := hall _ (mem_convertedBelow_nestedFile 1000)
  rw [nesting_nestedAssignment, usualLimit] at hle
  omega

end Cst

/-- With a limit a source file comes to the tree that it comes to without one, or to none
because its targets are nested too deep; a fault found by the grammar is reported
first. -/
theorem Source.parseWithin_eq (limit : Nat) (grammar : Grammar) (path : String)
    (source : List UInt8) :
    parseWithin limit grammar path source =
      match parse grammar path source with
      | .error f => .error (.failure f)
      | .ok tree =>
        if ∀ c ∈ (grammar source).root.convertedBelow source, c.nesting ≤ limit then .ok tree
        else .error .tooDeep := by
  unfold parseWithin parse
  cases hfault : (grammar source).fault? with
  | some c => simp only [hfault]
  | none =>
      simp only [hfault, Cst.buildWithin_eq, Cst.build_eq]
      by_cases hroom : ∀ c ∈ (grammar source).root.convertedBelow source, c.nesting ≤ limit
      · rw [if_pos hroom, if_pos hroom]
      · rw [if_neg hroom, if_neg hroom]

end RubySmells
