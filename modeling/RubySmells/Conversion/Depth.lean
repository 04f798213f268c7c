import RubySmells.Conversion.Machine

/-!
# How deep targets may nest

The machine follows plans without recursion, with one exception: the targets of
a multiple assignment are taken apart by a function that calls itself for every
list of targets inside another one. There is room for a limited number of calls
inside each other, and a list nested deeper breaks the conversion off, whatever
else is in the file.

The limit counts lists of targets inside each other. What else is under way when
the first of them is come to takes up room as well, so the limit is a parameter.

* **targets** — `Cst.targetsWithin` takes targets apart as `Cst.targets` does, as
  long as no more lists than allowed are inside each other
  (`Cst.targetsWithin_eq`);
* **plans and steps** — with a limit, plans are the same and lead to the same
  steps, or there is none (`Cst.planWithin_eq`, `Machine.advanceWithin_eq`).
-/

namespace RubySmells

/-- What goes wrong on the way to a simplified tree. -/
inductive BuildFault
  | scope (fault : ScopeFault)
  /-- Lists of targets are nested deeper than there is room for. -/
  | tooDeep
  deriving DecidableEq, Repr

/-- A fault in words. -/
def BuildFault.message : BuildFault → String
  | .scope fault => fault.message
  | .tooDeep => "maximum recursion depth exceeded"

/-- The limit that is kept to where no other one is given. -/
def usualLimit : Nat := 1000

/-! ## Targets -/

namespace Cst

mutual

/-- The targets of a multiple assignment, with room for a number of lists inside
each other. -/
def targetsWithin (source : List UInt8) : Nat → Cst → Except BuildFault (List Step)
  | 0, _ => .error .tooDeep
  | room + 1, .mk _ cs => targetsAllWithin source room cs

/-- The targets among a list of siblings, with room for a number of lists inside
each other below them. -/
def targetsAllWithin (source : List UInt8) (room : Nat) :
    List Cst → Except BuildFault (List Step)
  | [] => .ok []
  | c :: cs => do
    let first ←
      if !c.named then .ok []
      else if c.role = .identifier then .ok (assignTarget source c)
      else if c.type = "rest_assignment" ∨ c.type = "destructured_left_assignment" ∨
          c.type = "left_assignment_list" then targetsWithin source room c
      else .ok [.convert c]
    let more ← targetsAllWithin source room cs
    return first ++ more

end

mutual

/-- How many lists of targets are inside each other, with the node itself as the
outermost. -/
def targetDepth : Cst → Nat
  | .mk _ cs => targetDepthAll cs + 1

/-- How many lists of targets are inside each other among siblings. -/
def targetDepthAll : List Cst → Nat
  | [] => 0
  | c :: cs =>
    let first :=
      if !c.named then 0
      else if c.role = .identifier then 0
      else if c.type = "rest_assignment" ∨ c.type = "destructured_left_assignment" ∨
          c.type = "left_assignment_list" then targetDepth c
      else 0
    max first (targetDepthAll cs)

end

/-- There is room for two parts one after the other if there is for the deeper one. -/
theorem bind_within {room a b : Nat} {xs ys : List Step} :
    ((if a ≤ room then .ok xs else .error .tooDeep : Except BuildFault (List Step)) >>= fun first =>
      (if b ≤ room then .ok ys else .error .tooDeep) >>= fun more => pure (first ++ more)) =
      if max a b ≤ room then .ok (xs ++ ys) else .error .tooDeep := by
  by_cases ha : a ≤ room
  · by_cases hb : b ≤ room
    · rw [if_pos ha, if_pos hb, if_pos (Nat.max_le.2 ⟨ha, hb⟩)]
      rfl
    · rw [if_pos ha, if_neg hb, if_neg fun h => hb (Nat.max_le.1 h).2]
      rfl
  · rw [if_neg ha, if_neg fun h => ha (Nat.max_le.1 h).1]
    rfl

mutual

/-- Targets are taken apart if there is room for all the lists inside each other. -/
theorem targetsWithin_eq (source : List UInt8) (room : Nat) : ∀ c : Cst,
    targetsWithin source room c =
      if c.targetDepth ≤ room then .ok (targets source c) else .error .tooDeep
  | .mk i cs => by
      cases room with
      | zero => simp [targetsWithin, targetDepth]
      | succ room =>
          rw [targetsWithin, targetsAllWithin_eq source room cs, targetDepth, targets]
          simp only [Nat.add_le_add_iff_right]

theorem targetsAllWithin_eq (source : List UInt8) (room : Nat) : ∀ cs : List Cst,
    targetsAllWithin source room cs =
      if targetDepthAll cs ≤ room then .ok (targetsAll source cs) else .error .tooDeep
  | [] => by simp [targetsAllWithin, targetDepthAll, targetsAll]
  | c :: cs => by
      have hlist := targetsWithin_eq source room c
      rw [targetsAllWithin, targetDepthAll, targetsAll, targetsAllWithin_eq source room cs,
        ← bind_within]
      -- Only a list inside the list needs room of its own.
      split
      · rw [if_pos room.zero_le]
      · split
        · rw [if_pos room.zero_le]
        · split
          · rw [hlist]
          · rw [if_pos room.zero_le]

end

/-! ## Plans -/

/-- The list of targets that a construct takes apart, if it takes one apart, and
the parts of the construct that are simplified after the targets. -/
def targetList? (c : Cst) : Option (Cst × List Cst) :=
  match c.role with
  | .assignment =>
    match c.child? "left" with
    | some left =>
      if left.type = "left_assignment_list" then some (left, c.others ["left"]) else none
    | none => none
  | .loop =>
    match c.child? "pattern" with
    | some pattern =>
      if pattern.role = .identifier then none else some (pattern, c.others ["pattern"])
    | none => none
  | .exceptionVariable => some (c, [])
  | _ => none

/-- How a grammar node is simplified, with room for a number of lists of targets
inside each other. -/
def planWithin (source : List UInt8) (limit : Nat) (c : Cst) : Except BuildFault Plan :=
  match c.targetList? with
  | some (list, rest) => do
    let targets ← list.targetsWithin source limit
    return ⟨targets ++ each rest, .wrap (c.header .other none)⟩
  | none => .ok (c.plan source)

/-- How many lists of targets are inside each other in what a construct takes
apart. -/
def nesting (c : Cst) : Nat :=
  match c.targetList? with
  | some (list, _) => list.targetDepth
  | none => 0

/-- A construct with a list of targets is simplified by taking the list apart. -/
theorem plan_of_targetList? {source : List UInt8} {c list : Cst} {rest : List Cst}
    (h : c.targetList? = some (list, rest)) :
    c.plan source = ⟨targets source list ++ each rest, .wrap (c.header .other none)⟩ := by
  unfold targetList? at h
  split at h
  · rename_i hr
    split at h
    · rename_i left hleft
      split at h
      · rename_i hlist
        obtain ⟨rfl, rfl⟩ : left = list ∧ c.others ["left"] = rest := by simpa using h
        have hword : left.role ≠ .identifier := by
          rw [role, hlist]
          decide
        simp only [plan, hr, assignmentPlan, hleft, if_neg hword, if_pos hlist]
      · exact absurd h (by simp)
    · exact absurd h (by simp)
  · rename_i hr
    split at h
    · rename_i pattern hpattern
      split at h
      · exact absurd h (by simp)
      · rename_i hword
        obtain ⟨rfl, rfl⟩ : pattern = list ∧ c.others ["pattern"] = rest := by simpa using h
        simp only [plan, hr, loopPlan, loopTarget, hpattern, if_neg hword]
    · exact absurd h (by simp)
  · rename_i hr
    obtain ⟨rfl, rfl⟩ : c = list ∧ [] = rest := by simpa using h
    simp only [plan, hr, each, List.map_nil, List.append_nil]
  · exact absurd h (by simp)

/-- The plan of a construct is the same as without a limit, unless its targets are
nested too deep. -/
theorem planWithin_eq (source : List UInt8) (limit : Nat) (c : Cst) :
    c.planWithin source limit =
      if c.nesting ≤ limit then .ok (c.plan source) else .error .tooDeep := by
  rw [planWithin, nesting]
  cases h : c.targetList? with
  | none => rw [if_pos limit.zero_le]
  | some p =>
      obtain ⟨list, rest⟩ := p
      simp only [targetsWithin_eq, plan_of_targetList? h]
      split <;> rfl

end Cst

/-! ## Steps -/

namespace Machine

/-- Leaves the current plan for another one. -/
def enter (m : Machine) (plan : Plan) (slot : Option Header) (rest : List Step) : Machine :=
  { m with
    steps := plan.steps
    made := []
    waiting := ⟨plan.closing, slot, m.made, rest⟩ :: m.waiting }

/-- One step, or the end of a plan, with room for a number of lists of targets
inside each other. -/
def advanceWithin (source : List UInt8) (limit : Nat) (m : Machine) :
    Except BuildFault Progress :=
  match m.steps with
  | .convert c :: rest => do
    let plan ← c.planWithin source limit
    return .more (m.enter plan none rest)
  | .slot c :: rest => do
    let plan ← c.planWithin source limit
    return .more (m.enter plan (some (c.header .other none)) rest)
  | _ => (m.advance source).mapError .scope

theorem eq_ok_of_mapError {p : Progress} {r : Except ScopeFault Progress}
    (h : r.mapError BuildFault.scope = .ok p) : r = .ok p := by
  cases r with
  | error fault =>
      have h : Except.error (BuildFault.scope fault) = Except.ok p := h
      exact absurd h (by simp)
  | ok q => exact congrArg Except.ok (Except.ok.inj h)

/-- A step for which there is room leads where it leads without a limit. -/
theorem advance_of_advanceWithin {source : List UInt8} {limit : Nat} {m : Machine}
    {p : Progress} (h : m.advanceWithin source limit = .ok p) : m.advance source = .ok p := by
  obtain ⟨steps, made, waiting, scopes⟩ := m
  cases steps with
  | nil => exact eq_ok_of_mapError h
  | cons s rest =>
      cases s with
      | convert c | slot c =>
          simp only [advanceWithin, Cst.planWithin_eq] at h
          split at h
          · exact congrArg Except.ok (Except.ok.inj h)
          · exact absurd h (by simp [bind, Except.bind])
      | declare names | emit child | resolve word | openScope inherits | closeScope =>
          exact eq_ok_of_mapError h

/-- Takes steps until every plan has ended, with room for a number of lists of
targets inside each other. -/
def runWithin (source : List UInt8) (limit : Nat) (m : Machine) :
    Except BuildFault (List Child × Scopes) :=
  match _h : m.advanceWithin source limit with
  | .error fault => .error fault
  | .ok (.done made scopes) => .ok (made, scopes)
  | .ok (.more next) => runWithin source limit next
  termination_by m.work
  decreasing_by exact work_advance (advance_of_advanceWithin (by assumption))

end Machine

/-- The simplified tree of a whole source file, and the scopes open at its end,
with room for a number of lists of targets inside each other. -/
def Cst.buildWithin (source : List UInt8) (limit : Nat) (root : Cst) :
    Except BuildFault (Node × Scopes) := do
  let (made, scopes) ← Machine.runWithin source limit ⟨root.programSteps, [], [], []⟩
  return (.mk (root.header .program none) made, scopes)

end RubySmells
