import RubySmells.Conversion.Recursive

/-!
# Following plans by recursion

The machine that follows plans keeps what waits on a stack. Here the same plans
are followed by recursion, with the scopes handed from step to step
(`Step.perform`, `Step.performAll`, `Cst.perform`), and the machine is shown to
do just that: with any steps after them, and any plans waiting, it takes some
steps to where the recursion leads, or to the same fault
(`Machine.run_append`).
-/

namespace RubySmells

/-! ## By recursion -/

theorem Step.work_pos (s : Step) : 0 < s.work := by
  cases s with
  | convert c | slot c =>
      have := c.size_pos
      simp only [Step.work, Cst.work]
      omega
  | _ => exact Nat.one_pos

mutual

/-- The children that a step adds, and the scopes after it. -/
def Step.perform (source : List UInt8) (s : Step) (scopes : Scopes) :
    Except ScopeFault (List Child × Scopes) :=
  match s with
  | .declare names => do
    let scopes ← scopes.declare names
    return ([], scopes)
  | .emit child => .ok ([child], scopes)
  | .resolve word =>
    .ok ([.node (word.resolved source (scopes.knows (word.text source)))], scopes)
  | .convert c => c.perform source scopes
  | .slot c => do
    let (made, scopes) ← c.perform source scopes
    return ([Child.single (c.header .other none) made], scopes)
  | .openScope inherits => .ok ([], scopes.push inherits)
  | .closeScope => do
    let scopes ← scopes.pop
    return ([], scopes)
  termination_by 3 * s.work + 1
  decreasing_by
    · simp only [Step.work]
      omega
    · simp only [Step.work]
      omega

/-- The children that several steps add, and the scopes after them. -/
def Step.performAll (source : List UInt8) (steps : List Step) (scopes : Scopes) :
    Except ScopeFault (List Child × Scopes) :=
  match steps with
  | [] => .ok ([], scopes)
  | s :: rest => do
    let (first, scopes) ← s.perform source scopes
    let (more, scopes) ← Step.performAll source rest scopes
    return (first ++ more, scopes)
  termination_by 3 * Step.workAll steps + 2
  decreasing_by
    · simp only [Step.workAll_cons]
      omega
    · have := s.work_pos
      simp only [Step.workAll_cons]
      omega

/-- What a grammar node becomes when its plan is followed. -/
def Cst.perform (source : List UInt8) (c : Cst) (scopes : Scopes) :
    Except ScopeFault (List Child × Scopes) := do
  let (made, scopes) ← Step.performAll source (c.plan source).steps scopes
  return ((c.plan source).closing.apply made, scopes)
  termination_by 3 * c.work
  decreasing_by
    have := c.work_plan source
    omega

end

theorem Step.performAll_nil (source : List UInt8) (scopes : Scopes) :
    Step.performAll source [] scopes = .ok ([], scopes) := by
  rw [Step.performAll]

theorem Step.performAll_cons (source : List UInt8) (s : Step) (rest : List Step)
    (scopes : Scopes) :
    Step.performAll source (s :: rest) scopes = (do
      let (first, scopes) ← s.perform source scopes
      let (more, scopes) ← Step.performAll source rest scopes
      return (first ++ more, scopes)) := by
  rw [Step.performAll]

theorem Step.performAll_singleton (source : List UInt8) (s : Step) (scopes : Scopes) :
    Step.performAll source [s] scopes = s.perform source scopes := by
  rw [Step.performAll_cons]
  cases s.perform source scopes with
  | error fault => rfl
  | ok p =>
      show (Step.performAll source [] p.2 >>= _) = _
      rw [Step.performAll_nil]
      simp [bind, Except.bind, pure, Except.pure]

theorem Step.performAll_append (source : List UInt8) (xs ys : List Step) (scopes : Scopes) :
    Step.performAll source (xs ++ ys) scopes = (do
      let (first, scopes) ← Step.performAll source xs scopes
      let (more, scopes) ← Step.performAll source ys scopes
      return (first ++ more, scopes)) := by
  induction xs generalizing scopes with
  | nil =>
      rw [Step.performAll_nil]
      show Step.performAll source ys scopes = (Step.performAll source ys scopes >>= _)
      cases Step.performAll source ys scopes <;> rfl
  | cons s xs ih =>
      rw [List.cons_append, Step.performAll_cons, Step.performAll_cons]
      simp only [bind_assoc, ih]
      refine bind_congr fun p => ?_
      refine bind_congr fun q => ?_
      simp

/-! ## With a stack -/

namespace Machine

theorem run_of_more {source : List UInt8} {m next : Machine}
    (h : m.advance source = .ok (.more next)) : m.run source = next.run source := by
  rw [run]
  split
  · rename_i h'
    exact absurd (h.symm.trans h') (by simp)
  · rename_i h'
    exact absurd (h.symm.trans h') (by simp)
  · rename_i next' h'
    obtain rfl : next = next' := by simpa using h.symm.trans h'
    rfl

theorem run_of_done {source : List UInt8} {m : Machine} {made : List Child} {scopes : Scopes}
    (h : m.advance source = .ok (.done made scopes)) : m.run source = .ok (made, scopes) := by
  rw [run]
  split
  · rename_i h'
    exact absurd (h.symm.trans h') (by simp)
  · rename_i made' scopes' h'
    obtain ⟨rfl, rfl⟩ : made = made' ∧ scopes = scopes' := by simpa using h.symm.trans h'
    rfl
  · rename_i h'
    exact absurd (h.symm.trans h') (by simp)

theorem run_of_error {source : List UInt8} {m : Machine} {fault : ScopeFault}
    (h : m.advance source = .error fault) : m.run source = .error fault := by
  rw [run]
  split
  · rename_i fault' h'
    obtain rfl : fault = fault' := by simpa using h.symm.trans h'
    rfl
  · rename_i h'
    exact absurd (h.symm.trans h') (by simp)
  · rename_i h'
    exact absurd (h.symm.trans h') (by simp)

/-- The machine takes some steps to where the recursion leads. -/
def Simulates (source : List UInt8) (steps : List Step) : Prop :=
  ∀ rest made waiting scopes,
    run source ⟨steps ++ rest, made, waiting, scopes⟩ =
      (Step.performAll source steps scopes >>= fun p =>
        run source ⟨rest, made ++ p.1, waiting, p.2⟩)

theorem run_ask {source : List UInt8} {c : Cst} (h : Simulates source (c.plan source).steps)
    (slot : Option Header) (rest : List Step) (made : List Child) (waiting : List Waiting)
    (steps : List Step) (scopes : Scopes) :
    run source (ask source ⟨steps, made, waiting, scopes⟩ c slot rest) =
      (c.perform source scopes >>= fun p =>
        run source ⟨rest, made ++ (match slot with
          | none => p.1
          | some h => [Child.single h p.1]), waiting, p.2⟩) := by
  have hplan := h [] [] (⟨(c.plan source).closing, slot, made, rest⟩ :: waiting) scopes
  rw [List.append_nil] at hplan
  rw [ask, Cst.perform]
  simp only
  rw [hplan, bind_assoc]
  refine bind_congr fun p => ?_
  -- The plan has ended, and what it made is handed over.
  rw [run_of_more rfl]
  cases slot <;> rfl

/-- One step, given the plans of the nodes it may ask for. -/
theorem run_step {source : List UInt8} {s : Step}
    (h : ∀ c, s = .convert c ∨ s = .slot c → Simulates source (c.plan source).steps)
    (rest : List Step) (made : List Child) (waiting : List Waiting) (scopes : Scopes) :
    run source ⟨s :: rest, made, waiting, scopes⟩ =
      (s.perform source scopes >>= fun p =>
        run source ⟨rest, made ++ p.1, waiting, p.2⟩) := by
  cases s with
  | declare names =>
      rw [Step.perform]
      cases hd : scopes.declare names with
      | error fault =>
          have hadvance : advance source ⟨.declare names :: rest, made, waiting, scopes⟩ =
              .error fault := by
            simp only [advance, hd]
            rfl
          rw [run_of_error hadvance]
          rfl
      | ok scopes' =>
          rw [run_of_more (by simp only [advance, hd]; rfl)]
          simp [bind, Except.bind, pure, Except.pure]
  | closeScope =>
      rw [Step.perform]
      cases hd : scopes.pop with
      | error fault =>
          have hadvance : advance source ⟨.closeScope :: rest, made, waiting, scopes⟩ =
              .error fault := by
            simp only [advance, hd]
            rfl
          rw [run_of_error hadvance]
          rfl
      | ok scopes' =>
          rw [run_of_more (by simp only [advance, hd]; rfl)]
          simp [bind, Except.bind, pure, Except.pure]
  | emit child =>
      rw [Step.perform]
      exact run_of_more rfl
  | resolve word =>
      rw [Step.perform]
      exact run_of_more rfl
  | openScope inherits =>
      rw [Step.perform, run_of_more rfl]
      simp [bind, Except.bind]
  | convert c =>
      rw [Step.perform, run_of_more rfl, run_ask (h c (.inl rfl))]
  | slot c =>
      rw [Step.perform, run_of_more rfl, run_ask (h c (.inr rfl)), bind_assoc]
      rfl

/-- **Stack and recursion.** Whatever comes after some steps, and whatever waits,
the machine goes on from where the recursion over these steps ends. -/
theorem run_append (source : List UInt8) (steps : List Step) : Simulates source steps := by
  -- On the work in the steps: the plan of a node is less work than the step
  -- that asks for the node.
  generalize hn : Step.workAll steps = n
  induction n using Nat.strongRecOn generalizing steps with
  | ind n ih =>
      subst hn
      intro rest made waiting scopes
      cases steps with
      | nil =>
          rw [Step.performAll_nil]
          simp [bind, Except.bind]
      | cons s tail =>
          have hplan : ∀ c, s = .convert c ∨ s = .slot c →
              Simulates source (c.plan source).steps := by
            intro c hs
            have hwork := c.work_plan source
            refine ih _ ?_ _ rfl
            rcases hs with rfl | rfl <;>
              simp only [Step.workAll_cons, Step.work] <;> omega
          have htail : Simulates source tail := by
            have hpos := s.work_pos
            refine ih _ ?_ _ rfl
            simp only [Step.workAll_cons]
            omega
          rw [List.cons_append, run_step hplan, Step.performAll_cons, bind_assoc]
          refine bind_congr fun p => ?_
          rw [htail, bind_assoc]
          refine bind_congr fun q => ?_
          rw [List.append_assoc]
          rfl

end Machine

end RubySmells
