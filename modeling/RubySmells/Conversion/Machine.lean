import RubySmells.Conversion.Plan
import RubySmells.NameSet

/-!
# Following plans

A machine that simplifies a concrete syntax tree without recursion, however
deep the tree is. It takes the steps of the current plan in order. When a step
asks for a grammar node, the rest of the current plan is put on a stack
(`Waiting`) and the plan of that node becomes the current one; when a plan
ends, what it made is handed to the plan on top of the stack. Only for lists of
targets inside each other does a plan need recursion; here there is room for any
number of them, and `RubySmells.Conversion.Depth` sets a limit.

The locals known at each moment are a stack of scopes, the innermost first.
Declaring a local and closing a scope need a scope to act on, and fail without
one (`ScopeFault`).
-/

namespace RubySmells

/-- The locals of the open scopes, innermost scope first. -/
abbrev Scopes := List NameSet

/-- What goes wrong without an open scope. -/
inductive ScopeFault
  /-- A local is declared outside every scope. -/
  | declaredOutside
  /-- A scope is closed that was never opened. -/
  | closedOutside
  deriving DecidableEq, Repr

/-- A fault in words. -/
def ScopeFault.message : ScopeFault → String
  | .declaredOutside => "local declared outside every scope"
  | .closedOutside => "scope closed that was never opened"

namespace Scopes

/-- Adds locals to the innermost scope. -/
def declare (names : List String) : Scopes → Except ScopeFault Scopes
  | [] => .error .declaredOutside
  | top :: below => .ok (top.insertAll names :: below)

/-- Opens a scope, which starts with the locals of the innermost one or with
none. -/
def push (inherits : Bool) (scopes : Scopes) : Scopes :=
  match inherits, scopes with
  | true, top :: below => top :: top :: below
  | _, scopes => ∅ :: scopes

/-- Closes the innermost scope. -/
def pop : Scopes → Except ScopeFault Scopes
  | [] => .error .closedOutside
  | _ :: below => .ok below

/-- Whether a name is a local of the innermost scope. -/
def knows (scopes : Scopes) (name : String) : Bool :=
  match scopes with
  | [] => false
  | top :: _ => decide (name ∈ top)

end Scopes

/-- A bare word as a node: a variable if it is a known local, else a call
without receiver. -/
def Cst.resolved (source : List UInt8) (c : Cst) (isLocal : Bool) : Node :=
  let name := c.text source
  if isLocal then .mk (c.header .localVariable (some name)) [.text name]
  else .mk (c.header .call (some name)) [.absent, .text name]

/-- A plan that waits for a grammar node it asked for. -/
structure Waiting where
  /-- How the plan of that node closes. -/
  closing : Closing
  /-- The header to use if what it becomes has to be exactly one child. -/
  slot : Option Header
  /-- The children collected before. -/
  made : List Child
  /-- The steps to take afterwards. -/
  steps : List Step

/-- What a waiting plan makes of the children handed to it. -/
def Waiting.receive (w : Waiting) (children : List Child) : List Child :=
  let closed := w.closing.apply children
  match w.slot with
  | none => closed
  | some h => [Child.single h closed]

/-- The machine between two steps. -/
structure Machine where
  /-- The steps left of the current plan. -/
  steps : List Step
  /-- The children it has collected. -/
  made : List Child
  /-- The plans that wait, the one to be handed the next result first. -/
  waiting : List Waiting
  scopes : Scopes

namespace Machine

/-- What a step leads to. -/
inductive Progress
  /-- Every plan has ended. -/
  | done (made : List Child) (scopes : Scopes)
  | more (next : Machine)

/-- Leaves the current plan for the plan of a grammar node. -/
def ask (source : List UInt8) (m : Machine) (c : Cst) (slot : Option Header)
    (rest : List Step) : Machine :=
  let plan := c.plan source
  { m with
    steps := plan.steps
    made := []
    waiting := ⟨plan.closing, slot, m.made, rest⟩ :: m.waiting }

/-- One step, or the end of a plan. -/
def advance (source : List UInt8) (m : Machine) : Except ScopeFault Progress :=
  match m.steps with
  | [] =>
    match m.waiting with
    | [] => .ok (.done m.made m.scopes)
    | w :: ws =>
      .ok (.more ⟨w.steps, w.made ++ w.receive m.made, ws, m.scopes⟩)
  | .declare names :: rest => do
    let scopes ← m.scopes.declare names
    return .more { m with steps := rest, scopes := scopes }
  | .emit child :: rest => .ok (.more { m with steps := rest, made := m.made ++ [child] })
  | .resolve word :: rest =>
    let node := word.resolved source (m.scopes.knows (word.text source))
    .ok (.more { m with steps := rest, made := m.made ++ [.node node] })
  | .convert c :: rest => .ok (.more (m.ask source c none rest))
  | .slot c :: rest => .ok (.more (m.ask source c (some (c.header .other none)) rest))
  | .openScope inherits :: rest =>
    .ok (.more { m with steps := rest, scopes := m.scopes.push inherits })
  | .closeScope :: rest => do
    let scopes ← m.scopes.pop
    return .more { m with steps := rest, scopes := scopes }

/-! ## Every step lowers the work ahead -/

/-- The work ahead of the plans that wait: their steps, and their ends. -/
def workWaiting : List Waiting → Nat
  | [] => 0
  | w :: ws => Step.workAll w.steps + 1 + workWaiting ws

/-- The work ahead of the machine. -/
def work (m : Machine) : Nat :=
  Step.workAll m.steps + workWaiting m.waiting

theorem work_ask (source : List UInt8) (m : Machine) (c : Cst) (slot : Option Header)
    (rest : List Step) :
    (m.ask source c slot rest).work <
      c.work + Step.workAll rest + workWaiting m.waiting := by
  have := c.work_plan source
  simp only [ask, work, workWaiting]
  omega

theorem work_advance {source : List UInt8} {m next : Machine}
    (h : m.advance source = .ok (.more next)) : next.work < m.work := by
  obtain ⟨steps, made, waiting, scopes⟩ := m
  cases steps with
  | nil =>
      cases waiting with
      | nil => simp [advance] at h
      | cons w ws =>
          simp only [advance, Except.ok.injEq, Progress.more.injEq] at h
          subst h
          simp only [work, Step.workAll_nil, workWaiting]
          omega
  | cons s rest =>
      cases s with
      | declare names =>
          simp only [advance] at h
          cases hd : Scopes.declare names scopes with
          | error e => simp [hd, bind, Except.bind] at h
          | ok t =>
              simp only [hd, bind, Except.bind, pure, Except.pure, Except.ok.injEq,
                Progress.more.injEq] at h
              subst h
              simp only [work, Step.workAll_cons, Step.work]
              omega
      | closeScope =>
          simp only [advance] at h
          cases hd : Scopes.pop scopes with
          | error e => simp [hd, bind, Except.bind] at h
          | ok t =>
              simp only [hd, bind, Except.bind, pure, Except.pure, Except.ok.injEq,
                Progress.more.injEq] at h
              subst h
              simp only [work, Step.workAll_cons, Step.work]
              omega
      | convert c =>
          simp only [advance, Except.ok.injEq, Progress.more.injEq] at h
          subst h
          have := work_ask source ⟨.convert c :: rest, made, waiting, scopes⟩ c none rest
          simp only [work, Step.workAll_cons, Step.work] at this ⊢
          omega
      | slot c =>
          simp only [advance, Except.ok.injEq, Progress.more.injEq] at h
          subst h
          have := work_ask source ⟨.slot c :: rest, made, waiting, scopes⟩ c
            (some (c.header .other none)) rest
          simp only [work, Step.workAll_cons, Step.work] at this ⊢
          omega
      | emit child | resolve word | openScope inherits =>
          simp only [advance, Except.ok.injEq, Progress.more.injEq] at h
          subst h
          simp only [work, Step.workAll_cons, Step.work]
          omega

/-- Takes steps until every plan has ended: the children collected by the last
of them, and the scopes still open. -/
def run (source : List UInt8) (m : Machine) :
    Except ScopeFault (List Child × Scopes) :=
  match _h : m.advance source with
  | .error fault => .error fault
  | .ok (.done made scopes) => .ok (made, scopes)
  | .ok (.more next) => run source next
  termination_by m.work
  decreasing_by exact work_advance (by assumption)

end Machine

/-- The simplified tree of a whole source file, and the scopes open at its
end. -/
def Cst.build (source : List UInt8) (root : Cst) : Except ScopeFault (Node × Scopes) := do
  let (made, scopes) ← Machine.run source ⟨root.programSteps, [], [], []⟩
  return (.mk (root.header .program none) made, scopes)

end RubySmells
