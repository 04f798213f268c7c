import RubySmells.NameSet
import RubySmells.Tree.Node

/-!
# Where a walk stands

The rules need to know in which class and method they are, and which
parameters still hold what the caller passed. A `Context` keeps that in a
stack of frames. In nested mode each class, method and block gets a frame of
its own, which starts as a copy of the frame around it and is dropped when the
walk leaves; otherwise there is one frame for the whole file, and what is
written to it stays.

An `Action` is a piece of work on a context. It may fail, and it says what the
context is afterwards in either case, so that nothing about a failure is left
open.
-/

namespace RubySmells

/-- The innermost class and method, and the parameters not assigned to. -/
structure Frame where
  className : Option String := none
  methodName : Option String := none
  live : NameSet := ∅
  deriving DecidableEq, Inhabited

/-- What a node does to the frame it is visited in: definitions set a name, a
parameter list replaces the parameters, and an assignment takes one out. -/
def Frame.apply (node : Node) (frame : Frame) : Frame :=
  match node.kind with
  | .classDefinition => { frame with className := node.name }
  | .methodDefinition => { frame with methodName := node.name }
  | .parameterList => { frame with live := NameSet.ofList node.texts }
  | .localAssignment =>
    match node.name with
    | some name => { frame with live := frame.live.erase name }
    | none => frame
  | _ => frame

/-- The state of a walk over one file. -/
structure Context where
  /-- Whether frames are restored on leaving a class, method or block. -/
  nested : Bool := true
  /-- The method in which a chain of calls was last reported. -/
  lastDemeterMethod : Option String := none
  /-- The frames, the innermost first. -/
  frames : List Frame := [{}]
  deriving DecidableEq

/-- What goes wrong in an action. -/
inductive Fault
  /-- There is no frame to drop. -/
  | noFrameToDrop
  /-- There is no frame to read. -/
  | noFrameToRead
  /-- Work inside a visit was broken off, for a reason given in words. -/
  | interrupted (text : String)
  deriving DecidableEq, Repr

/-- A fault in words. -/
def Fault.message : Fault → String
  | .noFrameToDrop => "pop from empty list"
  | .noFrameToRead => "list index out of range"
  | .interrupted text => text

/-! ## Actions -/

/-- Work on a context: a result or a fault, and the context afterwards. -/
def Action (α : Type) : Type :=
  Context → Except Fault α × Context

namespace Action

/-- Does nothing. -/
def done {α : Type} (a : α) : Action α :=
  fun ctx => (.ok a, ctx)

/-- Breaks off. -/
def fail {α : Type} (fault : Fault) : Action α :=
  fun ctx => (.error fault, ctx)

/-- One action after the other; a fault of the first is the fault of both. -/
def andThen {α β : Type} (first : Action α) (next : α → Action β) : Action β :=
  fun ctx =>
    match first ctx with
    | (.ok a, ctx) => next a ctx
    | (.error fault, ctx) => (.error fault, ctx)

instance : Monad Action where
  pure := done
  bind := andThen

/-- Reads the context. -/
def read : Action Context :=
  fun ctx => (.ok ctx, ctx)

/-- Changes the context. -/
def modify (f : Context → Context) : Action Unit :=
  fun ctx => (.ok (), f ctx)

end Action

namespace Context

/-- A context before anything was visited. -/
def fresh (nested : Bool) : Context := { nested := nested }

/-- Whether nodes of a kind have a frame of their own in nested mode. -/
def framed (kind : Kind) : Bool :=
  kind = .classDefinition || kind = .methodDefinition || kind = .block

/-- Whether a frame is pushed on entering a node. -/
def opensScope (ctx : Context) (node : Node) : Bool :=
  ctx.nested && framed node.kind

/-- The innermost frame. -/
def current : Action Frame :=
  fun ctx =>
    match ctx.frames with
    | [] => (.error .noFrameToRead, ctx)
    | top :: _ => (.ok top, ctx)

/-- Puts a frame on top. -/
def push (frame : Frame) : Action Unit :=
  .modify fun ctx => { ctx with frames := frame :: ctx.frames }

/-- Drops the innermost frame. -/
def pop : Action Unit :=
  fun ctx =>
    match ctx.frames with
    | [] => (.error .noFrameToDrop, ctx)
    | _ :: below => (.ok (), { ctx with frames := below })

/-- Puts a frame in place of the innermost one. -/
def replaceTop (frame : Frame) : Action Unit :=
  .modify fun ctx => { ctx with frames := frame :: ctx.frames.drop 1 }

/-- Records the method in which a chain of calls was reported. -/
def remember (method : Option String) : Action Unit :=
  .modify fun ctx => { ctx with lastDemeterMethod := method }

/-- Applies a node to the innermost frame. -/
def update (node : Node) : Action Unit := do
  let top ← current
  replaceTop (top.apply node)

/-- Gives a node a frame of its own, if it is to have one: a copy of the one
around it. -/
def openFrame (node : Node) : Action Unit := do
  let ctx ← Action.read
  if ctx.opensScope node then do
    let top ← current
    push top
  else Action.done ()

/-- Goes into a node. -/
def enter (node : Node) : Action Unit := do
  openFrame node
  update node

/-- Comes back from a node. -/
def leave (node : Node) : Action Unit := do
  let ctx ← Action.read
  if ctx.opensScope node then pop else Action.done ()

/-- Comes back from a node after work inside it has ended well or badly. A
fault on the way back hides the one before. -/
def leaveAfter {α : Type} (node : Node) (outcome : Except Fault α) : Action α := do
  leave node
  match outcome with
  | .ok a => Action.done a
  | .error fault => Action.fail fault

/-- Goes into a node, works there, and comes back whether or not the work
ended well. -/
def visit {α : Type} (node : Node) (work : Action α) : Action α := do
  enter node
  fun ctx =>
    match work ctx with
    | (outcome, ctx) => leaveAfter node outcome ctx

end Context

end RubySmells
