import RubySmells.Proofs.Inspection

/-!
# Work inside a visit

What a visit leaves behind, whatever the work inside it does and however it
ends. `Work` is a program over a context: it updates, runs rules, reads, visits
further nodes, recovers from a fault or breaks off with one, and what it does
next may depend on everything it has seen. It never enters or leaves a node by
itself, only by a visit.

* On a context that has a frame, none of its operations fails by itself, and
  whatever happens, the context has only been worked on from its innermost
  frame on (`Context.Reworked`). That is what each operation keeps, and what
  work as a whole keeps by induction (`Work.run_reworked`).
* A visit hands on how the work ended, and drops exactly the frame it pushed
  (`Context.visit_frame`).
* Where there is one frame for the whole file, that frame is what the nodes
  applied to it make of it, one after the other (`Work.applied`).
-/

namespace RubySmells

variable {α β : Type}

/-! ## Work -/

/-- A program over a context, with a result. -/
inductive Work : Type → Type 1
  | done {α : Type} (a : α) : Work α
  /-- Breaks off. -/
  | raise {α : Type} (fault : Fault) : Work α
  | read {α : Type} (next : Context → Work α) : Work α
  | update {α : Type} (node : Node) (next : Work α) : Work α
  /-- Runs a rule, on whatever node. -/
  | check {α : Type} (rule : Rule) (node : Node) (next : Option Issue → Work α) : Work α
  | visit {α β : Type} (node : Node) (inner : Work β) (next : β → Work α) : Work α
  /-- Goes on after other work, whether or not that has broken off. -/
  | attempt {α β : Type} (inner : Work β) (next : Except Fault β → Work α) : Work α

/-- Runs an action and hands on how it ended. -/
def Action.outcome (action : Action α) : Action (Except Fault α) :=
  fun ctx => (.ok (action ctx).1, (action ctx).2)

namespace Work

/-- Carries the work out. -/
def run {α : Type} : Work α → Action α
  | .done a => Action.done a
  | .raise fault => Action.fail fault
  | .read next => do
    let ctx ← Action.read
    (next ctx).run
  | .update node next => do
    Context.update node
    next.run
  | .check rule node next => do
    let issue ← rule.check node
    (next issue).run
  | .visit node inner next => do
    let b ← Context.visit node inner.run
    (next b).run
  | .attempt inner next => do
    let outcome ← inner.run.outcome
    (next outcome).run

/-- What is listed after an action: nothing, if it broke off. -/
def listAfter (action : Action α) (next : α → Context → List Node) (ctx : Context) :
    List Node :=
  match action ctx with
  | (.ok a, ctx) => next a ctx
  | (.error _, _) => []

/-- The nodes that are applied to the innermost frame while the work is carried
out, in order, up to where it breaks off. -/
def applied {α : Type} : Work α → Context → List Node
  | .done _, _ => []
  | .raise _, _ => []
  | .read next, ctx => (next ctx).applied ctx
  | .update node next, ctx =>
    node :: listAfter (Context.update node) (fun _ => next.applied) ctx
  | .check rule node next, ctx =>
    listAfter (rule.check node) (fun issue => (next issue).applied) ctx
  | .visit node inner next, ctx =>
    node :: inner.applied (Context.enter node ctx).2 ++
      listAfter (Context.visit node inner.run) (fun b => (next b).applied) ctx
  | .attempt inner next, ctx =>
    inner.applied ctx ++
      listAfter inner.run.outcome (fun outcome => (next outcome).applied) ctx

end Work

/-! ## What operations do to a context with a frame -/

namespace Context

/-- What is left of a context whose frames are `f :: below` once nodes have been
applied: the frames further down are the same, and if there is one frame for the
whole file, it is what the nodes make of it. -/
def Reworked (nested : Bool) (below : List Frame) (f : Frame) (applied : List Node)
    (after : Context) : Prop :=
  ∃ last g, after = ⟨nested, last, g :: below⟩ ∧
    (nested = false → g = applied.foldl (fun f n => f.apply n) f)

variable {nested : Bool} {last : Option String} {below : List Frame} {f : Frame}

theorem reworked_nil : Reworked nested below f [] ⟨nested, last, f :: below⟩ :=
  ⟨last, f, rfl, fun _ => rfl⟩

/-- Applying some nodes and then others is applying them all. -/
theorem Reworked.append {ns ms : List Node} {mid after : Context}
    (h : Reworked nested below f ns mid)
    (h' : ∀ last g, mid = ⟨nested, last, g :: below⟩ → Reworked nested below g ms after) :
    Reworked nested below f (ns ++ ms) after := by
  obtain ⟨last, g, hmid, hg⟩ := h
  obtain ⟨last', g', hafter, hg'⟩ := h' last g hmid
  refine ⟨last', g', hafter, fun hn => ?_⟩
  rw [hg' hn, hg hn, List.foldl_append]

theorem update_reworked (n : Node) :
    Reworked nested below f [n] (update n ⟨nested, last, f :: below⟩).2 :=
  ⟨last, f.apply n, rfl, fun _ => rfl⟩

/-- A rule, run on whatever node, leaves the frames alone. -/
theorem check_reworked (rule : Rule) (n : Node) :
    Reworked nested below f [] (rule.check n ⟨nested, last, f :: below⟩).2 := by
  by_cases hr : rule = .lawOfDemeter
  · subst hr
    rw [Rule.check_lawOfDemeter]
    exact reworked_nil
  · rw [Rule.check_of_ne hr]
    exact reworked_nil

theorem enter_snd (n : Node) :
    (enter n ⟨nested, last, f :: below⟩).2 =
      ⟨nested, last, f.apply n :: n.underneath nested f below⟩ := by
  rw [enter_frame]

/-- A visit hands on how the work ended, and drops the frame it pushed, if it
pushed one. -/
theorem visit_frame {n : Node} {work : Action α} {last' : Option String} {g : Frame}
    (h : (work ⟨nested, last, f.apply n :: n.underneath nested f below⟩).2 =
      ⟨nested, last', g :: n.underneath nested f below⟩) :
    visit n work ⟨nested, last, f :: below⟩ =
      ((work ⟨nested, last, f.apply n :: n.underneath nested f below⟩).1,
        ⟨nested, last', (if n.opens nested then f else g) :: below⟩) := by
  show Action.andThen (enter n) _ _ = _
  unfold Action.andThen
  rw [enter_frame]
  show leaveAfter n (work _).1 (work _).2 = _
  rw [h]
  show Action.andThen (leave n) _ _ = _
  unfold Action.andThen
  rw [leave_frame]
  -- The fault of the work, if there is one, is raised again after leaving.
  cases (work ⟨nested, last, f.apply n :: n.underneath nested f below⟩).1 <;> rfl

/-- A visit to a node applies the node, and what is applied inside it. -/
theorem visit_reworked {n : Node} {work : Action α} {ns : List Node}
    (h : Reworked nested (n.underneath nested f below) (f.apply n) ns
      (work (enter n ⟨nested, last, f :: below⟩).2).2) :
    Reworked nested below f (n :: ns) (visit n work ⟨nested, last, f :: below⟩).2 := by
  rw [enter_snd] at h
  obtain ⟨last', g, hafter, hg⟩ := h
  rw [visit_frame hafter]
  refine ⟨last', if n.opens nested then f else g, rfl, fun hn => ?_⟩
  subst hn
  exact hg rfl

end Context

/-! ## What work does to a context with a frame -/

namespace Work

open Context

variable {nested : Bool} {below : List Frame}

/-- Work goes on after an action that leaves the context reworked. -/
theorem andThen_reworked (action : Action β) (next : β → Work α) {ns : List Node}
    {last : Option String} {f : Frame}
    (h : Reworked nested below f ns (action ⟨nested, last, f :: below⟩).2)
    (hnext : ∀ b last g, Reworked nested below g ((next b).applied ⟨nested, last, g :: below⟩)
      ((next b).run ⟨nested, last, g :: below⟩).2) :
    Reworked nested below f
      (ns ++ listAfter action (fun b => (next b).applied) ⟨nested, last, f :: below⟩)
      (Action.andThen action (fun b => (next b).run) ⟨nested, last, f :: below⟩).2 := by
  refine h.append fun last' g hmid => ?_
  unfold listAfter Action.andThen
  cases hrun : action ⟨nested, last, f :: below⟩ with
  | mk outcome mid =>
      rw [hrun] at hmid
      obtain rfl : mid = ⟨nested, last', g :: below⟩ := hmid
      cases outcome with
      | ok b => exact hnext b last' g
      | error fault => exact reworked_nil

/-- Whatever work does and however it ends, the frames below the innermost are
as before, and so is their number. -/
theorem run_reworked (work : Work α) (last : Option String) (f : Frame)
    (below : List Frame) :
    Reworked nested below f (work.applied ⟨nested, last, f :: below⟩)
      (work.run ⟨nested, last, f :: below⟩).2 := by
  -- A visit does its inner work on other frames, hence `below` is general.
  induction work generalizing last f below with
  | done a => exact reworked_nil
  | raise fault => exact reworked_nil
  | read next ih => exact ih _ last f below
  | update node next ih =>
      exact andThen_reworked _ (fun _ => next) (update_reworked node)
        fun _ last g => ih last g below
  | check rule node next ih =>
      exact andThen_reworked _ next (check_reworked rule node)
        fun issue last g => ih issue last g below
  | visit node inner next ihInner ihNext =>
      have hinner := ihInner last (f.apply node) (node.underneath nested f below)
      rw [← enter_snd] at hinner
      exact andThen_reworked _ next (visit_reworked hinner) fun b last g => ihNext b last g below
  | attempt inner next ihInner ihNext =>
      exact andThen_reworked inner.run.outcome next (ihInner last f below)
        fun outcome last g => ihNext outcome last g below

end Work

/-! ## What a visit leaves behind -/

/-- **A visit cleans up after itself.** On a context with a frame, a visit ends
as the work inside it ends, with the same fault if that broke off, and the
method remembered is the one the work left. Below the innermost frame nothing
has changed, in either mode. In nested mode the innermost frame is as before if
the node has a frame of its own. Where there is one frame for the whole file, it
is what the node and the nodes applied by the work make of it, in order; work
that breaks off stands for any moment inside longer work, so that at no moment
there are more or fewer frames. -/
theorem Context.visit_cleans_up (nested : Bool) (last : Option String) (f : Frame)
    (below : List Frame) (n : Node) (work : Work α) :
    let before : Context := ⟨nested, last, f :: below⟩
    let inside := (Context.enter n before).2
    ∃ g, Context.visit n work.run before =
        ((work.run inside).1, ⟨nested, (work.run inside).2.lastDemeterMethod, g :: below⟩) ∧
      (nested = true → Context.framed n.kind = true → g = f) ∧
      (nested = false →
        inside.frames.length = before.frames.length ∧
          (work.run inside).2.frames.length = before.frames.length ∧
          g = (n :: work.applied inside).foldl (fun f n => f.apply n) f) := by
  intro before inside
  have hinside : inside = ⟨nested, last, f.apply n :: n.underneath nested f below⟩ :=
    Context.enter_snd n
  rw [hinside]
  obtain ⟨last', g, hafter, hg⟩ :=
    work.run_reworked last (f.apply n) (n.underneath nested f below)
  rw [Context.visit_frame hafter, hafter]
  refine ⟨if n.opens nested then f else g, rfl, ?_, ?_⟩
  · intro hn hframed
    rw [if_pos (Node.opens_eq_true.2 ⟨hn, hframed⟩)]
  · intro hn
    subst hn
    exact ⟨rfl, rfl, hg rfl⟩

/-- Takes a parameter list in, writes to the parameter in a block, and fails there. -/
def Work.failing : Work Unit :=
  .update (.mk { kind := .parameterList } [.text "flag"])
    (.visit (.mk { kind := .block } [])
      (.update (.mk { kind := .localAssignment, name := "flag" } [])
        (.raise (.interrupted "boom")))
      .done)

theorem Context.visit_cleans_up_failing :
    Context.visit (.mk { kind := .methodDefinition, name := "m" } []) Work.failing.run
        (.fresh true) =
      (.error (.interrupted "boom"), .fresh true) := by
  obtain ⟨g, hvisit, hg, -⟩ := Context.visit_cleans_up true none {} []
    (.mk { kind := .methodDefinition, name := "m" } []) Work.failing
  obtain rfl : g = {} := hg rfl (by decide)
  exact hvisit

end RubySmells
