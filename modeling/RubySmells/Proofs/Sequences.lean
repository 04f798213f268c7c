import RubySmells.Proofs.Inspection
import RubySmells.Script

/-!
# Operations in any order

Single operations on a context, one after the other, with nothing that pairs a
leaving with an entering. Frames can run out then, and operations fail.

* **what an operation needs** — in nested mode, leaving a node of certain kinds
  drops a frame; entering, updating and asking for the frame read it, and a rule
  does if its node gives it reason to (`Operation.fault?`);
* **one operation** — with a frame there is no fault, and frames are counted up
  or down (`Operation.action_frame`); without a frame there is a fault exactly
  where one is needed, and then nothing has changed (`Operation.action_none`);
* **a sequence** — so the frames are those of the fresh context, and those put on
  top, less those dropped (`Command.frames_runAll`).
-/

namespace RubySmells

namespace Operation

/-! ## What operations need -/

/-- Whether an operation puts a frame on top. -/
def pushes (nested : Bool) : Operation → Bool
  | .enter node => node.opens nested
  | _ => false

/-- Whether an operation drops the innermost frame. -/
def pops (nested : Bool) : Operation → Bool
  | .leave node => node.opens nested
  | _ => false

/-- Whether an operation gets as far as reading the innermost frame. -/
def reads : Operation → Bool
  | .enter _ => true
  | .leave _ => false
  | .update _ => true
  | .opensScope _ => false
  | .current => true
  | .check node => (Rule.ofKind? node.kind).any fun rule => rule.concerns node
  | .apply rule node => rule.concerns node
  | .remember _ => false

/-- What goes wrong in an operation where there is no frame. -/
def fault? (nested : Bool) (op : Operation) : Option Fault :=
  if op.pops nested then some .noFrameToDrop
  else if op.reads then some .noFrameToRead
  else none

/-! ## One operation -/

/-- An operation succeeds, and afterwards there are as many frames as it says. -/
def Counts (nested : Bool) (op : Operation) (frames : List Frame)
    (run : Except Fault Value × Context) : Prop :=
  ∃ v last frames', run = (.ok v, ⟨nested, last, frames'⟩) ∧
    frames'.length + (op.pops nested).toNat = frames.length + (op.pushes nested).toNat

variable {nested : Bool} {last : Option String} {f : Frame} {below : List Frame}

/-- The work of running a rule. -/
def checking (rule : Rule) (n : Node) : Action Value := do
  let issue ← rule.check n
  return .issue issue

theorem checking_frame (rule : Rule) (n : Node) :
    ∃ v last', checking rule n ⟨nested, last, f :: below⟩ =
      (.ok v, ⟨nested, last', f :: below⟩) := by
  show ∃ v last', Action.andThen (rule.check n) _ _ = _
  unfold Action.andThen
  by_cases hr : rule = .lawOfDemeter
  · subst hr
    rw [Rule.check_lawOfDemeter]
    exact ⟨_, _, rfl⟩
  · rw [Rule.check_of_ne hr]
    exact ⟨_, _, rfl⟩

theorem checking_none (rule : Rule) (n : Node) :
    checking rule n ⟨nested, last, []⟩ =
      (if rule.concerns n then .error .noFrameToRead else .ok (.issue none),
        ⟨nested, last, []⟩) := by
  show Action.andThen (rule.check n) _ _ = _
  unfold Action.andThen Rule.check
  cases rule.concerns n <;> rfl

theorem action_check_of_none {n : Node} (h : Rule.ofKind? n.kind = none) :
    (Operation.check n).action = Action.done .noRule := by
  simp only [action, h]
  rfl

theorem action_check_of_some {rule : Rule} {n : Node} (h : Rule.ofKind? n.kind = some rule) :
    (Operation.check n).action = checking rule n := by
  simp only [action, h]
  rfl

/-- With a frame, every operation succeeds. -/
theorem action_frame (op : Operation) (nested : Bool) (last : Option String) (f : Frame)
    (below : List Frame) :
    op.Counts nested (f :: below) (op.action ⟨nested, last, f :: below⟩) := by
  cases op with
  | enter n =>
      refine ⟨.nothing, last, f.apply n :: n.underneath nested f below, ?_, ?_⟩
      · show Action.andThen (Context.enter n) _ _ = _
        unfold Action.andThen
        rw [Context.enter_frame]
        rfl
      · unfold Node.underneath
        simp only [pops, pushes]
        cases n.opens nested <;> rfl
  | leave n =>
      have hleave : (Operation.leave n).action ⟨nested, last, f :: below⟩ =
          (.ok .nothing, ⟨nested, last, if n.opens nested then below else f :: below⟩) := by
        show Action.andThen (if n.opens nested then Context.pop else Action.done ()) _
          ⟨nested, last, f :: below⟩ = _
        cases n.opens nested <;> rfl
      refine ⟨_, _, _, hleave, ?_⟩
      simp only [pops, pushes]
      cases n.opens nested <;> rfl
  | check n =>
      cases hr : Rule.ofKind? n.kind with
      | none =>
          rw [action_check_of_none hr]
          exact ⟨_, _, _, rfl, rfl⟩
      | some rule =>
          obtain ⟨v, last', hrun⟩ := checking_frame rule n
          rw [action_check_of_some hr]
          exact ⟨v, last', _, hrun, rfl⟩
  | apply rule n =>
      obtain ⟨v, last', hrun⟩ := checking_frame rule n
      exact ⟨v, last', _, hrun, rfl⟩
  | update n => exact ⟨_, _, _, rfl, rfl⟩
  | opensScope n => exact ⟨_, _, _, rfl, rfl⟩
  | current => exact ⟨_, _, _, rfl, rfl⟩
  | remember m => exact ⟨_, _, _, rfl, rfl⟩

/-- Without a frame, an operation fails exactly if it needs one, and a failure
leaves everything as it was. -/
theorem action_none (op : Operation) (nested : Bool) (last : Option String) :
    (∃ fault, op.fault? nested = some fault ∧
        op.action ⟨nested, last, []⟩ = (.error fault, ⟨nested, last, []⟩)) ∨
      op.fault? nested = none ∧ op.Counts nested [] (op.action ⟨nested, last, []⟩) := by
  cases op with
  | enter n =>
      refine .inl ⟨.noFrameToRead, rfl, ?_⟩
      show Action.andThen (Context.enter n) _ _ = _
      unfold Action.andThen
      -- The frame is read before the copy is put on top, or else for the update.
      have henter : Context.enter n ⟨nested, last, []⟩ =
          (.error .noFrameToRead, ⟨nested, last, []⟩) := by
        show Action.andThen (if n.opens nested then _ else _) _ ⟨nested, last, []⟩ = _
        cases n.opens nested <;> rfl
      rw [henter]
  | leave n =>
      cases hopens : n.opens nested with
      | true =>
          refine .inl ⟨.noFrameToDrop, by simp [fault?, pops, hopens], ?_⟩
          show Action.andThen (if n.opens nested then _ else _) _ ⟨nested, last, []⟩ = _
          rw [hopens]
          rfl
      | false =>
          refine .inr ⟨by simp [fault?, pops, reads, hopens], .nothing, last, [], ?_, ?_⟩
          · show Action.andThen (if n.opens nested then _ else _) _ ⟨nested, last, []⟩ = _
            rw [hopens]
            rfl
          · simp only [pops, pushes, hopens]
  | check n =>
      cases hr : Rule.ofKind? n.kind with
      | none =>
          rw [action_check_of_none hr]
          exact .inr ⟨by simp [fault?, pops, reads, hr], _, _, _, rfl, rfl⟩
      | some rule =>
          rw [action_check_of_some hr, checking_none]
          cases hconcerns : rule.concerns n with
          | true => exact .inl ⟨.noFrameToRead, by simp [fault?, pops, reads, hr, hconcerns], rfl⟩
          | false =>
              exact .inr ⟨by simp [fault?, pops, reads, hr, hconcerns], _, _, _, rfl, rfl⟩
  | apply rule n =>
      show (∃ fault, _ ∧ checking rule n _ = _) ∨ _ ∧ Counts _ _ _ (checking rule n _)
      rw [checking_none]
      cases hconcerns : rule.concerns n with
      | true => exact .inl ⟨.noFrameToRead, by simp [fault?, pops, reads, hconcerns], rfl⟩
      | false => exact .inr ⟨by simp [fault?, pops, reads, hconcerns], _, _, _, rfl, rfl⟩
  | update n => exact .inl ⟨_, rfl, rfl⟩
  | opensScope n => exact .inr ⟨rfl, _, _, _, rfl, rfl⟩
  | current => exact .inl ⟨_, rfl, rfl⟩
  | remember m => exact .inr ⟨rfl, _, _, _, rfl, rfl⟩

/-- One operation fails where a frame is needed and there is none, and then
changes nothing; otherwise it succeeds and counts. -/
theorem action_cases (op : Operation) (ctx : Context) :
    (∃ fault, ctx.frames = [] ∧ op.fault? ctx.nested = some fault ∧
        op.action ctx = (.error fault, ctx)) ∨
      (ctx.frames = [] → op.fault? ctx.nested = none) ∧
        op.Counts ctx.nested ctx.frames (op.action ctx) := by
  obtain ⟨nested, last, frames⟩ := ctx
  cases frames with
  | nil =>
      rcases op.action_none nested last with ⟨fault, hfault, hrun⟩ | ⟨hnone, hcounts⟩
      · exact .inl ⟨fault, rfl, hfault, hrun⟩
      · exact .inr ⟨fun _ => hnone, hcounts⟩
  | cons f below => exact .inr ⟨fun h => absurd h (by simp), op.action_frame nested last f below⟩

theorem fails_iff {op : Operation} {ctx : Context} {fault : Fault} :
    (op.action ctx).1 = .error fault ↔
      ctx.frames = [] ∧ op.fault? ctx.nested = some fault := by
  rcases op.action_cases ctx with
    ⟨fault', hframes, hfault, hrun⟩ | ⟨hnone, v, last, frames, hrun, -⟩
  · rw [hrun, hfault]
    simp [hframes]
  · rw [hrun]
    constructor
    · intro h
      exact absurd h (by simp)
    · rintro ⟨hframes, hfault⟩
      rw [hnone hframes] at hfault
      exact absurd hfault (by simp)

theorem unchanged_of_fails {op : Operation} {ctx : Context} {fault : Fault}
    (h : (op.action ctx).1 = .error fault) : (op.action ctx).2 = ctx := by
  rcases op.action_cases ctx with ⟨fault', -, -, hrun⟩ | ⟨-, v, last, frames, hrun, -⟩
  · rw [hrun]
  · rw [hrun] at h
    exact absurd h (by simp)

theorem pushes_false (op : Operation) : op.pushes false = false := by
  cases op <;> rfl

theorem pops_false (op : Operation) : op.pops false = false := by
  cases op <;> rfl

end Operation

/-! ## A sequence of operations -/

/-- Whether an operation gave a result. -/
def Result.isValue : Result → Bool
  | .value _ _ => true
  | _ => false

/-- How many operations with a property gave a result. -/
def Operation.succeeded (p : Operation → Bool) (ops : List Operation)
    (results : List Result) : Nat :=
  (ops.zip results).countP fun (op, result) => p op && result.isValue

section Succeeded

variable (p : Operation → Bool) (op : Operation) (ops : List Operation) (results : List Result)

theorem Operation.succeeded_cons_value (v : Value) (ctx : Context) :
    Operation.succeeded p (op :: ops) (.value v ctx :: results) =
      Operation.succeeded p ops results + (p op).toNat := by
  rw [Operation.succeeded, List.zip_cons_cons, List.countP_cons]
  cases h : p op <;> simp [h, Operation.succeeded, Result.isValue]

theorem Operation.succeeded_cons_fault (fault : Fault) (ctx : Context) :
    Operation.succeeded p (op :: ops) (.fault fault ctx :: results) =
      Operation.succeeded p ops results := by
  simp [Operation.succeeded, Result.isValue]

theorem Operation.succeeded_eq_zero (h : ∀ op, p op = false) :
    Operation.succeeded p ops results = 0 := by
  simp [Operation.succeeded, h]

end Succeeded

namespace Command

theorem runAll_cons (c : Command) (cs : List Command) (ctx : Context) :
    runAll (c :: cs) ctx =
      ((run c ctx).1 ++ (runAll cs (run c ctx).2).1, (runAll cs (run c ctx).2).2) := by
  rw [runAll]

theorem runAll_append (cs ds : List Command) (ctx : Context) :
    runAll (cs ++ ds) ctx =
      ((runAll cs ctx).1 ++ (runAll ds (runAll cs ctx).2).1,
        (runAll ds (runAll cs ctx).2).2) := by
  induction cs generalizing ctx with
  | nil => simp [runAll]
  | cons c cs ih => rw [List.cons_append, runAll_cons, runAll_cons, ih, List.append_assoc]

/-- A single operation at the end of a script. -/
theorem runAll_concat (cs : List Command) (op : Operation) (ctx : Context) :
    runAll (cs ++ [.single op]) ctx =
      ((runAll cs ctx).1 ++ [.of (op.action (runAll cs ctx).2)],
        (op.action (runAll cs ctx).2).2) := by
  rw [runAll_append, runAll_cons, run, runAll, List.append_nil]

/-- Frames are put on top and dropped by operations that succeed, and by no others. -/
theorem frames_runAll (ops : List Operation) (ctx : Context) :
    let run := runAll (ops.map .single) ctx
    run.2.nested = ctx.nested ∧
      run.2.frames.length + Operation.succeeded (·.pops ctx.nested) ops run.1 =
        ctx.frames.length + Operation.succeeded (·.pushes ctx.nested) ops run.1 := by
  induction ops generalizing ctx with
  | nil => exact ⟨by simp [runAll], by simp [runAll, Operation.succeeded]⟩
  | cons op ops ih =>
      simp only [List.map_cons, runAll_cons, run, List.singleton_append]
      rcases op.action_cases ctx with ⟨fault, -, -, hrun⟩ | ⟨-, v, last, frames, hrun, hcount⟩
      · obtain ⟨hnested, hframes⟩ := ih ctx
        rw [hrun, Result.of, Operation.succeeded_cons_fault, Operation.succeeded_cons_fault]
        exact ⟨hnested, hframes⟩
      · obtain ⟨hnested, hframes⟩ := ih ⟨ctx.nested, last, frames⟩
        rw [hrun, Result.of, Operation.succeeded_cons_value, Operation.succeeded_cons_value]
        refine ⟨hnested, ?_⟩
        simp only at hframes ⊢
        omega

/-- **Operations in any order.** After any operations on a fresh context, the next one
leaves everything as it was if it fails; it fails exactly where a frame is to be dropped
or read and there is none. In nested mode there is one frame, and one for each successful
entering of a node that opens one, less one for each successful leaving. Where there is
one frame for the whole file, it is there throughout, and nothing fails. -/
theorem fails_only_without_frames (nested : Bool) (ops : List Operation) (op : Operation) :
    let before := runAll (ops.map .single) (.fresh nested)
    let run := op.action before.2
    runAll ((ops ++ [op]).map .single) (.fresh nested) = (before.1 ++ [.of run], run.2) ∧
    (∀ fault, run.1 = .error fault → run.2 = before.2) ∧
    (∀ fault, run.1 = .error fault ↔
      before.2.frames = [] ∧ op.fault? nested = some fault) ∧
    before.2.frames.length + Operation.succeeded (·.pops nested) ops before.1 =
      1 + Operation.succeeded (·.pushes nested) ops before.1 ∧
    (nested = false → before.2.frames.length = 1 ∧ ∃ v, run.1 = .ok v) := by
  intro before run
  have hnested : before.2.nested = nested := (frames_runAll ops (.fresh nested)).1
  have hcount : before.2.frames.length + Operation.succeeded (·.pops nested) ops before.1 =
      1 + Operation.succeeded (·.pushes nested) ops before.1 :=
    (frames_runAll ops (.fresh nested)).2
  have hfails : ∀ fault, run.1 = .error fault ↔
      before.2.frames = [] ∧ op.fault? nested = some fault := by
    intro fault
    rw [Operation.fails_iff, hnested]
  refine ⟨?_, fun fault => Operation.unchanged_of_fails, hfails, hcount, ?_⟩
  · rw [List.map_append, List.map_singleton, runAll_concat]
  · rintro rfl
    rw [Operation.succeeded_eq_zero _ _ _ Operation.pops_false,
      Operation.succeeded_eq_zero _ _ _ Operation.pushes_false] at hcount
    refine ⟨hcount, ?_⟩
    cases hrun : run.1 with
    | ok v => exact ⟨v, rfl⟩
    | error fault =>
        obtain ⟨hframes, -⟩ := (hfails fault).1 hrun
        rw [hframes] at hcount
        exact absurd hcount (by simp)

/-- A block is entered once and left three times: the third time there is nothing left
to drop. -/
theorem fails_only_without_frames_blockLeftThrice :
    let block : Node := .mk { kind := .block } []
    let before := runAll ([.enter block, .leave block, .leave block].map .single) (.fresh true)
    before.2.frames = [] ∧
      (Operation.leave block).action before.2 = (.error .noFrameToDrop, before.2) := by
  intro block before
  have hframes : before.2.frames = [] := by decide +kernel
  obtain ⟨-, hunchanged, hfails, -, -⟩ := fails_only_without_frames true
    [.enter block, .leave block, .leave block] (.leave block)
  have hrun := (hfails .noFrameToDrop).2 ⟨hframes, rfl⟩
  exact ⟨hframes, Prod.ext hrun (hunchanged _ hrun)⟩

end Command

end RubySmells
