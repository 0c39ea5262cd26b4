import TallyOwl.Lib.Counted
import TallyOwl.Lib.OrderedMap
import TallyOwl.Store.Row
import Mathlib.Data.String.Basic
import Mathlib.Order.Fin.Basic

/-! The global project-to-cell directory (`directory.rs`): one row for each project, and the
cells it may be in. -/
namespace TallyOwl.Cluster
open Lib

/-- Where one project lives. A write goes to the first cell. -/
structure Placement where
  projectId : Id
  cells : List String
  movingTo : Option String
  policyGeneration : Nat
  deriving DecidableEq

inductive DirectoryCommand where
  | registerCell (cell region : String)
  | assignProject (projectId : Id) (cells : List String)
  | startProjectMove (projectId : Id) (ontoCell : String)
  | finishProjectMove (projectId : Id)
  | setGlobalPolicyGeneration (generation : Nat)
  deriving DecidableEq

inductive DirectoryError where
  | notFound (message : String)
  | refused (message : String)
  deriving DecidableEq

structure Directory where
  generation : Nat
  policyGeneration : Nat
  cells : OrderedMap String String
  placements : OrderedMap Id Placement

namespace Directory

def new : Directory := ⟨0, 0, ∅, ∅⟩

abbrev Outcome := Except DirectoryError Bool × Directory

def unassigned : DirectoryError := .notFound "That project is not assigned to a cell yet."

variable (directory : Directory)

def registerCell (cell region : String) : Outcome :=
  if directory.cells.get? cell = some region then (.ok false, directory)
  else (.ok true, { directory with cells := directory.cells.insert cell region })

def assignProject (projectId : Id) (cells : List String) : Outcome :=
  if cells.isEmpty then (.error (.refused "A project must be assigned to at least one cell."), directory)
  else
    match cells.find? fun cell => directory.cells.get? cell = none with
    | some unknown =>
        (.error (.notFound (s!"No cell is named `{unknown}`. Register the cell before assigning a project " ++
          "to it.")), directory)
    | none =>
        let existing := directory.placements.get? projectId
        if existing.map Placement.cells = some cells then (.ok false, directory)
        else
          (.ok true, { directory with
            placements := directory.placements.insert projectId
              ⟨projectId, cells, existing.bind Placement.movingTo, directory.policyGeneration⟩ })

def startProjectMove (projectId : Id) (ontoCell : String) : Outcome :=
  if directory.cells.get? ontoCell = none then
    (.error (.notFound s!"No cell is named `{ontoCell}`."), directory)
  else
    match directory.placements.get? projectId with
    | none => (.error unassigned, directory)
    | some placement =>
        if placement.movingTo = some ontoCell then (.ok false, directory)
        else
          (.ok true, { directory with
            placements := directory.placements.insert projectId { placement with movingTo := some ontoCell } })

def finishProjectMove (projectId : Id) : Outcome :=
  match directory.placements.get? projectId with
  | none => (.error unassigned, directory)
  | some placement =>
      match placement.movingTo with
      | none => (.ok false, directory)
      | some target =>
          (.ok true, { directory with
            placements := directory.placements.insert projectId
              { placement with movingTo := none, cells := target :: placement.cells.filter (· ≠ target) } })

def setGlobalPolicyGeneration (generation : Nat) : Outcome :=
  if directory.policyGeneration = generation then (.ok false, directory)
  else (.ok true, { directory with policyGeneration := generation })

def applyInner : DirectoryCommand → Outcome
  | .registerCell cell region => directory.registerCell cell region
  | .assignProject projectId cells => directory.assignProject projectId cells
  | .startProjectMove projectId ontoCell => directory.startProjectMove projectId ontoCell
  | .finishProjectMove projectId => directory.finishProjectMove projectId
  | .setGlobalPolicyGeneration generation => directory.setGlobalPolicyGeneration generation

def apply (command : DirectoryCommand) : Except DirectoryError Nat × Directory :=
  match directory.applyInner command with
  | (.error e, after) => (.error e, after)
  | (.ok changed, after) =>
      let after := if changed then { after with generation := after.generation + 1 } else after
      (.ok after.generation, after)

def run (commands : List DirectoryCommand) : Directory :=
  commands.foldl (fun directory command => (directory.apply command).2) directory

def raised : Directory := { directory with generation := directory.generation + 1 }

theorem apply_state (command : DirectoryCommand) :
    (directory.apply command).2 = counted raised (directory.applyInner command) := by
  unfold apply
  split
  · rename_i found
    rw [found]
    rfl
  · rename_i changed after found
    rw [found]
    cases changed <;> rfl

theorem apply_refused {command : DirectoryCommand} {e : DirectoryError}
    (refused : (directory.apply command).1 = .error e) : (directory.applyInner command).1 = .error e := by
  unfold apply at refused
  split at refused
  · rename_i found
    rw [found]
    exact congrArg Except.error (Except.error.inj refused)
  · cases refused

theorem honest (command : DirectoryCommand) : Honest (fun directory => directory.applyInner command) generation := by
  intro directory
  cases command with
  | registerCell cell region =>
    simp only [applyInner, registerCell]
    split
    · exact .same
    · exact .changed rfl
  | assignProject projectId cells =>
    simp only [applyInner, assignProject]
    split
    · exact .refused _
    · split
      · exact .refused _
      · split
        · exact .same
        · exact .changed rfl
  | startProjectMove projectId ontoCell =>
    simp only [applyInner, startProjectMove]
    split
    · exact .refused _
    · split
      · exact .refused _
      · split
        · exact .same
        · exact .changed rfl
  | finishProjectMove projectId =>
    simp only [applyInner, finishProjectMove]
    split
    · exact .refused _
    · split
      · exact .same
      · exact .changed rfl
  | setGlobalPolicyGeneration generation =>
    simp only [applyInner, setGlobalPolicyGeneration]
    split
    · exact .same
    · exact .changed rfl

end Directory

end TallyOwl.Cluster
