import SharedArrays.Arr.Read
import SharedArrays.Arr.Write

/-!
# Steps of an update

An update of an array is a list of steps. A step replaces the element at one position by a
function of it. Steps run in order, each on what the earlier ones left, and a step that fails
ends the update; what was written stays.

## Main definitions

* `Step` — a position and a function
* `Arr.runSteps` — running steps
* `Arr.revise` — running steps and restoring canonical storage
-/

namespace SharedArrays

/-- One step of an update: the element at `position` is replaced by `run` of it. -/
structure Step where
  position : Nat
  run : Value → Result Value

namespace Arr

/-- Runs steps one after the other, up to the first that fails. -/
def runSteps (c : Scope) : List Step → Arr Value → Outcome (Arr Value)
  | [], a => .done a
  | s :: rest, a =>
    match a.at? s.position with
    | none => .failed a (.outOfBounds (Int64.ofNat s.position) a.len)
    | some old =>
      match s.run old with
      | .error e => .failed a e
      | .ok new => runSteps c rest (a.put c s.position new)

/-- Runs steps, and then moves the array to canonical storage, also after a failure. What the
failure holds is alive meanwhile. -/
def revise (c : Scope) (steps : List Step) (a : Arr Value) : Outcome (Arr Value) :=
  let o := a.runSteps c steps
  o.map (·.canonical (c.beside o.raised))

end Arr

end SharedArrays
