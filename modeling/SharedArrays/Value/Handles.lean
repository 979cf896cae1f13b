import SharedArrays.Value.Basic

/-!
# Handles

A live handle is a place that refers to a shared object: a root outside of all objects, or a
place inside of an object. However many ways lead to an object, a place inside of it is one
place. The handle count of an object is the number of live places that refer to it.

## Main definitions

* `Place`, `Handle` — where a reference sits, and what it refers to
* `Value.handles` — the handles that a value keeps alive
* `Value.holds` — whether a value keeps an object alive
* `handleCount` — the number of handles on an object over several roots
* `Scope` — what else is alive during an operation, and where it makes new objects
* `Window.isPrivate` — the test that allows a write in place

## Main results

* `Scope.holds_beside` — what is alive beside further values
-/

namespace SharedArrays

/-- A place that can hold a reference. -/
inductive Place where
  /-- The `n`-th value outside of all objects. -/
  | root (n : Nat)
  /-- Inside an object; the path leads to one of several places. -/
  | inside (owner : Site) (path : List Nat)
deriving DecidableEq, Repr

/-- A reference: the place where it sits, and the object it refers to. -/
structure Handle where
  place : Place
  object : Site
deriving DecidableEq, Repr

mutual

/-- The handles that a value at place `p` keeps alive, its own included. A buffer keeps all of
its elements alive, also those outside of the window. -/
def Value.handles (p : Place) : Value → List Handle
  | .array a => a.handles p
  | .dict s ⟨keys, vals⟩ =>
    ⟨p, s⟩ :: (keys.handles (.inside s [0]) ++ vals.handles (.inside s [1]))
  | .error s v => ⟨p, s⟩ :: v.handles (.inside s [0])
  | .lambda s _ _ body => ⟨p, s⟩ :: body.handles s []
  | .compose s outer inner =>
    ⟨p, s⟩ :: (outer.handles (.inside s [0]) ++ inner.handles (.inside s [1]))
  | .project s f args => ⟨p, s⟩ :: (f.handles (.inside s []) ++ handlesOfArgs s 0 args)
  | _ => []

/-- The handles that an array at place `p` keeps alive. -/
def Arr.handles (p : Place) : Arr Value → List Handle
  | .bools w => [⟨p, w.storage⟩]
  | .ints w => [⟨p, w.storage⟩]
  | .floats w => [⟨p, w.storage⟩]
  | .strs w => [⟨p, w.storage⟩]
  -- The elements belong to the buffer, so two windows on it list the same places for them.
  | .list ⟨s, buf, _, _, _⟩ => ⟨p, s⟩ :: handlesOfCells s 0 buf

/-- The handles in the elements of the buffer `s`, from position `i` on. -/
def handlesOfCells (s : Site) (i : Nat) : List Value → List Handle
  | [] => []
  | v :: vs => v.handles (.inside s [i]) ++ handlesOfCells s (i + 1) vs

/-- The handles in the arguments that the projection `s` has bound, from the `i`-th on. -/
def handlesOfArgs (s : Site) (i : Nat) : List (Option Value) → List Handle
  | [] => []
  | none :: vs => handlesOfArgs s (i + 1) vs
  | some v :: vs => v.handles (.inside s [i]) ++ handlesOfArgs s (i + 1) vs

/-- The handles in the constants of the user function `s`. -/
def Body.handles (s : Site) (path : List Nat) : Body Value → List Handle
  | .arg _ => []
  | .const v => v.handles (.inside s path)
  | .call f args => f.handles (.inside s (0 :: path)) ++ handlesOfBodies s 1 path args
  | .raise b => b.handles s (0 :: path)
  -- Of all causes only this one holds a value.
  | .fail ⟨.raised v, _, _⟩ => v.handles (.inside s path)
  | .fail _ => []
  | .branch c t e =>
    c.handles s (0 :: path) ++ t.handles s (1 :: path) ++ e.handles s (2 :: path)
  | .amend _ x y f =>
    x.handles s (0 :: path) ++ y.handles s (1 :: path) ++ f.handles (.inside s (2 :: path))
  | .amendWith _ x y f z =>
    x.handles s (0 :: path) ++ y.handles s (1 :: path) ++ f.handles (.inside s (2 :: path)) ++
      z.handles s (3 :: path)

/-- The handles in the parts of a body, from the `i`-th on. -/
def handlesOfBodies (s : Site) (i : Nat) (path : List Nat) : List (Body Value) → List Handle
  | [] => []
  | b :: bs => b.handles s (i :: path) ++ handlesOfBodies s (i + 1) path bs

end

/-- The value keeps the object `s` alive. -/
def Value.holds (s : Site) (v : Value) : Bool := (v.handles (.root 0)).any (·.object == s)

/-- The number of live handles on the object `s`, when `roots` are all the values outside of
objects. -/
def handleCount (roots : List Value) (s : Site) : Nat :=
  ((handlesOfRoots 0 roots).filter (·.object == s)).eraseDups.length
where
  /-- The handles of all roots, which are numbered from `n` on. -/
  handlesOfRoots (n : Nat) : List Value → List Handle
    | [] => []
    | v :: vs => v.handles (.root n) ++ handlesOfRoots (n + 1) vs

/-- The surroundings of an operation: the values that are alive beside the one that it works on,
and the site at which it makes new objects. -/
structure Scope where
  held : List Value
  site : Site

namespace Scope

/-- Something else that is alive refers to the object `t`. -/
def holds (c : Scope) (t : Site) : Bool := c.held.any (·.holds t)

/-- The surroundings of the `k`-th part of an operation. -/
def sub (c : Scope) (k : Nat) : Scope := { c with site := c.site.sub k }

/-- The surroundings of an operation beside which `vs` are alive too. -/
def beside (c : Scope) (vs : List Value) : Scope := { c with held := c.held ++ vs }

@[simp] theorem holds_sub (c : Scope) (k : Nat) (t : Site) : (c.sub k).holds t = c.holds t := rfl

theorem holds_beside (c : Scope) (vs : List Value) (t : Site) :
    (c.beside vs).holds t = (c.holds t || vs.any (·.holds t)) := by
  simp [holds, beside]

end Scope

namespace Window

variable {α : Type}

/-- No other handle is on the buffer, and the handle is not pinned: a write in place changes
nothing that anyone else can read. -/
def isPrivate (c : Scope) (w : Window α) : Bool := !w.flags.pinned && !c.holds w.storage

end Window

end SharedArrays
