import SharedArrays.Dict.Basic

/-!
# Merging dictionaries

Merging goes through the entries of the right dictionary. An entry whose key occurs on the left
is combined with the left value at the key's first position, and the other entries are appended
in order. How values are combined is a parameter.

## Main definitions

* `MergePlan`, `Dict.mergePlan` — which entries are combined, and which are appended
* `Dict.appendFrom` — appending some entries of another dictionary
* `Dict.mergeWith` — merging
-/

namespace SharedArrays

/-- The entries of a right dictionary, sorted by whether their keys occur on the left. -/
structure MergePlan where
  /-- The left position of the key and the right position of the entry. -/
  common : List (Nat × Nat)
  /-- The right positions of the entries whose keys do not occur on the left. -/
  fresh : List Nat
deriving Repr

/-- Sorts the entries of `r` by whether their keys occur in `l`. -/
def Dict.mergePlan (threshold : Nat) (l r : Dict Value) : MergePlan :=
  let found := (l.positions r.keys threshold).zipIdx
  { common := found.filterMap fun (p, j) => p.map (·, j)
    fresh := found.filterMap fun (p, j) => if p.isNone then some j else none }

/-- Appends the entries of `r` at the positions `fresh`. -/
def Dict.appendFrom (s : Site) (d r : Dict Value) (fresh : List Nat) : Result (Dict Value) :=
  if fresh.isEmpty then .ok d
  else do
    let newKeys ← r.keys.select (s.sub 0) fresh
    let newVals ← r.vals.select (s.sub 1) fresh
    d.append? (s.sub 2) newKeys newVals

/-- The entries of `l`, with the entries of `r` combined or appended. `combine` updates the left
values at the common positions. -/
def Dict.mergeWith (s : Site) (threshold : Nat)
    (combine : List (Nat × Nat) → Arr Value → Result (Arr Value)) (l r : Dict Value) :
    Result (Dict Value) := do
  let plan := l.mergePlan threshold r
  let vals ← (if plan.common.isEmpty then .ok l.vals else combine plan.common l.vals)
  Dict.appendFrom s ⟨l.keys, vals⟩ r plan.fresh

end SharedArrays
