import SharedArrays.Arr.Storage
import SharedArrays.Value.Equality

/-!
# Reading arrays

Reading elements, stretches and selections, joining arrays, and searching them.

## Main definitions

* `Arr.at?`, `Arr.get` — one element
* `Arr.slice`, `Arr.select` — several elements, on the same buffer and on a new one
* `Arr.concat` — the elements of two arrays in a row
* `Arr.find?` — the first position of a value
* `lowerBound` — binary search

## Main results

* `Arr.values_concat` — the elements of two arrays in a row
-/

namespace SharedArrays

namespace Arr

/-- The integers from 0 to below `n`, which counts as an integer of the language: a number that
has no such integer wraps around. -/
def til (s : Site) (n : Nat) : Arr Value :=
  .ints (.ofList s ((List.range (Int64.ofNat n).toInt.toNat).map fun i => Int64.ofNat i)
    { ascending := true, distinct := true, zeroOne := n ≤ 2 })

/-- Element `i` as a value. -/
def at? (a : Arr Value) (i : Nat) : Option Value := a.values[i]?

/-- Element `i`, or a failure if the index is out of range. -/
def get (a : Arr Value) (i : Int64) : Result Value :=
  match (if 0 ≤ i.toInt then a.at? i.toInt.toNat else none) with
  | some v => .ok v
  | none => .error (.outOfBounds i a.len)

/-- The elements from `i` up to `j`, on the same buffer. -/
def slice (a : Arr Value) (i j : Nat) : Result (Arr Value) :=
  if a.len < j then .error (.outOfBounds (Int64.ofNat j) a.len)
  else if j < i then .error (.outOfBounds (Int64.ofNat i) j)
  else .ok (a.update (·.slice i j))

/-- The elements at the given positions, on a new buffer. -/
def select (s : Site) (a : Arr Value) (ps : List Nat) : Result (Arr Value) :=
  match ps.find? (a.len ≤ ·) with
  | some bad => .error (.outOfBounds (Int64.ofNat bad) a.len)
  | none => .ok (a.update (·.select s ps))

/-- The elements of `a` and then those of `b`. Arrays of one untagged variant keep it. Otherwise
an empty side gives way to the other side as it is, and two non-empty sides go to canonical
storage. -/
def concat (s : Site) (a b : Arr Value) : Arr Value :=
  match a, b with
  | bools v, bools w => bools (.ofList s (v.items ++ w.items))
  | ints v, ints w => ints (.ofList s (v.items ++ w.items))
  | floats v, floats w => floats (.ofList s (v.items ++ w.items))
  | strs v, strs w => strs (.ofList s (v.items ++ w.items))
  -- Two lists, or two variants: the elements decide.
  | a, b =>
    if b.len = 0 then a else if a.len = 0 then b else .ofValues s (a.values ++ b.values)

theorem values_concat (s : Site) (a b : Arr Value) :
    (a.concat s b).values = a.values ++ b.values := by
  unfold concat
  split
  · simp [values]
  · simp [values]
  · simp [values]
  · simp [values]
  · split
    · simp [values_eq_nil ‹b.len = 0›]
    · split
      · simp [values_eq_nil ‹a.len = 0›]
      · exact values_ofValues ..

end Arr

/-- Binary search in `xs` for the place where `below` turns false. Each round halves the stretch
of `size` elements from `base` on; `fuel` bounds the rounds. -/
def lowerBoundFrom {α : Type} (below : α → Bool) (xs : List α) : Nat → Nat → Nat → Nat
  | 0, base, _ => base
  | fuel + 1, base, size =>
    if size ≤ 1 then base
    else
      let half := size / 2
      let base' := if (xs[base + half]?).any below then base + half else base
      lowerBoundFrom below xs fuel base' (size - half)

/-- The number of elements in front of the place where `below` turns false, found by binary
search. It is meant for lists on which `below` holds up to some place and fails from there on. -/
def lowerBound {α : Type} (below : α → Bool) (xs : List α) : Nat :=
  let base := lowerBoundFrom below xs xs.length 0 xs.length
  if (xs[base]?).any below then base + 1 else base

/-- The first position of `x` in an ascending list, found by binary search. -/
def findSorted? {α : Type} [BEq α] (lt : α → α → Bool) (xs : List α) (x : α) :
    Option Nat :=
  let i := lowerBound (lt · x) xs
  if xs[i]? == some x then some i else none

/-- The first position at which the array has an element equal to `v`. Ascending integers and
strings are searched by halves. Floats never are, since their order and their equality differ on
zeros and NaNs. -/
def Arr.find? (a : Arr Value) (v : Value) : Option Nat :=
  match a, v with
  | .bools w, .int n => w.items.findIdx? fun b => (if b then 1 else 0) == n
  | .ints w, .int n =>
    if w.flags.ascending then findSorted? (fun x y => x < y) w.items n
    else w.items.findIdx? (· == n)
  | .floats w, .float x => w.items.findIdx? (·.bits == x.bits)
  | .strs w, .str s =>
    if w.flags.ascending then findSorted? (fun x y => x < y) w.items s
    else w.items.findIdx? (· == s)
  | .list w, v => w.items.findIdx? (·.eqv v)
  | _, _ => none

end SharedArrays
