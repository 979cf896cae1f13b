import SharedArrays.Amend.Loops
import SharedArrays.Amend.Steps
import SharedArrays.Dict.Basic
import SharedArrays.Settings

/-!
# Amending one container

An amend replaces the elements at some positions of an array by a function of them, or the
values under some keys of a dictionary. The index of an array may be a list of indices: each
member is an amend of its own, with its own right operand.

A key that the dictionary does not have is appended first, with a neutral value. The positions of
new keys are worked out before anything is appended, so an amend that is rejected appends
nothing.

## Main definitions

* `Arr.amendAt` — an amend at resolved positions
* `Arr.amend` — an amend of an array
* `Placement`, `Dict.placement` — the positions that keys have or will take
* `Value.amend` — an amend of a value

## Main results

* `amendFn_list`, `amendFn_of_not_list` — an index is a list of indices, or a single selection
-/

namespace SharedArrays

namespace Arr

/-- The steps of an update at the positions of a selection. -/
def steps (c : Scope) (f : Callee) (z : Operands) (sel : Selection) : List Step :=
  sel.positions.zipIdx.map fun (i, k) =>
    ⟨i, fun old => f.call (c.site.sub (k + 1)) (old :: (z.at? k).toList)⟩

/-- An amend at resolved positions. -/
def amendAt (settings : Settings) (c : Scope) (a : Arr Value) (sel : Selection) (f : Callee)
    (z : Option Value) : Outcome (Arr Value) :=
  match f.operands z sel with
  | .error e => .failed a e
  | .ok operands =>
    let loop :=
      if settings.typedLoops then a.loop? (c.sub 0) f.value sel.positions operands else none
    match loop with
    | some b => .done b
    | none => a.revise (c.sub 0) (steps c f operands sel)

end Arr

/-- An amend of an array that waits for its surroundings, the array and the right operand. -/
abbrev ArrUpdate := Scope → Arr Value → Option Value → Outcome (Arr Value)

/-- Amends the array once for each update, the `k`-th with the `k`-th right operand, up to the
first that fails. -/
def amendInTurn (z : Operands) (c : Scope) (k : Nat) :
    List ArrUpdate → Arr Value → Outcome (Arr Value)
  | [], a => .done a
  | update :: rest, a =>
    match update (c.sub k) a (z.at? k) with
    | ⟨b, some e⟩ => .failed b e
    | ⟨b, none⟩ => amendInTurn z c (k + 1) rest b

/-- The amend of arrays at an index that is no list of indices. -/
def amendAtIndex (settings : Settings) (f : Callee) (y : Value) : ArrUpdate := fun c a z =>
  match Selection.ofIndex a.len y with
  | .error e => .failed a e
  | .ok sel => a.amendAt settings c sel f z

mutual

/-- The amend of arrays at an index. -/
def amendFn (settings : Settings) (f : Callee) : Value → ArrUpdate
  | .array a => amendArrFn settings f a
  | y => amendAtIndex settings f y

/-- The amend of arrays at an index that is an array. -/
def amendArrFn (settings : Settings) (f : Callee) : Arr Value → ArrUpdate
  | .list ⟨_, buf, off, len, _⟩ => fun c a z =>
    match Operands.forMany len z with
    | .error e => .failed a e
    | .ok operands => amendInTurn operands c 0 (stretch off len (amendFns settings f buf)) a
  | y => amendAtIndex settings f (.array y)

/-- The amends of arrays at the elements of a buffer. -/
def amendFns (settings : Settings) (f : Callee) : List Value → List ArrUpdate
  | [] => []
  | y :: ys => amendFn settings f y :: amendFns settings f ys

end

theorem amendFns_eq_map (settings : Settings) (f : Callee) (ys : List Value) :
    amendFns settings f ys = ys.map (amendFn settings f) := by
  induction ys with
  | nil => rfl
  | cons y ys ih => simp [amendFns, ih]

theorem amendFn_list (settings : Settings) (f : Callee) (w : Window Value) (c : Scope)
    (a : Arr Value) (z : Option Value) :
    amendFn settings f (.array (.list w)) c a z =
      match Operands.forMany w.len z with
      | .error e => .failed a e
      | .ok operands => amendInTurn operands c 0 (w.items.map (amendFn settings f)) a := by
  simp only [amendFn, amendArrFn, amendFns_eq_map, stretch_map]
  rfl

theorem amendFn_of_not_list (settings : Settings) (f : Callee) {y : Value}
    (hy : ∀ w, y ≠ .array (.list w)) : amendFn settings f y = amendAtIndex settings f y := by
  cases y with
  | array a =>
    cases a with
    | list w => exact absurd rfl (hy w)
    | _ => rfl
  | _ => rfl

/-- The array `a` amended at the index `y` by the function `f`. -/
def Arr.amend (settings : Settings) (c : Scope) (a : Arr Value) (y : Value) (f : Callee)
    (z : Option Value) : Outcome (Arr Value) :=
  amendFn settings f y c a z

/-- The positions that keys have in a dictionary, once the missing ones are appended. -/
structure Placement where
  selection : Selection
  /-- The keys to append, in order. -/
  missing : List Value

/-- The position that a missing key will take, given the keys already known to be missing, and
the keys known to be missing afterwards. -/
def newPosition (len : Nat) (missing : List Value) (k : Value) : Nat × List Value :=
  match missing.findIdx? (·.eqv k) with
  | some i => (len + i, missing)
  | none => (len + missing.length, missing ++ [k])

/-- The positions of several keys, given where they were found. -/
def placeKeys (len : Nat) (missing : List Value) :
    List (Value × Option Nat) → List Nat × List Value
  | [] => ([], missing)
  | (_, some p) :: rest =>
    let (ps, missing) := placeKeys len missing rest
    (p :: ps, missing)
  | (k, none) :: rest =>
    let (p, missing) := newPosition len missing k
    let (ps, missing) := placeKeys len missing rest
    (p :: ps, missing)

/-- The position that a single key has, or will take. -/
def Dict.placeOne (d : Dict Value) (k : Value) : Placement :=
  match d.find? k with
  | some p => ⟨.one p, []⟩
  | none => ⟨.one d.len, [k]⟩

/-- Resolves an index of a dictionary. Nil means every key, and an array means one key per
element, unless the array itself is a key. -/
def Dict.placement (settings : Settings) (d : Dict Value) (y : Value) : Placement :=
  match y with
  | .nil => ⟨.many (List.range d.len), []⟩
  | .array keys =>
    match (if d.keys.kind = .list then d.find? y else none) with
    | some p => ⟨.one p, []⟩
    | none =>
      let (ps, missing) :=
        placeKeys d.len [] (keys.values.zip (d.positions keys settings.indexThreshold))
      ⟨.many ps, missing⟩
  | k => d.placeOne k

/-- The dictionary `d` amended at the keys `y` by the function `f`. -/
def Dict.amend (settings : Settings) (c : Scope) (d : Dict Value) (y : Value) (f : Callee)
    (z : Option Value) : Outcome (Dict Value) :=
  let plan := d.placement settings y
  match f.operands z plan.selection with
  | .error e => .failed d e
  | .ok _ =>
    -- From here on nothing but the function itself can fail.
    let d := d.appendKeys (c.sub 0) plan.missing
    -- The keys stay as they are now, whatever becomes of the values.
    (d.vals.amendAt settings ((c.sub 1).beside [.array d.keys]) plan.selection f z).map
      (⟨d.keys, ·⟩)

/-- The value `x` amended at `y` by the function `f`. A dictionary to which something else refers
is copied first. -/
def Value.amend (settings : Settings) (c : Scope) (x y : Value) (f : Callee) (z : Option Value) :
    Outcome Value :=
  match x with
  | .array a => (a.amend settings c y f z).map .array
  | .dict s d => (d.amend settings c y f z).map (.dict (c.own s))
  | x => .failed x (.type "array or dict" x.typeName)

end SharedArrays
