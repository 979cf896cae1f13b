import SharedArrays.Amend.Selection
import SharedArrays.Arr.Write

/-!
# Loops for single storage variants

Where the update function is a built-in operator, and the right operands fit the storage variant
of the array, an update needs no values: a loop works on the untagged elements. A loop leaves
what the steps of the update would leave, and runs only where no step can fail or need another
variant. Everything else is left to the steps.

## Main definitions

* `Window.updateEach` — a loop
* `Operands.ints?`, `Operands.floats?`, `Operands.strs?` — untagged right operands
* `Arr.loop?` — the loop for an update, if there is one
-/

namespace SharedArrays

/-- Replaces the elements at the given positions, in order, each by `f` of it and of the entry that
comes with the position. -/
def Window.updateEach {α β : Type} (c : Scope) (w : Window α) (f : α → β → α)
    (entries : List (Nat × β)) : Window α :=
  let u := w.makePrivate c
  { u with buf := entries.foldl (fun buf (i, x) => buf.modify (u.off + i) (f · x)) u.buf }

namespace Operands

/-- The operands of `n` positions as integers. -/
def ints? (n : Nat) : Operands → Option (List Int64)
  | whole (.int m) => some (List.replicate n m)
  | each (.ints w) => some w.items
  | _ => none

/-- The operands of `n` positions as floats. -/
def floats? (n : Nat) : Operands → Option (List Double)
  | whole (.float x) => some (List.replicate n x)
  | each (.floats w) => some w.items
  | _ => none

/-- The operands of `n` positions as strings. -/
def strs? (n : Nat) : Operands → Option (List String)
  | whole (.str s) => some (List.replicate n s)
  | each (.strs w) => some w.items
  | _ => none

end Operands

/-- The integer operators whose answer is an integer. -/
def Builtin.intLoop? : Builtin → Option (Int64 → Int64 → Int64)
  | right => some fun _ n => n
  | add => some (· + ·)
  | subtract => some (· - ·)
  | multiply => some (· * ·)
  | _ => none

/-- The float operators that have a loop. -/
def Builtin.floatLoop? : Builtin → Option (Double → Double → Double)
  | add => some (· + ·)
  | subtract => some (· - ·)
  | multiply => some (· * ·)
  | divide => some (· / ·)
  | _ => none

namespace Arr

/-- The loop for an operator without a right operand. -/
def loopOne? (c : Scope) (b : Builtin) (ps : List Nat) : Arr Value → Option (Arr Value)
  | bools w =>
    match b with
    | .not => some (bools (w.updateEach c (fun x _ => !x) (ps.map (·, ()))))
    | _ => none
  | ints w =>
    match b with
    | .subtract => some (ints (w.updateEach c (fun n _ => -n) (ps.map (·, ()))))
    | .not => some (ints (w.updateEach c (fun n _ => if n == 0 then 1 else 0) (ps.map (·, ()))))
    | _ => none
  | floats w =>
    match b with
    | .subtract => some (floats (w.updateEach c (fun x _ => -x) (ps.map (·, ()))))
    | _ => none
  | _ => none

/-- The loop for an operator with a right operand. -/
def loopTwo? (c : Scope) (b : Builtin) (ps : List Nat) (z : Operands) :
    Arr Value → Option (Arr Value)
  | ints w => do
    let f ← b.intLoop?
    let ns ← z.ints? ps.length
    return ints (w.updateEach c f (ps.zip ns))
  | floats w =>
    if b = .right then do
      let xs ← z.floats? ps.length
      return floats (w.updateEach c (fun _ x => x) (ps.zip xs))
    else do
      let f ← b.floatLoop?
      match z.floats? ps.length, z.ints? ps.length with
      | some xs, _ => return floats (w.updateEach c f (ps.zip xs))
      | none, some ns => return floats (w.updateEach c (fun x n => f x (.ofInt n)) (ps.zip ns))
      | none, none => none
  | bools w =>
    if b = .right then do
      let ns ← z.ints? ps.length
      if ns.all fun n => n == 0 || n == 1 then
        return bools (w.updateEach c (fun _ n => n == 1) (ps.zip ns))
      else none
    else none
  | strs w =>
    if b = .right then do
      let ss ← z.strs? ps.length
      return strs (w.updateEach c (fun _ s => s) (ps.zip ss))
    else none
  | list _ => none

/-- The array after a loop over the positions, if one applies. -/
def loop? (c : Scope) (f : Value) (ps : List Nat) (z : Operands) (a : Arr Value) :
    Option (Arr Value) :=
  match f with
  | .builtin b =>
    if ps.isEmpty then none
    else
      match z with
      | .absent => a.loopOne? c b ps
      | z => a.loopTwo? c b ps z
  | _ => none

end Arr

end SharedArrays
