import SharedArrays.Value.Handles

/-!
# Freezing

A pinned handle is never written in place: the next write through it copies, whoever else is on
the buffer. Freezing a value pins its handle, and what is nested in it as far as the buffers and
dictionaries on the way are referred to from nowhere else. A shared container is not entered:
whoever writes to it copies it first, and the copy's elements are then shared.

## Main definitions

* `Value.freeze`, `Arr.freeze` — pinning a value and what is nested in it
* `Arr.adopt` — a second handle on a value, frozen if its container is pinned
* `Value.isSole` — whether a value could be changed in place

## Main results

* `Arr.freeze_list` — freezing a list, cell by cell
-/

namespace SharedArrays

/-- The same handle, pinned. -/
def Arr.pin (a : Arr Value) : Arr Value := a.setFlags { a.flags with pinned := true }

mutual

/-- Pins a value and what is nested in it, where nothing else refers to the containers. -/
def Value.freeze (c : Scope) : Value → Value
  | .array a => .array (a.freeze c)
  | .dict s ⟨keys, vals⟩ =>
    if c.holds s then .dict s ⟨keys, vals⟩
    else .dict s ⟨keys.freeze (c.beside [.array vals]), vals.freeze (c.beside [.array keys])⟩
  | v => v

/-- Pins an array and, if nothing else refers to its buffer, the elements of its window. -/
def Arr.freeze (c : Scope) : Arr Value → Arr Value
  | .list ⟨s, buf, off, len, flags⟩ =>
    let cells :=
      if c.holds s then buf
      else (buf.zip (freezeFns buf)).mapIdx fun i (v, freeze) =>
        -- Beside an element, the other elements of the buffer are alive.
        if off ≤ i ∧ i < off + len then freeze (c.beside (buf.eraseIdx i)) else v
    .list ⟨s, cells, off, len, { flags with pinned := true }⟩
  | a => a.pin

/-- For each value of a buffer the way to freeze it. -/
def freezeFns : List Value → List (Scope → Value)
  | [] => []
  | v :: vs => (fun c => v.freeze c) :: freezeFns vs

end

theorem freezeFns_eq_map (vs : List Value) :
    freezeFns vs = vs.map fun v c => v.freeze c := by
  induction vs with
  | nil => rfl
  | cons v vs ih => simp [freezeFns, ih]

theorem mapIdx_zip_map {α β γ : Type} (xs : List α) (g : α → β) (k : Nat → α × β → γ) :
    (xs.zip (xs.map g)).mapIdx k = xs.mapIdx fun i x => k i (x, g x) := by
  induction xs generalizing k with
  | nil => rfl
  | cons x xs ih => simp [List.mapIdx_cons, ih]

/-- The elements of the window `w` frozen, each beside the others of the buffer. -/
def Window.frozenCells (c : Scope) (w : Window Value) : List Value :=
  w.buf.mapIdx fun i v =>
    if w.off ≤ i ∧ i < w.off + w.len then v.freeze (c.beside (w.buf.eraseIdx i)) else v

theorem Arr.freeze_list (c : Scope) (w : Window Value) :
    (Arr.list w).freeze c = .list { w with
      buf := if c.holds w.storage then w.buf else w.frozenCells c
      flags := { w.flags with pinned := true } } := by
  obtain ⟨s, buf, off, len, flags⟩ := w
  simp only [Arr.freeze, freezeFns_eq_map, mapIdx_zip_map]
  rfl

/-- A second handle on `v` for a place in the container `a`. A pinned container passes its pin
on. The value itself stays alive meanwhile. -/
def Arr.adopt (c : Scope) (a : Arr Value) (v : Value) : Value :=
  if a.flags.pinned then v.freeze (c.beside [v]) else v

/-- With `roots` as all values outside of objects, a change in place could be seen through no
other handle. Atoms are sole in a trivial way. -/
def Value.isSole (roots : List Value) : Value → Bool
  | .array a => sole a
  | .dict s ⟨keys, vals⟩ => handleCount roots s == 1 && sole keys && sole vals
  | _ => true
where
  /-- The handle is the only one on its buffer, and is not pinned. -/
  sole (a : Arr Value) : Bool := !a.flags.pinned && handleCount roots a.storage == 1

end SharedArrays
