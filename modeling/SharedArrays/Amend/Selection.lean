import SharedArrays.Arr.Read

/-!
# Selections and right operands

An index says which positions of a container an amend changes. It is resolved, and all of its
positions are checked, before anything is written. A single position takes the right operand
whole. Several positions share an atom, and take one element each of an array, which must have
as many elements as there are positions.

## Main definitions

* `Selection` — resolved positions
* `Selection.ofIndex` — resolving an index
* `Operands` — the right operands of the positions
* `Callee` — a function together with the way to call it

## Main results

* `Selection.lt_of_ofIndex` — resolved positions are positions of the container
-/

namespace SharedArrays

/-- Positions of a container, in the order in which they are changed. -/
inductive Selection where
  | one (i : Nat)
  | many (ps : List Nat)
deriving DecidableEq, Repr

/-- The position that an index means in a container of length `len`. -/
def position (len : Nat) (i : Int64) : Result Nat :=
  if 0 ≤ i.toInt ∧ i.toInt < len then .ok i.toInt.toNat else .error (.outOfBounds i len)

namespace Selection

/-- The positions as a list. -/
def positions : Selection → List Nat
  | one i => [i]
  | many ps => ps

/-- Resolves an index against a container of length `len`. Nil means every position, truth values
count as 0 and 1. -/
def ofIndex (len : Nat) : Value → Result Selection
  | .nil => .ok (.many (List.range len))
  | .int i => return .one (← position len i)
  | .array (.ints w) => return .many (← w.items.mapM (position len))
  | .array (.bools w) => return .many (← w.items.mapM fun b => position len (if b then 1 else 0))
  | y => .error (.type "int index" y.typeName)

end Selection

/-- The right operands of the positions of a selection. -/
inductive Operands where
  | absent
  /-- One value, used at every position. -/
  | whole (z : Value)
  /-- The `k`-th element for the `k`-th position. -/
  | each (a : Arr Value)

namespace Operands

/-- The right operands of `count` positions. -/
def forMany (count : Nat) : Option Value → Result Operands
  | none => .ok .absent
  | some (.array a) =>
    if a.len = count then .ok (.each a) else .error (.length "indices vs values" count a.len)
  | some z => .ok (.whole z)

/-- The right operands of a selection. -/
def ofSelection (z : Option Value) : Selection → Result Operands
  | .one _ => .ok (z.elim .absent .whole)
  | .many ps => forMany ps.length z

/-- The operand of the `k`-th position. -/
def at? : Operands → Nat → Option Value
  | absent, _ => none
  | whole z, _ => some z
  | each a, k => a.at? k

end Operands

/-- A value in the role of the update function, with the way to call it: the objects of a call are
made at the given site and below. -/
structure Callee where
  value : Value
  call : Site → List Value → Result Value

namespace Callee

/-- Checks that an update can begin: the function can be called, and the right operand matches
the positions. -/
def operands (f : Callee) (z : Option Value) (sel : Selection) : Result Operands :=
  if f.value.isFunction then Operands.ofSelection z sel
  else .error (.type "function" f.value.typeName)

end Callee

theorem position_lt {len : Nat} {i : Int64} {p : Nat} (h : position len i = .ok p) : p < len := by
  unfold position at h
  split at h
  · rename_i hi
    cases h
    omega
  · cases h

theorem exists_of_mapM_ok {α β : Type} {f : α → Result β} {xs : List α} {ys : List β}
    (h : xs.mapM f = .ok ys) {y : β} (hy : y ∈ ys) : ∃ x ∈ xs, f x = .ok y := by
  induction xs generalizing ys with
  | nil =>
    cases h
    cases hy
  | cons x xs ih =>
    rw [List.mapM_cons] at h
    obtain ⟨z, hz, h⟩ := bind_eq_ok.1 h
    obtain ⟨zs, hzs, h⟩ := bind_eq_ok.1 h
    cases h
    rcases List.mem_cons.1 hy with rfl | hy
    · exact ⟨x, by simp, hz⟩
    · obtain ⟨u, hu, hfu⟩ := ih hzs hy
      exact ⟨u, by simp [hu], hfu⟩

theorem Selection.lt_of_ofIndex {len : Nat} {y : Value} {sel : Selection}
    (h : Selection.ofIndex len y = .ok sel) {p : Nat} (hp : p ∈ sel.positions) : p < len := by
  unfold ofIndex at h
  split at h
  · cases h
    simpa [positions] using hp
  · obtain ⟨q, hq, h⟩ := bind_eq_ok.1 h
    cases h
    have : p = q := by simpa [positions] using hp
    exact this ▸ position_lt hq
  · obtain ⟨qs, hqs, h⟩ := bind_eq_ok.1 h
    cases h
    obtain ⟨i, _, hi⟩ := exists_of_mapM_ok hqs hp
    exact position_lt hi
  · obtain ⟨qs, hqs, h⟩ := bind_eq_ok.1 h
    cases h
    obtain ⟨i, _, hi⟩ := exists_of_mapM_ok hqs hp
    exact position_lt hi
  · cases h

end SharedArrays
