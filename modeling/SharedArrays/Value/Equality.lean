import SharedArrays.Value.Basic

/-!
# Equality of values

Two data values are equal when they show the same elements, whatever the storage variant of
their arrays and whatever lies outside of the windows. Floats are compared by their bits: a NaN
equals itself, but not a NaN with another sign or payload, and the two zeros differ. Integers and
floats are never equal. User functions, compositions and projections are equal only to themselves.

The digest of a value is a list of words that equal values share; an index of keys sorts its
entries by it.

## Main definitions

* `Value.eqv`, `Arr.eqv` — equality
* `Value.digest` — words that equal values share

## Main results

* `eqvFns_eq_map`, `digests_eq_map` — the forms for the elements of a buffer are maps
-/

namespace SharedArrays

/-- Equality where neither side contains further values. -/
def Value.eqvAtom : Value → Value → Bool
  | .nil, .nil => true
  | .int m, .int n => m == n
  | .float x, .float y => x.bits == y.bits
  | .str s, .str t => s == t
  | .builtin a, .builtin b => a == b
  | .lambda s _ _ _, .lambda t _ _ _ => s == t
  | .compose s _ _, .compose t _ _ => s == t
  | .project s _ _, .project t _ _ => s == t
  | _, _ => false

/-- There are as many values as tests, and each value passes its test. -/
def allPass {α : Type} : List (α → Bool) → List α → Bool
  | [], [] => true
  | f :: fs, v :: vs => f v && allPass fs vs
  | _, _ => false

mutual

/-- Equality of values. -/
def Value.eqv : Value → Value → Bool
  | .array a, w => w.array?.any a.eqv
  | .dict _ ⟨keys, vals⟩, w =>
    match w with
    | .dict _ d => keys.eqv d.keys && vals.eqv d.vals
    | _ => false
  | .error _ v, w =>
    match w with
    | .error _ w => v.eqv w
    | _ => false
  | v, w => v.eqvAtom w

/-- Equality of arrays: the same number of elements, equal in pairs. -/
def Arr.eqv : Arr Value → Arr Value → Bool
  | .list ⟨_, buf, off, len, _⟩, b => allPass (stretch off len (eqvFns buf)) b.values
  | a, b => allPass (a.values.map Value.eqvAtom) b.values

/-- For each value the test whether another one equals it. -/
def eqvFns : List Value → List (Value → Bool)
  | [] => []
  | v :: vs => v.eqv :: eqvFns vs

end

instance : BEq Value := ⟨Value.eqv⟩

instance : BEq (Arr Value) := ⟨Arr.eqv⟩

theorem eqvFns_eq_map (vs : List Value) : eqvFns vs = vs.map Value.eqv := by
  induction vs with
  | nil => rfl
  | cons v vs ih => simp [eqvFns, ih]

/-- The words of a site. -/
def Site.digest (s : Site) : List Nat := s.path.length :: s.path

/-- The words of a string. -/
def stringDigest (s : String) : List Nat := s.length :: s.toList.map Char.toNat

/-- The words of a value that contains no further values. -/
def Value.digestAtom : Value → List Nat
  | .int n => [1, n.toUInt64.toNat]
  | .float x => [2, x.bits.toNat]
  | .builtin b => 3 :: stringDigest b.symbol
  | .lambda s _ _ _ => 4 :: s.digest
  | .str s => 5 :: stringDigest s
  | .compose s _ _ => 8 :: s.digest
  | .project s _ _ => 9 :: s.digest
  | _ => [0]

mutual

/-- The digest of a value. A dictionary is represented by its keys alone. -/
def Value.digest : Value → List Nat
  | .array a => 6 :: a.digest
  | .dict _ ⟨keys, _⟩ => 7 :: keys.digest
  | .error _ v => 10 :: v.digest
  | v => v.digestAtom

/-- The digest of an array: the number of elements, then each of them. -/
def Arr.digest : Arr Value → List Nat
  | .list ⟨_, buf, off, len, _⟩ =>
    let ds := stretch off len (digests buf)
    ds.length :: ds.flatten
  | a => a.values.length :: (a.values.map Value.digestAtom).flatten

/-- The digests of the elements of a buffer. -/
def digests : List Value → List (List Nat)
  | [] => []
  | v :: vs => v.digest :: digests vs

end

theorem digests_eq_map (vs : List Value) : digests vs = vs.map Value.digest := by
  induction vs with
  | nil => rfl
  | cons v vs ih => simp [digests, ih]

end SharedArrays
