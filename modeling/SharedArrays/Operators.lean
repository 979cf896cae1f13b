import SharedArrays.Amend.Steps
import SharedArrays.Dict.Merge
import SharedArrays.Settings

/-!
# What the operators compute

Arithmetic, comparison, the smaller and the larger operand are defined on atoms and carried
through containers: an array answers element by element, a dictionary value by value under the
same keys. Two arrays must have equal length. Two dictionaries are merged.

Integers wrap around at 64 bits, and a quotient is always a float. Results are moved to canonical
storage; comparisons and "is zero" answer truth values.

## Main definitions

* `Builtin.onAtoms` — an operator on two atoms
* `Value.carry` — carrying a function of atoms through a container
* `withRight` — carrying an operator through two operands
* `Builtin.monadic`, `Builtin.dyadic` — the operators with one and with two operands

## Main results

* `withRights_eq_map`, `carryCells_eq_mapIdx` — the forms for the elements of a buffer are maps
* `withRightElements_eq_map` — an array makes one function of each of its elements
-/

namespace SharedArrays

/-- The integer 1 or 0. -/
def Value.ofBool (b : Bool) : Value := .int (if b then 1 else 0)

/-- An error value as the answer of a call is a failure of the call. -/
def Value.settle : Value → Result Value
  | .error _ v => .error (.raised v)
  | v => .ok v

/-! ## Atoms -/

/-- The answer of a comparison. -/
def Builtin.ofOrdering (b : Builtin) (o : Ordering) : Value :=
  .ofBool <| match b with
    | equal => o == .eq
    | less => o == .lt
    | _ => o == .gt

/-- An operator on integers. -/
def Builtin.onInts (b : Builtin) (m n : Int64) : Value :=
  match b with
  | add => .int (m + n)
  | subtract => .int (m - n)
  | multiply => .int (m * n)
  | divide => .float (.ofInt m / .ofInt n)
  | min => .int (if n < m then n else m)
  | max => .int (if m < n then n else m)
  | _ => b.ofOrdering (compare m n)

/-- An operator on floats. A comparison with a NaN answers 0. -/
def Builtin.onFloats (b : Builtin) (x y : Double) : Value :=
  match b with
  | add => .float (x + y)
  | subtract => .float (x - y)
  | multiply => .float (x * y)
  | divide => .float (x / y)
  | min => .float (x.min y)
  | max => .float (x.max y)
  | _ => (x.order? y).elim (.ofBool false) b.ofOrdering

/-- An operator on strings, which have an order but no arithmetic. -/
def Builtin.onStrings (b : Builtin) (s t : String) : Result Value :=
  match b with
  | min => .ok (.str (if t < s then t else s))
  | max => .ok (.str (if t < s then s else t))
  | equal | less | more => .ok (b.ofOrdering (compare s t))
  | _ => .error (.type "number" "string")

/-- An operator on two atoms. An integer beside a float counts as a float. -/
def Builtin.onAtoms (b : Builtin) (x y : Value) : Result Value :=
  match x, y with
  | .int m, .int n => .ok (b.onInts m n)
  | .int m, .float y => .ok (b.onFloats (.ofInt m) y)
  | .float x, .int n => .ok (b.onFloats x (.ofInt n))
  | .float x, .float y => .ok (b.onFloats x y)
  | .str s, .str t => b.onStrings s t
  | .int _, bad => .error (.type "number" bad.typeName)
  | .float _, bad => .error (.type "number" bad.typeName)
  | bad, _ => .error (.type "number" bad.typeName)

/-- The negation of a number. -/
def negateAtom : Value → Result Value
  | .int n => .ok (.int (-n))
  | .float x => .ok (.float (-x))
  | bad => .error (.type "number" bad.typeName)

/-- Whether a number is zero. -/
def isZeroAtom : Value → Result Value
  | .int n => .ok (.ofBool (n == 0))
  | .float x => .ok (.ofBool x.isZero)
  | bad => .error (.type "number" bad.typeName)

/-! ## Containers -/

/-- The values, unless one of the results is a failure; then the first failure. -/
def allOk {α : Type} : List (Result α) → Result (List α)
  | [] => .ok []
  | r :: rs => do
    let x ← r
    let xs ← allOk rs
    return x :: xs

theorem allOk_eq_ok {α : Type} {rs : List (Result α)} {vs : List α} :
    allOk rs = .ok vs ↔ rs = vs.map .ok := by
  induction rs generalizing vs with
  | nil => cases vs <;> simp [allOk]
  | cons r rs ih =>
    rw [allOk, bind_eq_ok]
    simp only [bind_eq_ok, ih]
    cases vs with
    | nil => simp [pure, Except.pure]
    | cons v vs =>
      constructor
      · rintro ⟨_, rfl, _, rfl, ⟨⟩⟩
        rfl
      · intro h
        obtain ⟨rfl, rfl⟩ := List.cons.inj h
        exact ⟨v, rfl, vs, rfl, rfl⟩

/-- An array of the results of an operator. An empty one keeps the variant `kind`, and the truth
values of a predicate are stored as such. -/
def gather (s : Site) (kind : Kind) (predicate : Bool) (vs : List Value) : Arr Value :=
  if vs.isEmpty then .empty s (if predicate then .bools else kind)
  else
    match Arr.ofValues s vs with
    | .ints w =>
      if predicate && w.items.all isTruth then .bools (.ofList s (w.items.map (· == 1)))
      else .ints w
    | a => a

/-- The truth values of a predicate are stored as such. -/
theorem gather_truths (s : Site) (kind : Kind) {ns : List Int64} (h : ns.all isTruth = true) :
    gather s kind true (ns.map .int) = .bools (.ofList s (ns.map (· == 1))) := by
  by_cases hns : ns = []
  · rw [hns]
    rfl
  · have hne : (ns.map Value.int).isEmpty = false := by simpa using hns
    simp [gather, hne, Arr.ofValues_ints s hns, h]

/-- A dictionary with the keys of another one and new values. -/
def Dict.withVals (s : Site) (d : Dict Value) (vals : Arr Value) : Result Value := do
  return .dict s (← Dict.ofArrays? d.keys vals)

mutual

/-- Carries a function of atoms through a value: array elements and dictionary values take its
answers. The results of a predicate become truth values. -/
def Value.carry (predicate : Bool) (f : Value → Result Value) (s : Site) :
    Value → Result Value
  | .array a => return .array (← a.carry predicate f s)
  | .dict _ ⟨keys, vals⟩ => do
    Dict.withVals s ⟨keys, vals⟩ (← vals.carry predicate f (s.sub 0))
  | v => f v

/-- Carries a function of atoms through an array. -/
def Arr.carry (predicate : Bool) (f : Value → Result Value) (s : Site) :
    Arr Value → Result (Arr Value)
  | .list ⟨_, buf, off, len, _⟩ => do
    return gather s .list predicate (← allOk (stretch off len (carryCells predicate f s 0 buf)))
  | a => do return gather s a.kind predicate (← allOk (a.values.map f))

/-- Carries a function of atoms through the elements of a buffer, from the `i`-th on. -/
def carryCells (predicate : Bool) (f : Value → Result Value) (s : Site) (i : Nat) :
    List Value → List (Result Value)
  | [] => []
  | v :: vs => v.carry predicate f (s.sub i) :: carryCells predicate f s (i + 1) vs

end

theorem carryCells_eq_mapIdx (predicate : Bool) (f : Value → Result Value) (s : Site) (i : Nat)
    (vs : List Value) :
    carryCells predicate f s i vs = vs.mapIdx fun k v => v.carry predicate f (s.sub (i + k)) := by
  induction vs generalizing i with
  | nil => rfl
  | cons v vs ih => simp [carryCells, ih, List.mapIdx_cons, Nat.add_right_comm, ← Nat.add_assoc]

/-- A function of the left operand, its objects made at the given site and below. -/
abbrev FromLeft := Site → Value → Result Value

/-- An operator with an array on the right: `fns` are the functions that its elements make of a
left operand. A left operand that is an atom meets every element; an array or the values of a
dictionary meet them in pairs. -/
def Builtin.overArray (b : Builtin) (kind : Kind) (fns : List FromLeft) (s : Site) :
    Value → Result Value
  | .array a => return .array (← pairs s a)
  | .dict _ d => do d.withVals s (← pairs (s.sub 0) d.vals)
  | x => do
    return .array (gather s kind b.isPredicate (← allOk (fns.mapIdx fun k f => f (s.sub k) x)))
where
  /-- An array on the left. -/
  pairs (s : Site) (a : Arr Value) : Result (Arr Value) :=
    if a.len = fns.length then do
      return gather s a.kind b.isPredicate
        (← allOk ((a.values.zip fns).mapIdx fun k (x, f) => f (s.sub k) x))
    else .error (.length (b.symbol ++ " operands") a.len fns.length)

/-- The steps that combine the common entries of two dictionaries, where `fns` are the functions
that the values on the right make of a left value. -/
def mergeSteps (s : Site) (fns : List FromLeft) (common : List (Nat × Nat)) : List Step :=
  common.zipIdx.map fun ((i, j), k) =>
    let f := (fns[j]?).getD fun _ v => .ok v
    ⟨i, fun old => f ((s.sub 4).sub k) old >>= Value.settle⟩

/-- The entries of `r` merged into `l`, where `fns` are the functions that the values of `r` make
of a left value. -/
def Dict.mergeBy (s : Site) (fns : List FromLeft) (l r : Dict Value) : Result (Dict Value) :=
  l.mergeWith s ({} : Settings).indexThreshold (fun common vals =>
    -- Repeated keys of `r` meet one position of `l` in turn.
    (vals.revise ⟨[.array l.vals], s.sub 3⟩ (mergeSteps s fns common)).toResult) r

/-- An operator with a dictionary on the right, whose values make the functions `fns`, and something
else on the left, which meets the values. The keys stay. -/
def Builtin.overVals (b : Builtin) (d : Dict Value) (fns : List FromLeft) (s : Site) (x : Value) :
    Result Value := do
  match ← b.overArray d.vals.kind fns (s.sub 0) x with
  | .array vs => d.withVals s vs
  | other => .error (.type "array" other.typeName)

mutual

/-- The function that an operator makes of its right operand: it takes the left operand. -/
def withRight (b : Builtin) : Value → FromLeft
  | .array c => fun s x => b.overArray c.kind (withRightElements b c) s x
  | .dict _ ⟨keys, vals⟩ => fun s x =>
    let fns := withRightElements b vals
    match x with
    | .dict _ l => do return .dict s (← l.mergeBy s fns ⟨keys, vals⟩)
    | x => b.overVals ⟨keys, vals⟩ fns s x
  | y => fun s x => x.carry b.isPredicate (b.onAtoms · y) s

/-- The functions that an operator makes of the elements of an array. -/
def withRightElements (b : Builtin) : Arr Value → List FromLeft
  | .list ⟨_, buf, off, len, _⟩ => stretch off len (withRights b buf)
  | a => a.values.map fun y s x => x.carry b.isPredicate (b.onAtoms · y) s

/-- The functions that an operator makes of the elements of a buffer. -/
def withRights (b : Builtin) : List Value → List FromLeft
  | [] => []
  | v :: vs => withRight b v :: withRights b vs

end

theorem withRights_eq_map (b : Builtin) (vs : List Value) :
    withRights b vs = vs.map (withRight b) := by
  induction vs with
  | nil => rfl
  | cons v vs ih => simp [withRights, ih]

theorem withRightElements_eq_map (b : Builtin) (c : Arr Value) :
    withRightElements b c = c.values.map (withRight b) := by
  cases c with
  | list w => exact (congrArg _ (withRights_eq_map b w.buf)).trans (stretch_map ..)
  | _ w => simp only [withRightElements, Arr.values, List.map_map]; rfl

/-! ## The operators -/

/-- The one-element array of a value. -/
def Arr.singleton (s : Site) (v : Value) : Arr Value := .ofValues s [v]

/-- The elements of an array in reverse order; other values as they are. -/
def Value.reverse (s : Site) : Value → Result Value
  | .array a => return .array (← a.select s (List.range a.len).reverse)
  | v => .ok v

/-- The concatenation of two values. An atom counts as the array of it alone, and of two
dictionaries the right one overwrites the left. -/
def Value.join (s : Site) (x y : Value) : Result Value :=
  match x, y with
  | .dict _ l, .dict _ r => do
    return .dict s (← l.mergeBy s (r.vals.values.map fun v _ _ => .ok v) r)
  | .array a, .array b => .ok (.array (a.concat s b))
  | .array a, y => .ok (.array (a.concat s (.singleton (s.sub 0) y)))
  | x, .array b => .ok (.array ((Arr.singleton (s.sub 0) x).concat s b))
  | x, y => .ok (.array (.ofValues s [x, y]))

/-- "Is zero" carried to truth values negates each of them. -/
theorem carry_bools (s : Site) (w : Window Bool) :
    (Arr.bools w).carry true isZeroAtom s = .ok (.bools (.ofList s (w.items.map (!·)))) := by
  have hcells : allOk ((Arr.bools w : Arr Value).values.map isZeroAtom) =
      .ok ((w.items.map fun b => if !b then 1 else 0).map .int) := by
    refine allOk_eq_ok.2 ?_
    simp only [Arr.values, List.map_map]
    refine List.map_congr_left fun b _ => ?_
    cases b <;> rfl
  have htruths : (w.items.map fun b => if !b then (1 : Int64) else 0).map (· == 1) =
      w.items.map (!·) := by
    rw [List.map_map]
    refine List.map_congr_left fun b _ => ?_
    cases b <;> rfl
  have hall : (w.items.map fun b => if !b then (1 : Int64) else 0).all isTruth = true := by
    rw [List.all_map, List.all_eq_true]
    intro b _
    cases b <;> rfl
  simp only [Arr.carry, hcells]
  exact congrArg Except.ok ((gather_truths s .bools hall).trans (by rw [htruths]))

namespace Builtin

/-- The operator with a single operand. -/
def monadic (b : Builtin) (s : Site) (x : Value) : Result Value :=
  match b with
  | identity | right => .ok x
  | subtract => x.carry false negateAtom s
  | not =>
    match x with
    | .array (.bools w) => .ok (.array (.bools (.ofList s (w.items.map (!·)))))
    | x => x.carry true isZeroAtom s
  | join => .ok (.array (.singleton s x))
  | max => x.reverse s
  | _ => .error (.domain (b.symbol ++ " has no monadic form"))

/-- The operator with two operands. -/
def dyadic (b : Builtin) (s : Site) (x y : Value) : Result Value :=
  match b with
  | identity | right => .ok y
  | not => .ok (.ofBool (x.eqv y))
  | join => x.join s y
  | _ => withRight b y s x

/-- Truth values are negated as they are stored, which is what carrying "is zero" to them gives. -/
theorem monadic_not (s : Site) (x : Value) : not.monadic s x = x.carry true isZeroAtom s := by
  simp only [monadic]
  split
  · rename_i w
    simp only [Value.carry, carry_bools]
    rfl
  · rfl

end Builtin

end SharedArrays
