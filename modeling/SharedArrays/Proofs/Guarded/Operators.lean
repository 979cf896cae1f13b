import SharedArrays.Proofs.FastPath.Agreement

/-!
# Accesses with guards: arrays and operators

An access to an element of a buffer at a position that is not there stops a program for good, which
is neither an answer nor a failure. The functions of the library cannot stop: they read through
options and write with `List.set`, which hides an access out of range. Here they get twins that stop
at such an access, whether it reads, writes, selects, or looks for a right operand. A twin agrees
with the function that it guards on all well-formed operands, so that no access was out of range,
at no moment and in no array that came up on the way.

This file guards the steps of an update, typed loops, selections and the operators.

## Main definitions

* `Arr.Reaches` — an element is where an access looks for it
* `Guarded` — computations that can stop, fail or answer
* `Guarded.put`, `Guarded.select`, `Guarded.loop?`, `Guarded.runSteps` — accesses
* `Guarded.mergeBy`, `Guarded.monadic`, `Guarded.dyadic` — the operators

## Main results

* `guarded_runSteps`, `guarded_loop?`, `guarded_select` — accesses in range do not stop
* `guarded_monadic`, `guarded_dyadic` — operators do not stop
-/

namespace SharedArrays

/-- The array has an element `i`, and the buffer has all elements of the window. -/
def Arr.Reaches (a : Arr Value) (i : Nat) : Prop := i < a.len ∧ a.InBounds

instance (a : Arr Value) (i : Nat) : Decidable (a.Reaches i) :=
  inferInstanceAs (Decidable (_ ∧ _))

/-- There is a right operand for the `k`-th position. -/
def Operands.Reaches : Operands → Nat → Prop
  | each a, k => a.Reaches k
  | _, _ => True

instance (k : Nat) : (z : Operands) → Decidable (z.Reaches k)
  | .each a => inferInstanceAs (Decidable (a.Reaches k))
  | .absent | .whole _ => inferInstanceAs (Decidable True)

theorem Arr.reaches_of_lt {a : Arr Value} (ha : WellFormed a) {i : Nat} (hi : i < a.len) :
    a.Reaches i := ⟨hi, ha.inBounds⟩

theorem Operands.Covers.reaches {n : Nat} {z : Operands} (h : z.Covers n) {k : Nat}
    (hk : k < n) : z.Reaches k := by
  cases z with
  | each a => exact Arr.reaches_of_lt h.1 (Nat.lt_of_lt_of_eq hk h.2.symm)
  | _ => trivial

/-- A computation that answers or fails, unless it stops at an access out of range. -/
abbrev Guarded (α : Type) := ExceptT (Failure Value) Option α

namespace Guarded

/-- An answer or a failure that is reached without stopping. -/
def of {α : Type} (r : Result α) : Guarded α := ExceptT.mk (some r)

/-- If `p` does not hold the computation stops. -/
def provided {α : Type} (p : Prop) [Decidable p] (x : α) : Option α := if p then some x else none

/-- What an access reaches, for a computation that may also fail. -/
def reached {α : Type} (x : Option α) : Guarded α := ExceptT.lift x

@[simp] theorem run_of {α : Type} (r : Result α) : (of r).run = some r := rfl

/-! ## Accesses -/

/-- Writes element `i`. If the array has to become a list, the list is written to. -/
def put (c : Scope) (a : Arr Value) (i : Nat) (v : Value) : Option (Arr Value) :=
  provided (a.Reaches i ∧ (a.asList c.site).Reaches i) (a.put c i v)

/-- The elements at the given positions. -/
def select (s : Site) (a : Arr Value) (ps : List Nat) : Guarded (Arr Value) :=
  .mk (provided (∀ p ∈ ps, a.Reaches p) (a.select s ps))

/-- The right operand of the `k`-th position. -/
def operandAt (z : Operands) (k : Nat) : Option (Option Value) := provided (z.Reaches k) (z.at? k)

/-- The array after a loop over the positions, if one applies. The loop accesses the array and the
right operands at every position, and neither changes its length meanwhile. -/
def loop? (c : Scope) (f : Value) (ps : List Nat) (z : Operands) (a : Arr Value) :
    Option (Option (Arr Value)) :=
  match a.loop? c f ps z with
  | none => some none
  | some b => provided (∀ e ∈ ps.zipIdx, a.Reaches e.1 ∧ z.Reaches e.2) (some b)

/-- One step of an update. -/
structure Step where
  position : Nat
  run : Value → Guarded Value

/-- Runs steps one after the other, up to the first that fails. A step reads the element at its
position and writes it after its function has answered. -/
def runSteps (c : Scope) : List Step → Arr Value → Option (Outcome (Arr Value))
  | [], a => some (.done a)
  | s :: rest, a => do
    let old ← a.at? s.position
    match ← (s.run old).run with
    | .error e => return .failed a e
    | .ok new => runSteps c rest (← put c a s.position new)

/-- Runs steps, and then moves the array to canonical storage. -/
def revise (c : Scope) (steps : List Step) (a : Arr Value) : Option (Outcome (Arr Value)) := do
  let o ← runSteps c steps a
  return o.map (·.canonical (c.beside o.raised))

/-! ## Merging -/

/-- Appends the entries of `r` at the positions `fresh`. -/
def appendFrom (s : Site) (d r : Dict Value) (fresh : List Nat) : Guarded (Dict Value) :=
  if fresh.isEmpty then of (.ok d)
  else do
    let newKeys ← select (s.sub 0) r.keys fresh
    let newVals ← select (s.sub 1) r.vals fresh
    of (d.append? (s.sub 2) newKeys newVals)

/-- The entries of `l`, with the entries of `r` combined or appended. -/
def mergeWith (s : Site) (threshold : Nat)
    (combine : List (Nat × Nat) → Arr Value → Guarded (Arr Value)) (l r : Dict Value) :
    Guarded (Dict Value) := do
  let plan := l.mergePlan threshold r
  let vals ← (if plan.common.isEmpty then of (.ok l.vals) else combine plan.common l.vals)
  appendFrom s ⟨l.keys, vals⟩ r plan.fresh

/-! ## Operators -/

/-- A function of the left operand. -/
abbrev FromLeft := Site → Value → Guarded Value

/-- The values, unless a result is a failure; then the first failure. -/
def allOk {α : Type} : List (Guarded α) → Guarded (List α)
  | [] => of (.ok [])
  | r :: rs => do
    let x ← r
    let xs ← allOk rs
    return x :: xs

/-- An operator with an array on either side. -/
def pairs (b : Builtin) (fns : List FromLeft) (s : Site) (a : Arr Value) : Guarded (Arr Value) :=
  if a.len = fns.length then do
    let vs ← allOk ((a.values.zip fns).mapIdx fun k (x, f) => f (s.sub k) x)
    return gather s a.kind b.isPredicate vs
  else of (.error (.length (b.symbol ++ " operands") a.len fns.length))

/-- An operator with an array on the right, whose elements make the functions `fns`. -/
def overArray (b : Builtin) (kind : Kind) (fns : List FromLeft) (s : Site) :
    Value → Guarded Value
  | .array a => do
    let vals ← pairs b fns s a
    return .array vals
  | .dict _ d => do
    let vals ← pairs b fns (s.sub 0) d.vals
    of (d.withVals s vals)
  | x => do
    let vs ← allOk (fns.mapIdx fun k f => f (s.sub k) x)
    return .array (gather s kind b.isPredicate vs)

/-- The steps that combine the common entries of two dictionaries. The function for an entry is
found at its right position. -/
def mergeSteps (s : Site) (fns : List FromLeft) (common : List (Nat × Nat)) : List Step :=
  common.zipIdx.map fun ((i, j), k) =>
    ⟨i, fun old => do
      let f ← reached fns[j]?
      let v ← f ((s.sub 4).sub k) old
      of v.settle⟩

/-- The entries of `r` merged into `l`. The right values are selected, and a loop over the left ones
may stand for the steps. -/
def mergeBy (s : Site) (fns : List FromLeft) (l r : Dict Value) : Guarded (Dict Value) :=
  mergeWith s ({} : Settings).indexThreshold (fun common vals => do
    let steps ← reached (provided (∀ e ∈ common, vals.Reaches e.1 ∧ r.vals.Reaches e.2)
      (mergeSteps s fns common))
    let o ← reached (revise ⟨[.array l.vals], s.sub 3⟩ steps vals)
    of o.toResult) l r

/-- An operator with a dictionary on the right and something else on the left. -/
def overVals (b : Builtin) (d : Dict Value) (fns : List FromLeft) (s : Site) (x : Value) :
    Guarded Value := do
  match ← overArray b d.vals.kind fns (s.sub 0) x with
  | .array vs => of (d.withVals s vs)
  | other => of (.error (.type "array" other.typeName))

mutual

/-- The function that an operator makes of its right operand. -/
def withRight (b : Builtin) : Value → FromLeft
  | .array c => fun s x => overArray b c.kind (withRightElements b c) s x
  | .dict _ ⟨keys, vals⟩ => fun s x =>
    let fns := withRightElements b vals
    match x with
    | .dict _ l => do
      let d ← mergeBy s fns l ⟨keys, vals⟩
      return .dict s d
    | x => overVals b ⟨keys, vals⟩ fns s x
  | y => fun s x => of (x.carry b.isPredicate (b.onAtoms · y) s)

/-- The functions that an operator makes of the elements of an array. -/
def withRightElements (b : Builtin) : Arr Value → List FromLeft
  | .list ⟨_, buf, off, len, _⟩ => stretch off len (withRights b buf)
  | a => a.values.map fun y s x => of (x.carry b.isPredicate (b.onAtoms · y) s)

/-- The functions that an operator makes of the elements of a buffer. -/
def withRights (b : Builtin) : List Value → List FromLeft
  | [] => []
  | v :: vs => withRight b v :: withRights b vs

end

/-- The elements of an array in reverse order. -/
def reverse (s : Site) : Value → Guarded Value
  | .array a => do
    let r ← select s a (List.range a.len).reverse
    return .array r
  | v => of (.ok v)

/-- The concatenation of two values. -/
def join (s : Site) (x y : Value) : Guarded Value :=
  match x, y with
  | .dict _ l, .dict _ r => do
    let d ← mergeBy s (r.vals.values.map fun v _ _ => of (.ok v)) l r
    return .dict s d
  | x, y => of (x.join s y)

/-- The operator with a single operand. Only reversing accesses positions. -/
def monadic (b : Builtin) (s : Site) (x : Value) : Guarded Value :=
  match b with
  | .max => reverse s x
  | b => of (b.monadic s x)

/-- The operator with two operands. -/
def dyadic (b : Builtin) (s : Site) (x y : Value) : Guarded Value :=
  match b with
  | .identity | .right | .not => of (b.dyadic s x y)
  | .join => join s x y
  | _ => withRight b y s x

end Guarded

/-! ## Accesses do not stop -/

section Accesses

variable {α β : Type} {c : Scope} {s : Site} {a : Arr Value}

theorem guarded_bind [HasNodes α] {x : Guarded α} {r : Result α} {k : α → Guarded β}
    {k' : α → Result β} (hx : x = .of r) (hr : WellFormed r)
    (hk : ∀ v, WellFormed v → k v = .of (k' v)) : (x >>= k) = .of (r >>= k') := by
  subst hx
  cases r with
  | error e => rfl
  | ok v => exact hk v hr

/-- What follows need not look at the answer. -/
theorem guarded_bind_pure {x : Guarded α} {r : Result α} {k : α → β} (hx : x = .of r) :
    (x >>= fun v => pure (k v)) = .of (r >>= fun v => pure (k v)) := by
  subst hx
  cases r <;> rfl

@[simp] theorem reached_some_bind (x : α) (k : α → Guarded β) :
    (Guarded.reached (some x) >>= k) = k x := rfl

theorem provided_eq {p : Prop} [Decidable p] (hp : p) (x : α) : Guarded.provided p x = some x :=
  if_pos hp

theorem guarded_put {i : Nat} (ha : WellFormed a) (hi : i < a.len) (v : Value) :
    Guarded.put c a i v = some (a.put c i v) := by
  have hlist : (a.asList c.site).len = a.len := by
    rw [← (wellFormed_asList ha).length_values, Arr.values_asList, ha.length_values]
  exact provided_eq ⟨Arr.reaches_of_lt ha hi,
    Arr.reaches_of_lt (wellFormed_asList ha) (Nat.lt_of_lt_of_eq hi hlist.symm)⟩ _

theorem guarded_select {ps : List Nat} (ha : WellFormed a) (hlt : ∀ p ∈ ps, p < a.len) :
    Guarded.select s a ps = .of (a.select s ps) :=
  provided_eq (fun p hp => Arr.reaches_of_lt ha (hlt p hp)) _

theorem guarded_operandAt {n k : Nat} {z : Operands} (hz : z.Covers n) (hk : k < n) :
    Guarded.operandAt z k = some (z.at? k) := provided_eq (hz.reaches hk) _

theorem guarded_loop? {f : Value} {ps : List Nat} {z : Operands} (ha : WellFormed a)
    (hlt : ∀ p ∈ ps, p < a.len) (hz : z.Covers ps.length) :
    Guarded.loop? c f ps z a = some (a.loop? c f ps z) := by
  have hreaches : ∀ e ∈ ps.zipIdx, a.Reaches e.1 ∧ z.Reaches e.2 := by
    intro e he
    have hk : e.2 < ps.length := List.snd_lt_of_mem_zipIdx he
    exact ⟨Arr.reaches_of_lt ha (hlt e.1 (List.fst_mem_of_mem_zipIdx he)), hz.reaches hk⟩
  unfold Guarded.loop?
  split
  · rename_i hnone
    rw [hnone]
  · rename_i b hb
    rw [hb]
    exact provided_eq hreaches _

/-- Steps at positions of the array do not stop: writes keep the number of elements, whatever the
variant becomes. -/
theorem guarded_runSteps {ε : Type} {es : List ε} {step : ε → Guarded.Step} {step' : ε → Step}
    (ha : WellFormed a) (hpos : ∀ e ∈ es, (step e).position = (step' e).position)
    (hlt : ∀ e ∈ es, (step' e).position < a.len)
    (hrun : ∀ e ∈ es, ∀ v, WellFormed v → (step e).run v = .of ((step' e).run v))
    (hsafe : ∀ e ∈ es, ∀ v, WellFormed v → WellFormed ((step' e).run v)) :
    Guarded.runSteps c (es.map step) a = some (a.runSteps c (es.map step')) := by
  induction es generalizing a with
  | nil => rfl
  | cons e es ih =>
    obtain ⟨hpos, hposs⟩ := List.forall_mem_cons.1 hpos
    obtain ⟨hlt, hlts⟩ := List.forall_mem_cons.1 hlt
    obtain ⟨hrun, hruns⟩ := List.forall_mem_cons.1 hrun
    obtain ⟨hsafe, hsafes⟩ := List.forall_mem_cons.1 hsafe
    obtain ⟨old, hget⟩ : ∃ old, a.at? (step' e).position = some old :=
      ⟨_, List.getElem?_eq_getElem (Nat.lt_of_lt_of_eq hlt ha.length_values.symm)⟩
    have hold : WellFormed old := everywhere_of_at? ha hget
    have hnew := hsafe old hold
    simp only [List.map_cons, Guarded.runSteps, Arr.runSteps, hpos, hget, Option.bind_eq_bind,
      Option.bind_some, hrun old hold, Guarded.run_of]
    cases hres : (step' e).run old with
    | error e => rfl
    | ok new =>
      rw [hres] at hnew
      have hput : Guarded.put c a (step' e).position new = some (a.put c (step' e).position new) :=
        guarded_put ha hlt new
      have hlen : (a.put c (step' e).position new).len = a.len := len_put ha hnew
      have hrest := ih (wellFormed_put ha hnew) hposs (fun e he => hlen ▸ hlts e he) hruns hsafes
      simp only [hput, Option.bind_some, hrest]

theorem guarded_revise {ε : Type} {es : List ε} {step : ε → Guarded.Step} {step' : ε → Step}
    (ha : WellFormed a) (hpos : ∀ e ∈ es, (step e).position = (step' e).position)
    (hlt : ∀ e ∈ es, (step' e).position < a.len)
    (hrun : ∀ e ∈ es, ∀ v, WellFormed v → (step e).run v = .of ((step' e).run v))
    (hsafe : ∀ e ∈ es, ∀ v, WellFormed v → WellFormed ((step' e).run v)) :
    Guarded.revise c (es.map step) a = some (a.revise c (es.map step')) := by
  rw [Guarded.revise, guarded_runSteps ha hpos hlt hrun hsafe]
  rfl

end Accesses

/-! ## Merging does not stop -/

section Merge

variable {s : Site} {l r d : Dict Value}

theorem guarded_appendFrom {fresh : List Nat} (hr : r.Paired) (hlt : ∀ p ∈ fresh, p < r.len) :
    Guarded.appendFrom s d r fresh = .of (d.appendFrom s r fresh) := by
  unfold Guarded.appendFrom Dict.appendFrom
  split
  · rfl
  · refine guarded_bind (guarded_select hr.2.1 hlt) (wellFormed_select_result hr.2.1)
      fun keys _ => ?_
    exact guarded_bind (guarded_select hr.2.2 fun p hp => hr.1 ▸ hlt p hp)
      (wellFormed_select_result hr.2.2) fun vals _ => rfl

/-- Merging combines at positions that both dictionaries have, and appends entries that the right
dictionary has. -/
theorem guarded_mergeWith {threshold : Nat}
    {combine : List (Nat × Nat) → Arr Value → Guarded (Arr Value)}
    {combine' : List (Nat × Nat) → Arr Value → Result (Arr Value)} (hl : l.Paired) (hr : r.Paired)
    (hcombine : ∀ common : List (Nat × Nat), (∀ e ∈ common, e.1 < l.vals.len ∧ e.2 < r.vals.len) →
      combine common l.vals = .of (combine' common l.vals)) :
    Guarded.mergeWith s threshold combine l r = .of (l.mergeWith s threshold combine' r) := by
  obtain ⟨hcommon, hfresh⟩ := mergePlan_lt (l := l) hr threshold
  have hboth : ∀ e ∈ (l.mergePlan threshold r).common, e.1 < l.vals.len ∧ e.2 < r.vals.len := by
    intro e he
    exact ⟨mergePlan_common_lt hl threshold e.1 (List.mem_map_of_mem he),
      hr.1 ▸ hcommon e.2 (List.mem_map_of_mem he)⟩
  have hvals : (if (l.mergePlan threshold r).common.isEmpty then .of (.ok l.vals)
      else combine (l.mergePlan threshold r).common l.vals) =
        Guarded.of (if (l.mergePlan threshold r).common.isEmpty then .ok l.vals
          else combine' (l.mergePlan threshold r).common l.vals) := by
    split
    · rfl
    · exact hcombine _ hboth
  simp only [Guarded.mergeWith, Dict.mergeWith, hvals]
  cases (if (l.mergePlan threshold r).common.isEmpty then .ok l.vals
    else combine' (l.mergePlan threshold r).common l.vals : Result (Arr Value)) with
  | error e => rfl
  | ok vals => exact guarded_appendFrom hr hfresh

end Merge

/-! ## Operators do not stop -/

/-- The twin answers what the function of the left operand answers. -/
def Guarded.FromLeft.Agrees (g : Guarded.FromLeft) (f : SharedArrays.FromLeft) : Prop :=
  ∀ s x, WellFormed x → g s x = .of (f s x)

section Operators

variable {b : Builtin} {s : Site}

theorem guarded_allOk {α γ : Type} {xs : List γ} {g : γ → Guarded α} {f : γ → Result α}
    (h : ∀ x ∈ xs, g x = .of (f x)) : Guarded.allOk (xs.map g) = .of (allOk (xs.map f)) := by
  induction xs with
  | nil => rfl
  | cons x xs ih =>
    obtain ⟨hx, hxs⟩ := List.forall_mem_cons.1 h
    simp only [List.map_cons, Guarded.allOk, allOk, hx, ih hxs]
    cases f x with
    | error e => rfl
    | ok v => cases allOk (xs.map f) <;> rfl

section FromLeft

variable {ε : Type} {es : List ε} {g : ε → Guarded.FromLeft} {f : ε → FromLeft}

theorem guarded_pairs (h : ∀ e ∈ es, (g e).Agrees (f e)) {s : Site} {a : Arr Value}
    (ha : WellFormed a) :
    Guarded.pairs b (es.map g) s a = .of (Builtin.overArray.pairs b (es.map f) s a) := by
  have hall : Guarded.allOk ((a.values.zip (es.map g)).mapIdx fun k e => e.2 (s.sub k) e.1) =
      .of (allOk ((a.values.zip (es.map f)).mapIdx fun k e => e.2 (s.sub k) e.1)) := by
    simp only [List.zip_map_right, List.mapIdx_eq_zipIdx_map, List.zipIdx_map, List.map_map]
    refine guarded_allOk fun e he => ?_
    obtain ⟨hx, he⟩ := List.of_mem_zip (List.fst_mem_of_mem_zipIdx he)
    exact h _ he _ _ (everywhere_iff_forall.1 (everywhere_values ha) _ hx)
  unfold Guarded.pairs Builtin.overArray.pairs
  simp only [List.length_map]
  split
  · exact guarded_bind_pure hall
  · rfl

theorem guarded_overArray (h : ∀ e ∈ es, (g e).Agrees (f e)) (hsafe : ∀ e ∈ es, (f e).Safe)
    {kind : Kind} {s : Site} {x : Value} (hx : WellFormed x) :
    Guarded.overArray b kind (es.map g) s x = .of (b.overArray kind (es.map f) s x) := by
  have hall : Guarded.allOk ((es.map g).mapIdx fun k f => f (s.sub k) x) =
      .of (allOk ((es.map f).mapIdx fun k f => f (s.sub k) x)) := by
    simp only [List.mapIdx_eq_zipIdx_map, List.zipIdx_map, List.map_map]
    exact guarded_allOk fun e he => h _ (List.fst_mem_of_mem_zipIdx he) _ _ hx
  cases x with
  | array a => exact guarded_bind_pure (guarded_pairs h ((everywhere_array a).1 hx))
  | dict t d =>
    have hvals : WellFormed d.vals := (wellFormed_dict.1 hx).2.2
    have hfns := List.forall_mem_map.2 hsafe
    exact guarded_bind (guarded_pairs h hvals) (fits_closedUnderOperators.pairs hfns b _ hvals)
      fun vals _ => rfl
  | _ => exact guarded_bind_pure hall

theorem guarded_mergeBy (h : ∀ e ∈ es, (g e).Agrees (f e)) (hsafe : ∀ e ∈ es, (f e).Safe)
    {s : Site} {l r : Dict Value} (hl : l.Paired) (hr : r.Paired) (hlen : es.length = r.vals.len) :
    Guarded.mergeBy s (es.map g) l r = .of (l.mergeBy s (es.map f) r) := by
  refine guarded_mergeWith hl hr fun common hcommon => ?_
  have hreaches : ∀ e ∈ common, l.vals.Reaches e.1 ∧ r.vals.Reaches e.2 := by
    intro e he
    obtain ⟨hleft, hright⟩ := hcommon e he
    exact ⟨Arr.reaches_of_lt hl.2.2 hleft, Arr.reaches_of_lt hr.2.2 hright⟩
  have hmem {e : (Nat × Nat) × Nat} (he : e ∈ common.zipIdx) : e.1 ∈ common :=
    List.fst_mem_of_mem_zipIdx he
  have hsteps : Guarded.revise ⟨[.array l.vals], s.sub 3⟩ (Guarded.mergeSteps s (es.map g) common)
      l.vals =
        some (l.vals.revise ⟨[.array l.vals], s.sub 3⟩ (mergeSteps s (es.map f) common)) := by
    refine guarded_revise hl.2.2 (fun _ _ => rfl) (fun e he => (hcommon _ (hmem he)).1)
      (fun e he v hv => ?_) fun e he v hv => ?_
    all_goals
      obtain ⟨⟨i, j⟩, k⟩ := e
      have hj : j < es.length := hlen ▸ (hcommon _ (hmem he)).2
      simp only [List.getElem?_map, List.getElem?_eq_getElem hj, Option.map_some]
    · exact guarded_bind (h _ (List.getElem_mem hj) _ v hv)
        (hsafe _ (List.getElem_mem hj) _ v hv) fun _ _ => rfl
    · exact everywhere_bind (hsafe _ (List.getElem_mem hj) _ v hv)
        fun _ _ hw => everywhere_settle hw
  simp only [provided_eq hreaches, reached_some_bind, hsteps]

end FromLeft

/-- The twin of an array's functions has one function for each element, too. -/
theorem guarded_withRightElements_eq_map (c : Arr Value) :
    Guarded.withRightElements b c = c.values.map (Guarded.withRight b) := by
  have hcells (vs : List Value) : Guarded.withRights b vs = vs.map (Guarded.withRight b) := by
    induction vs with
    | nil => rfl
    | cons v vs ih => simp [Guarded.withRights, ih]
  cases c with
  | list w => exact (congrArg _ (hcells w.buf)).trans (stretch_map ..)
  | _ w => simp only [Guarded.withRightElements, Arr.values, List.map_map]; rfl

/-- The elements are carried along, because a dictionary uses the functions of its values. -/
theorem agrees_withRight_and_elements {y : Value} (hy : WellFormed y) :
    (Guarded.withRight b y).Agrees (withRight b y) ∧
      ∀ c, y = .array c → ∀ v ∈ c.values, (Guarded.withRight b v).Agrees (withRight b v) := by
  induction y using Value.nest_induction with
  | leaf y hleaf =>
    refine ⟨fun s x _ => ?_, fun c hc => by subst hc; cases hleaf⟩
    cases y <;> first | rfl | cases hleaf
  | error t v => exact ⟨fun s x _ => rfl, nofun⟩
  | array c ih =>
    have hc : WellFormed c := (everywhere_array c).1 hy
    have helements : ∀ v ∈ c.values, (Guarded.withRight b v).Agrees (withRight b v) := by
      intro v hv
      cases c with
      | list w =>
        have hmem : v ∈ w.buf := Window.mem_of_mem_items hv
        exact (ih v hmem (everywhere_iff_forall.1 (wellFormed_arr.1 hc).2 v hmem)).1
      | _ w =>
        obtain ⟨_, -, rfl⟩ := List.mem_map.1 hv
        exact fun s x _ => rfl
    refine ⟨fun s x hx => ?_, by rintro _ ⟨⟩; exact helements⟩
    have hsafe : ∀ v ∈ c.values, (withRight b v).Safe := fun v hv =>
      safe_withRight (everywhere_iff_forall.1 (everywhere_values hc) v hv)
    simp only [Guarded.withRight, withRight, guarded_withRightElements_eq_map,
      withRightElements_eq_map]
    exact guarded_overArray helements hsafe hx
  | dict t keys vals ihk ihv =>
    have hpaired : Dict.Paired ⟨keys, vals⟩ := wellFormed_dict.1 hy
    have hvals : WellFormed vals := hpaired.2.2
    have helements := (ihv ((everywhere_array _).2 hvals)).2 vals rfl
    have hsafe : ∀ v ∈ vals.values, (withRight b v).Safe := fun v hv =>
      safe_withRight (everywhere_iff_forall.1 (everywhere_values hvals) v hv)
    refine ⟨fun s x hx => ?_, nofun⟩
    -- All but dictionaries meet the values of the dictionary on the right.
    have hover : Guarded.overVals b ⟨keys, vals⟩ (vals.values.map (Guarded.withRight b)) s x =
        .of (b.overVals ⟨keys, vals⟩ (vals.values.map (withRight b)) s x) := by
      have hwf : WellFormed (b.overArray vals.kind (vals.values.map (withRight b)) (s.sub 0) x) :=
        fits_closedUnderOperators.overArray (List.forall_mem_map.2 hsafe) b _ _ hx
      refine guarded_bind (guarded_overArray helements hsafe hx) hwf fun v _ => ?_
      cases v <;> rfl
    simp only [Guarded.withRight, withRight, guarded_withRightElements_eq_map,
      withRightElements_eq_map]
    cases x with
    | dict u l =>
      have hl : l.Paired := wellFormed_dict.1 hx
      exact guarded_bind_pure (guarded_mergeBy helements hsafe hl hpaired hvals.length_values)
    | _ => exact hover

theorem guarded_reverse {s : Site} {x : Value} (hx : WellFormed x) :
    Guarded.reverse s x = .of (x.reverse s) := by
  cases x with
  | array a =>
    have ha : WellFormed a := (everywhere_array a).1 hx
    exact guarded_bind_pure (guarded_select ha fun p hp =>
      List.mem_range.1 (List.mem_reverse.1 hp))
  | _ => rfl

theorem guarded_join {s : Site} {x y : Value} (hx : WellFormed x) (hy : WellFormed y) :
    Guarded.join s x y = .of (x.join s y) := by
  unfold Guarded.join
  split
  · rename_i t l u r
    have hl : l.Paired := wellFormed_dict.1 hx
    have hr : r.Paired := wellFormed_dict.1 hy
    refine guarded_bind_pure (guarded_mergeBy (fun _ _ _ _ _ => rfl) (fun v hv _ _ _ => ?_) hl hr
      hr.2.2.length_values)
    exact everywhere_iff_forall.1 (everywhere_values hr.2.2) v hv
  · rfl

theorem guarded_monadic {s : Site} {x : Value} (hx : WellFormed x) :
    Guarded.monadic b s x = .of (b.monadic s x) := by
  unfold Guarded.monadic
  split
  · exact guarded_reverse hx
  · rfl

theorem guarded_dyadic {s : Site} {x y : Value} (hx : WellFormed x) (hy : WellFormed y) :
    Guarded.dyadic b s x y = .of (b.dyadic s x y) := by
  have hright := (agrees_withRight_and_elements (b := b) hy).1 s x hx
  cases b with
  | identity | right | not => rfl
  | join => exact guarded_join hx hy
  | _ => exact hright

end Operators

end SharedArrays
