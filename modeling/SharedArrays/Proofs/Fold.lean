import SharedArrays.Proofs.Alike.Amend

/-!
# An amend at positions is a fold

An amend of an array at resolved positions replaces elements of a list, one after the other, up to
the first call that fails. Neither the storage of the array nor its window matters, and the function
may be any function: its calls make their objects at sites of their own, so the fold has one call
for each place.

Storage is seen in one case only. A pinned array to which nothing is written stays pinned, and the
move to canonical storage at the end freezes its elements.

## Main definitions

* `foldWrites` — replacing elements of a list by functions of them
* `Arr.Shows` — the elements of an array, as far as they have not been frozen

## Main results

* `runSteps_eq_foldWrites` — running steps is the fold, step by step
* `amendAt_eq_foldWrites` — so is an amend at resolved positions
-/

namespace SharedArrays

/-! ## The fold -/

/-- Replaces the elements at the given places one after the other, each by a function of it and its
operand, up to the first call that fails. What was written stays. The first call is the `k`-th. -/
def foldWrites (call : Nat → List Value → Result Value) :
    Nat → List (Nat × Option Value) → List Value → Outcome (List Value)
  | _, [], vs => .done vs
  | k, (i, z) :: rest, vs =>
    match call k (vs[i]?.getD .nil :: z.toList) with
    | .error e => .failed vs e
    | .ok v => foldWrites call (k + 1) rest (vs.set i v)

/-- The operands of `count` places, one after the other. -/
def Operands.toList (count : Nat) (z : Operands) : List (Option Value) :=
  (List.range count).map z.at?

/-- Running steps at places of the array folds over its elements. -/
theorem runSteps_eq_foldWrites (call : Nat → List Value → Result Value) (z : Nat → Option Value)
    (c : Scope) (k : Nat) {ps : List Nat} {a : Arr Value} (hps : ∀ p ∈ ps, p < a.values.length) :
    let o := a.runSteps c ((ps.zipIdx k).map fun e =>
      ⟨e.1, fun old => call e.2 (old :: (z e.2).toList)⟩)
    let r := foldWrites call k (ps.zip ((List.range' k ps.length).map z)) a.values
    o.slot.values = r.slot ∧ o.failure = r.failure := by
  induction ps generalizing k a with
  | nil => exact ⟨rfl, rfl⟩
  | cons p ps ih =>
    obtain ⟨hp, hps⟩ := List.forall_mem_cons.1 hps
    -- The step and the fold read the same element, and write at the same place.
    have hold : a.at? p = some a.values[p] := List.getElem?_eq_getElem hp
    have hget : a.values[p]?.getD .nil = a.values[p] := by rw [List.getElem?_eq_getElem hp]; rfl
    simp only [List.zipIdx_cons, List.map_cons, Arr.runSteps, hold, List.length_cons,
      List.range'_succ, List.zip_cons_cons, foldWrites, hget]
    cases call k (a.values[p] :: (z k).toList) with
    | error e => exact ⟨rfl, rfl⟩
    | ok v =>
      have hrest := @ih (k + 1) (a.put c p v) (by simpa [Arr.values_put] using hps)
      rw [Arr.values_put] at hrest
      exact hrest

/-! ## What an array shows -/

/-- The elements of the array are those of the list. Those of a pinned array may have been frozen
in between. -/
structure Arr.Shows (a : Arr Value) (vs : List Value) : Prop where
  alike : Alike a.values vs
  values_eq : a.flags.pinned = false → a.values = vs

theorem shows_values (a : Arr Value) : a.Shows a.values := ⟨.refl _, fun _ => rfl⟩

/-- Canonical storage freezes at most the elements of an array that stays pinned. -/
theorem shows_canonical (c : Scope) (a : Arr Value) : (a.canonical c).Shows a.values := by
  refine ⟨alike_values_canonical c a, fun hpinned => ?_⟩
  cases a with
  | list w =>
    rw [Arr.canonical] at hpinned ⊢
    split at hpinned
    · split at hpinned
      · rw [Arr.freeze_list] at hpinned
        cases hpinned
      · rename_i hfree
        rw [if_neg hfree]
    · exact Arr.values_ofValues c.site w.items
  | _ => rfl

theorem pinned_canonical {a : Arr Value} (h : a.flags.pinned = false) (c : Scope) :
    (a.canonical c).flags.pinned = false := by
  cases a with
  | list w =>
    have hpinned : w.flags.pinned = false := h
    rw [Arr.canonical]
    split
    · rwa [if_neg (by simp [hpinned])]
    · unfold Arr.pack
      split <;> rfl
  | _ => exact h

/-- Without a pin, canonical storage keeps the elements as they are. -/
theorem values_canonical_of_not_pinned {a : Arr Value} (h : a.flags.pinned = false) (c : Scope) :
    (a.canonical c).values = a.values :=
  (shows_canonical c a).values_eq (pinned_canonical h c)

/-- What has been written to is not pinned. -/
theorem pinned_runSteps {c : Scope} {steps : List Step} {a : Arr Value}
    (h : steps ≠ [] ∨ a.flags.pinned = false) (hok : (a.runSteps c steps).failure = none) :
    (a.runSteps c steps).slot.flags.pinned = false := by
  induction steps generalizing a with
  | nil => exact h.resolve_left fun hne => hne rfl
  | cons s steps ih =>
    rw [Arr.runSteps] at hok ⊢
    cases hold : a.at? s.position with
    | none => simp only [hold] at hok; cases hok
    | some old =>
      cases hnew : s.run old with
      | error e => simp only [hold, hnew] at hok; cases hok
      | ok new =>
        simp only [hold, hnew] at hok ⊢
        exact ih (.inr (by rw [Arr.flags_put])) hok

/-! ## Amends -/

theorem operands_ofValue (settings : Settings) (f : Value) (z : Option Value) (sel : Selection) :
    (Callee.ofValue settings f).operands z sel =
      if f.isFunction then Operands.ofSelection z sel
      else .error (.type "function" f.typeName) := rfl

/-- An amend at resolved positions folds over the elements of the array. Once it has gone through,
an array that was written to is not pinned. -/
theorem amendAt_eq_foldWrites (settings : Settings) (f : Value) (c : Scope) {a : Arr Value}
    {sel : Selection} {z : Option Value} {operands : Operands} (ha : WellFormed a)
    (hz : WellFormed z) (hlt : ∀ p ∈ sel.positions, p < a.len)
    (hop : (Callee.ofValue settings f).operands z sel = .ok operands) :
    let o := a.amendAt settings c sel (.ofValue settings f) z
    let r := foldWrites (fun k => f.apply settings (c.site.sub (k + 1))) 0
      (sel.positions.zip (operands.toList sel.positions.length)) a.values
    o.slot.Shows r.slot ∧ o.failure = r.failure ∧
      (sel.positions ≠ [] ∨ a.flags.pinned = false → o.failure = none →
        o.slot.flags.pinned = false) := by
  intro o r
  let steps := Arr.steps c (.ofValue settings f) operands sel
  have ho : o = a.revise (c.sub 0) steps := by
    rw [show o = _ from amendAt_eq_revise settings (real_ofValue settings f) ha hz hlt, hop]
  have hfold := runSteps_eq_foldWrites (fun k => f.apply settings (c.site.sub (k + 1)))
    operands.at? (c.sub 0) 0 fun p hp => Nat.lt_of_lt_of_eq (hlt p hp) ha.length_values.symm
  rw [← List.range_eq_range'] at hfold
  obtain ⟨hslot, hfailure⟩ := hfold
  have hsteps : sel.positions ≠ [] → steps ≠ [] := by
    intro hne hnil
    exact hne (List.zipIdx_eq_nil_iff.1 (List.map_eq_nil_iff.1 hnil))
  rw [ho]
  refine ⟨?_, hfailure, fun h hok => ?_⟩
  · rw [show r.slot = _ from hslot.symm]
    exact shows_canonical _ _
  · exact pinned_canonical (pinned_runSteps (h.imp_left hsteps) hok) _

end SharedArrays
