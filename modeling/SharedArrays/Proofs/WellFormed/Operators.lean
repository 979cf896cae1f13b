import SharedArrays.Proofs.Closed.Operators
import SharedArrays.Proofs.WellFormed.Arrays

/-!
# The operators answer well-formed values

The steps of an update keep an array well-formed and its length as it is, whatever functions they
apply, as long as these answer well-formed values. Merging dictionaries keeps well-formedness too,
and so does all else that operators put their answers together with.

## Main definitions

* `Answers` — a property of an answer, where a failure is well-formed

## Main results

* `wellFormed_runSteps`, `wellFormed_revise` — steps of an update
* `answers_mergeWith` — merging, for any way to combine values
* `fits_closedUnderOperators` — the operators
-/

namespace SharedArrays

/-! ## Steps -/

theorem wellFormed_runSteps {c : Scope} {steps : List Step} {a : Arr Value} (ha : WellFormed a)
    (hsteps : ∀ s ∈ steps, ∀ v, WellFormed v → WellFormed (s.run v)) :
    WellFormed (a.runSteps c steps) ∧ (a.runSteps c steps).slot.len = a.len := by
  induction steps generalizing a with
  | nil => exact ⟨(everywhere_done _).2 ha, rfl⟩
  | cons s rest ih =>
    simp only [List.mem_cons, forall_eq_or_imp] at hsteps
    simp only [Arr.runSteps]
    split
    · exact ⟨everywhere_failed_of_cause ha rfl, rfl⟩
    · rename_i old hold
      have hnew := hsteps.1 old (everywhere_of_at? ha hold)
      split
      · rename_i e he
        rw [he] at hnew
        exact ⟨(everywhere_failed ..).2 ⟨ha, hnew⟩, rfl⟩
      · rename_i new he
        rw [he] at hnew
        obtain ⟨hwf, hlen⟩ := ih (wellFormed_put ha hnew) hsteps.2
        exact ⟨hwf, hlen.trans (len_put ha hnew)⟩

theorem wellFormed_revise (c : Scope) {steps : List Step} {a : Arr Value} (ha : WellFormed a)
    (hsteps : ∀ s ∈ steps, ∀ v, WellFormed v → WellFormed (s.run v)) :
    WellFormed (a.revise c steps) ∧ (a.revise c steps).slot.len = a.len := by
  obtain ⟨hwf, hlen⟩ := wellFormed_runSteps (c := c) ha hsteps
  obtain ⟨hslot, hfailure⟩ := everywhere_outcome.1 hwf
  exact ⟨everywhere_outcome.2 ⟨wellFormed_canonical hslot, hfailure⟩,
    (len_canonical hslot).trans hlen⟩

/-! ## New containers -/

theorem wellFormed_gather {s : Site} {kind : Kind} {predicate : Bool} {vs : List Value}
    (h : WellFormed vs) : WellFormed (gather s kind predicate vs) := by
  unfold gather
  split
  · exact wellFormed_empty s _
  · have hall := wellFormed_ofValues (s := s) h
    split
    · split
      · exact (everywhere_bools _).2 (Window.inBounds_ofList ..)
      · simpa [*] using hall
    · exact hall

theorem wellFormed_withVals {s : Site} {d : Dict Value} {vals : Arr Value}
    (hk : WellFormed d.keys) (hv : WellFormed vals) : WellFormed (d.withVals s vals) := by
  simp only [Dict.withVals, Dict.ofArrays?]
  split
  · rename_i hlen
    exact wellFormed_dict.2 ⟨hlen, hk, hv⟩
  · exact everywhere_error_of_cause rfl

/-! ## Merging -/

/-- The answer satisfies `Q`, and a failure is well-formed. -/
def Answers {α : Type} (Q : α → Prop) : Result α → Prop
  | .ok a => Q a
  | .error e => WellFormed e

theorem answers_bind {α β : Type} {Q : α → Prop} {R : β → Prop} {r : Result α}
    {f : α → Result β} (hr : Answers Q r) (hf : ∀ a, Q a → Answers R (f a)) :
    Answers R (r >>= f) := by
  cases r with
  | ok a => exact hf a hr
  | error e => exact hr

theorem wellFormed_select_result {s : Site} {a : Arr Value} {ps : List Nat} (h : WellFormed a) :
    WellFormed (a.select s ps) := by
  cases hs : a.select s ps with
  | ok b => exact wellFormed_select h hs
  | error e =>
    unfold Arr.select at hs
    split at hs <;> cases hs
    exact everywhere_error_of_cause rfl

theorem answers_select {s : Site} {a : Arr Value} {ps : List Nat} (h : WellFormed a) :
    Answers (fun b => WellFormed b ∧ b.len = ps.length) (a.select s ps) := by
  cases hs : a.select s ps with
  | ok b => exact ⟨wellFormed_select h hs, len_select h hs⟩
  | error e =>
    have hwf : WellFormed (a.select s ps) := wellFormed_select_result h
    rw [hs] at hwf
    exact hwf

/-- The arrays of a dictionary are well-formed and of equal length. -/
def Dict.Paired (d : Dict Value) : Prop :=
  d.keys.len = d.vals.len ∧ WellFormed d.keys ∧ WellFormed d.vals

theorem answers_append? {s : Site} {d : Dict Value} {keys vals : Arr Value} (hd : d.Paired)
    (hk : WellFormed keys) (hv : WellFormed vals) :
    Answers Dict.Paired (d.append? s keys vals) := by
  unfold Dict.append?
  split
  · rename_i hlen
    refine ⟨?_, wellFormed_concat hd.2.1 hk, wellFormed_concat hd.2.2 hv⟩
    exact (len_concat hd.2.1.inBounds hk.inBounds).trans (by
      rw [len_concat hd.2.2.inBounds hv.inBounds, hd.1, hlen])
  · exact everywhere_failure rfl

theorem answers_appendFrom {s : Site} {d r : Dict Value} {fresh : List Nat} (hd : d.Paired)
    (hr : r.Paired) : Answers Dict.Paired (d.appendFrom s r fresh) := by
  unfold Dict.appendFrom
  split
  · exact hd
  · exact answers_bind (answers_select hr.2.1) fun keys hk =>
      answers_bind (answers_select hr.2.2) fun vals hv => answers_append? hd hk.1 hv.1

/-- Merging, with a way to combine values that keeps the number of values. -/
theorem answers_mergeWith {s : Site} {threshold : Nat}
    {combine : List (Nat × Nat) → Arr Value → Result (Arr Value)} {l r : Dict Value}
    (hl : l.Paired) (hr : r.Paired)
    (hcombine : ∀ common, Answers (fun vals => WellFormed vals ∧ vals.len = l.vals.len)
      (combine common l.vals)) :
    Answers Dict.Paired (l.mergeWith s threshold combine r) := by
  refine answers_bind (Q := fun vals => WellFormed vals ∧ vals.len = l.vals.len) ?_
    fun vals hvals => answers_appendFrom ⟨hl.1.trans hvals.2.symm, hl.2.1, hvals.1⟩ hr
  split
  · exact ⟨hl.2.2, rfl⟩
  · exact hcombine _

/-! ## Two operands -/

/-- A function of the left operand that answers well-formed values. -/
def FromLeft.Safe (f : FromLeft) : Prop := ∀ s x, WellFormed x → WellFormed (f s x)

theorem safe_map {g : Value → FromLeft} (hg : ∀ v, WellFormed v → (g v).Safe) {a : Arr Value}
    (ha : WellFormed a) : ∀ f ∈ a.values.map g, f.Safe := by
  intro f hf
  obtain ⟨v, hv, rfl⟩ := List.mem_map.1 hf
  exact hg v (everywhere_iff_forall.1 (everywhere_values ha) v hv)

theorem answers_toResult {α : Type} [HasNodes α] {Q : α → Prop} {o : Outcome α}
    (h : WellFormed o) (hQ : Q o.slot) : Answers (fun a => WellFormed a ∧ Q a) o.toResult := by
  obtain ⟨slot, failure⟩ := o
  obtain ⟨hslot, hfailure⟩ := everywhere_outcome.1 h
  cases failure with
  | none => exact ⟨hslot, hQ⟩
  | some e => exact hfailure

theorem wellFormed_mergeSteps {fns : List FromLeft} (hfns : ∀ f ∈ fns, FromLeft.Safe f) {s : Site}
    {common : List (Nat × Nat)} {st : Step} (hst : st ∈ mergeSteps s fns common) {v : Value}
    (hv : WellFormed v) : WellFormed (st.run v) := by
  obtain ⟨⟨⟨i, j⟩, k⟩, -, rfl⟩ := List.mem_map.1 hst
  refine everywhere_bind ?_ fun w _ hw => everywhere_settle hw
  cases hj : fns[j]? with
  | none => exact hv
  | some f => exact hfns f (List.mem_of_getElem? hj) _ _ hv

theorem answers_mergeSteps {fns : List FromLeft} (hfns : ∀ f ∈ fns, FromLeft.Safe f) {s : Site}
    {c : Scope} {a : Arr Value} (ha : WellFormed a) (common : List (Nat × Nat)) :
    Answers (fun b => WellFormed b ∧ b.len = a.len)
      (a.revise c (mergeSteps s fns common)).toResult := by
  have hrevised := wellFormed_revise c ha
    fun st (hst : st ∈ mergeSteps s fns common) _ => wellFormed_mergeSteps hfns hst
  exact answers_toResult hrevised.1 hrevised.2

theorem answers_mergeBy {fns : List FromLeft} (hfns : ∀ f ∈ fns, FromLeft.Safe f) {s : Site}
    {l r : Dict Value} (hl : l.Paired) (hr : r.Paired) :
    Answers Dict.Paired (l.mergeBy s fns r) :=
  answers_mergeWith hl hr fun common => answers_mergeSteps hfns hl.2.2 common

/-- An answer that is turned into a value. -/
theorem wellFormed_of_answers {α β : Type} [HasNodes β] {Q : α → Prop} {r : Result α}
    {f : α → Result β} (hr : Answers Q r) (hf : ∀ a, Q a → WellFormed (f a)) :
    WellFormed (r >>= f) := by
  cases r with
  | ok a => exact hf a hr
  | error e => exact hr

theorem wellFormed_ofPaired {s : Site} {d : Dict Value} (hd : d.Paired) :
    WellFormed (.dict s d : Value) := wellFormed_dict.2 hd

/-! ## The operators -/

theorem fits_closedUnderOperators : ClosedUnderOperators Value.Fits where
  empty s kind := wellFormed_empty s kind
  emptyDict _ := wellFormed_dict.2 ⟨rfl, wellFormed_empty _ .list, wellFormed_empty _ .list⟩
  ofValues _ _ hvs := wellFormed_ofValues hvs
  gathered _ _ _ _ hvs := wellFormed_gather hvs
  select _ _ _ ha := wellFormed_select_result ha
  concat _ _ _ ha hb := wellFormed_concat ha hb
  withVals _ _ _ hkeys hvals := wellFormed_withVals hkeys hvals
  mergeBy _ _ _ _ _ _ hfns hl hr :=
    wellFormed_of_answers (answers_mergeBy hfns (wellFormed_dict.1 hl) (wellFormed_dict.1 hr))
      fun _ hd => wellFormed_ofPaired hd

theorem safe_withRight {b : Builtin} {y : Value} (hy : WellFormed y) :
    FromLeft.Safe (withRight b y) := fits_closedUnderOperators.withRight b hy

theorem wellFormed_monadic {b : Builtin} {s : Site} {x : Value} (hx : WellFormed x) :
    WellFormed (b.monadic s x) := fits_closedUnderOperators.monadic b s hx

theorem wellFormed_dyadic {b : Builtin} {s : Site} {x y : Value} (hx : WellFormed x)
    (hy : WellFormed y) : WellFormed (b.dyadic s x y) := fits_closedUnderOperators.dyadic b s hx hy

end SharedArrays
