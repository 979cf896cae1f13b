import SharedArrays.Proofs.Closed.Operators
import SharedArrays.Proofs.Flags.Arrays

/-!
# The operators answer truthful values

An operator puts its answer together from new arrays, whose flags say what canonical storage has
looked up itself. Arrays that are handed on, such as the keys of a dictionary, keep their elements
with their flags. The steps of an update take all flags back with the first write.

## Main results

* `truthful_runSteps`, `truthful_revise` — steps of an update
* `truthful_mergeWith` — merging, for any way to combine values
* `flagsHold_closedUnderOperators` — the operators
-/

namespace SharedArrays

/-! ## Steps -/

theorem truthful_runSteps {c : Scope} {steps : List Step} {a : Arr Value} (ha : Truthful a)
    (hsteps : ∀ s ∈ steps, ∀ v, Truthful v → Truthful (s.run v)) :
    Truthful (a.runSteps c steps) := by
  induction steps generalizing a with
  | nil => exact (everywhere_done _).2 ha
  | cons s rest ih =>
    obtain ⟨hs, hrest⟩ := List.forall_mem_cons.1 hsteps
    simp only [Arr.runSteps]
    split
    · exact everywhere_failed_of_cause ha rfl
    · rename_i old hold
      have hnew := hs old (everywhere_of_at? ha hold)
      split
      · rename_i e he
        rw [he] at hnew
        exact (everywhere_failed ..).2 ⟨ha, hnew⟩
      · rename_i new he
        rw [he] at hnew
        exact ih (truthful_put ha hnew) hrest

theorem truthful_revise (c : Scope) {steps : List Step} {a : Arr Value} (ha : Truthful a)
    (hsteps : ∀ s ∈ steps, ∀ v, Truthful v → Truthful (s.run v)) :
    Truthful (a.revise c steps) := by
  obtain ⟨hslot, hfailure⟩ := everywhere_outcome.1 (truthful_runSteps (c := c) ha hsteps)
  exact everywhere_outcome.2 ⟨truthful_canonical hslot, hfailure⟩

/-! ## New containers -/

theorem truthful_gather {s : Site} {kind : Kind} {predicate : Bool} {vs : List Value}
    (h : Truthful vs) : Truthful (gather s kind predicate vs) := by
  unfold gather
  split
  · exact truthful_empty s _
  · have hall := truthful_ofValues (s := s) h
    split
    · split
      · exact truthful_of_silent Flags.silent_default everywhere_empty
      · simpa [*] using hall
    · exact hall

theorem truthful_ofArrays? {keys vals : Arr Value} (hk : Truthful keys) (hv : Truthful vals) :
    Truthful (Dict.ofArrays? keys vals) := by
  unfold Dict.ofArrays?
  split
  · exact everywhere_entries.2 ⟨hk, hv⟩
  · exact everywhere_error_of_cause rfl

theorem truthful_withVals {s : Site} {d : Dict Value} {vals : Arr Value}
    (hk : Truthful d.keys) (hv : Truthful vals) : Truthful (d.withVals s vals) :=
  everywhere_bind (truthful_ofArrays? hk hv) fun _ _ hd => truthful_dict.2 hd

/-! ## Merging -/

section Merge

variable {s : Site} {d l r : Dict Value}

theorem truthful_append? {keys vals : Arr Value} (hd : Truthful d) (hk : Truthful keys)
    (hv : Truthful vals) : Truthful (d.append? s keys vals) := by
  obtain ⟨hdk, hdv⟩ := everywhere_entries.1 hd
  unfold Dict.append?
  split
  · exact everywhere_entries.2 ⟨truthful_concat hdk hk, truthful_concat hdv hv⟩
  · exact everywhere_error_of_cause rfl

theorem truthful_appendFrom {fresh : List Nat} (hd : Truthful d) (hr : Truthful r) :
    Truthful (d.appendFrom s r fresh) := by
  obtain ⟨hrk, hrv⟩ := everywhere_entries.1 hr
  unfold Dict.appendFrom
  split
  · exact hd
  · exact everywhere_bind (truthful_select hrk) fun keys _ hk =>
      everywhere_bind (truthful_select hrv) fun vals _ hv => truthful_append? hd hk hv

/-- Merging, with a way to combine values that answers truthful arrays. -/
theorem truthful_mergeWith {threshold : Nat}
    {combine : List (Nat × Nat) → Arr Value → Result (Arr Value)} (hl : Truthful l)
    (hr : Truthful r) (hcombine : ∀ common, Truthful (combine common l.vals)) :
    Truthful (l.mergeWith s threshold combine r) := by
  obtain ⟨hlk, hlv⟩ := everywhere_entries.1 hl
  refine everywhere_bind (α := Arr Value) ?_ fun vals _ hvals =>
    truthful_appendFrom (everywhere_entries.2 ⟨hlk, hvals⟩) hr
  split
  · exact hlv
  · exact hcombine _

theorem truthful_mergeBy {fns : List FromLeft} (hfns : ∀ f ∈ fns, f.Maintains Value.FlagsHold)
    (hl : Truthful l) (hr : Truthful r) :
    Truthful (l.mergeBy s fns r) := by
  refine truthful_mergeWith hl hr fun common => everywhere_toResult ?_
  refine truthful_revise _ (everywhere_entries.1 hl).2 fun st hst v hv => ?_
  obtain ⟨⟨⟨i, j⟩, k⟩, -, rfl⟩ := List.mem_map.1 hst
  refine everywhere_bind ?_ fun w _ hw => everywhere_settle hw
  cases hj : fns[j]? with
  | none => exact hv
  | some f => exact hfns f (List.mem_of_getElem? hj) _ _ hv

end Merge

/-! ## The operators -/

theorem flagsHold_closedUnderOperators : ClosedUnderOperators Value.FlagsHold where
  empty s kind := truthful_empty s kind
  emptyDict _ :=
    truthful_dict.2 (everywhere_entries.2 ⟨truthful_empty _ .list, truthful_empty _ .list⟩)
  ofValues _ _ hvs := truthful_ofValues hvs
  gathered _ _ _ _ hvs := truthful_gather hvs
  select _ _ _ ha := truthful_select ha
  concat _ _ _ ha hb := truthful_concat ha hb
  withVals _ _ _ hkeys hvals := truthful_withVals hkeys hvals
  mergeBy _ _ _ _ _ _ hfns hl hr :=
    everywhere_bind (truthful_mergeBy hfns (truthful_dict.1 hl) (truthful_dict.1 hr))
      fun _ _ hd => truthful_dict.2 hd

end SharedArrays
