import SharedArrays.Proofs.Pervasive

/-!
# Operators merge as the interface does

Two dictionaries under an operator are merged: the values of common keys meet under the operator
itself, and a join lets the value on the right overwrite. An operator finds its way through nested
operands by functions of the left one, so that its merges run one step for each common key. The
interface merges with a function value, and may run a typed loop where the function is an operator.
The two answer the same, but for the places where they make objects.

## Main results

* `alike_mergeBy_merge` — merging by functions of the left values, and merging by an operator
* `alike_dyadic_merge` — an operator that pervades dictionaries merges by itself
* `alike_join_merge` — a join merges by the operator that answers its right operand
-/

namespace SharedArrays

section Merging

variable {b : Builtin} {g : Value → FromLeft} {l r : Dict Value}
  (hsafe : ∀ v, WellFormed v → (g v).Safe)
  (hg : ∀ v, WellFormed v → FromLeft.Same (g v) fun s x => b.dyadic s x v)
include hsafe hg

/-- The steps of an amend by an operator, and the steps that combine with the functions `g` of the
right values. -/
theorem alike_mergeSteps_steps {a z : Arr Value} (ha : WellFormed a) (hr : WellFormed r.vals)
    {common : List (Nat × Nat)} (hlt : ∀ p ∈ common.map (·.2), p < r.vals.len) {t : Site}
    (hz : r.vals.select t (common.map (·.2)) = .ok z) (settings : Settings) (s : Site)
    (c c' d : Scope) :
    Alike (a.revise c (mergeSteps s (r.vals.values.map g) common))
      (a.revise c' (Arr.steps d (.ofValue settings (.builtin b)) (.each z)
        (.many (common.map (·.1))))) := by
  have hsteps : Arr.steps d (.ofValue settings (.builtin b)) (.each z)
      (.many (common.map (·.1))) = common.zipIdx.map fun e => ⟨e.1.1, fun old =>
        (Value.builtin b).apply settings (d.site.sub (e.2 + 1)) (old :: (z.at? e.2).toList)⟩ := by
    show ((common.map (·.1)).zipIdx).map _ = _
    rw [List.zipIdx_map, List.map_map]
    rfl
  have hzwf : WellFormed z := wellFormed_select hr hz
  have hright (v : Value) (hv : v ∈ r.vals.values) : WellFormed v :=
    everywhere_iff_forall.1 (everywhere_values hr) v hv
  have hcall : (Callee.ofValue settings (.builtin b)).Safe := safe_ofValue (everywhere_builtin b)
  have hleft {st : Step} (hst : st ∈ mergeSteps s (r.vals.values.map g) common) (v : Value)
      (hv : WellFormed v) : WellFormed (st.run v) :=
    wellFormed_mergeSteps (safe_map hsafe hr) hst hv
  rw [hsteps]
  unfold mergeSteps at hleft ⊢
  refine alike_revise (alike_runSteps ?_ ?_ ?_ ha ha (.refl a))
  · exact fun _ _ => rfl
  · rintro ⟨⟨i, j⟩, k⟩ hmem v v' hv hv' hvv
    -- The right operand of the call is the value that the function is made of.
    have hj : (common.map (·.2))[k]? = some j := by
      rw [List.getElem?_map, List.mem_zipIdx_iff_getElem?.1 hmem]
      rfl
    have hread : z.at? k = r.vals.values[j]? := Arr.at?_select hr.inBounds hz hlt hj
    have hlt : j < r.vals.values.length :=
      hr.length_values ▸ hlt j (List.mem_of_getElem? hj)
    simp only [hread, List.getElem?_map, List.getElem?_eq_getElem hlt]
    refine alike_bind ?_ fun _ _ _ _ => alike_settle
    exact hg _ (hright _ (List.getElem_mem hlt)) _ _ v v' hv hv' hvv
  · intro e he v hv
    refine ⟨hleft (List.mem_map_of_mem he) v hv, hcall _ _ ((everywhere_cons ..).2 ⟨hv, ?_⟩)⟩
    exact everywhere_toList.2 (Operands.everywhere_at? (z := .each z) hzwf e.2)

/-- Merging by functions of the left values is merging by an operator that answers the same, also
when the merge by the operator may run typed loops. -/
theorem alike_mergeBy_merge (hl : l.Paired) (hr : r.Paired) (s : Site) (c : Scope) :
    Alike (l.mergeBy s (r.vals.values.map g) r) (l.merge {} c r (.builtin b)) := by
  refine alike_mergeWith hl hl (.refl l) hr hr (.refl r)
    (answers_mergeSteps (safe_map hsafe hr.2.2) hl.2.2)
    (answers_combine hl.2.2 hr.2.2 (everywhere_builtin b)) ?_
  intro common hcommon
  have hleft : ∀ p ∈ (Selection.many (common.map (·.1))).positions, p < l.vals.len :=
    hcommon ▸ mergePlan_common_lt hl _
  have hright : ∀ p ∈ common.map (·.2), p < r.vals.len := by
    rw [hcommon, ← hr.1]
    exact (mergePlan_lt hr _).1
  obtain ⟨z, hz⟩ := Arr.exists_select (c.site.sub 1) hright
  have hzwf : WellFormed z := wellFormed_select hr.2.2 hz
  have hop : (Callee.ofValue {} (.builtin b)).operands (some (.array z))
      (.many (common.map (·.1))) = .ok (.each z) :=
    if_pos ((len_select hr.2.2 hz).trans (by rw [List.length_map, List.length_map]))
  -- A typed loop may run, but it leaves what the steps leave.
  rw [hz]
  show Alike _ (Arr.amendAt _ _ _ _ _ _).toResult
  rw [amendAt_eq_revise {} (real_ofValue {} _) hl.2.2
    ((everywhere_some _).2 ((everywhere_array z).2 hzwf)) hleft, hop]
  exact alike_toResult (alike_mergeSteps_steps hsafe hg hl.2.2 hr.2.2 hright hz {} s _ _ _)

end Merging

variable {t u : Site} {l r : Dict Value} (hl : l.Paired) (hr : r.Paired) (s s' : Site) (c : Scope)
include hl hr

/-- An operator that pervades dictionaries merges two of them by itself. -/
theorem alike_dyadic_merge {b : Builtin} (hb : b.isPervasive = true) :
    Alike (b.dyadic s (.dict t l) (.dict u r))
      (do return .dict s' (← l.merge {} c r (.builtin b))) := by
  have hdyadic := dyadic_of_isPervasive hb
  have hg (v : Value) (hv : WellFormed v) :
      FromLeft.Same (withRight b v) fun s x => b.dyadic s x v := by
    intro s s' x x' hx hx' hxx
    show Alike _ (b.dyadic s' x' v)
    rw [hdyadic]
    exact blind_withRight b hv s s' x x' hx hx' hxx
  have hmerge := alike_mergeBy_merge (fun _ hv => safe_withRight hv) hg hl hr s c
  rw [← withRightElements_eq_map] at hmerge
  rw [hdyadic]
  exact alike_bind hmerge fun _ _ _ _ hm => alike_ok.2 (alike_dict.2 hm)

/-- A join of dictionaries merges them by the operator that answers its right operand. -/
theorem alike_join_merge :
    Alike (Builtin.join.dyadic s (.dict t l) (.dict u r))
      (do return .dict s' (← l.merge {} c r (.builtin .right))) := by
  have hg (v : Value) (_ : WellFormed v) :
      FromLeft.Same (fun _ _ => .ok v) fun s x => Builtin.right.dyadic s x v :=
    fun _ _ _ _ _ _ _ => .refl _
  have hmerge := alike_mergeBy_merge (fun v hv _ _ _ => hv) hg hl hr s c
  exact alike_bind hmerge fun _ _ _ _ hm => alike_ok.2 (alike_dict.2 hm)

end SharedArrays
