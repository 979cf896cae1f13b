import SharedArrays.Proofs.Alike.Commands
import SharedArrays.Proofs.Twins.Operators

/-!
# Operators do not see where they work

The objects that an operator makes are named after the place where it makes them. Nothing in its
answer depends on these names: at another place, and on operands that are alike, it answers the
same but for names and pins, and it fails for the same reason. Unlike twins, alike operands have the
same flags, so that nothing has to be known about what the flags promise.

## Main definitions

* `FromLeft.Same` — functions of the left operand with alike answers to alike operands
* `FromLeft.Blind` — a function of the left operand that is the same as itself

## Main results

* `alike_carry` — functions of atoms, carried through containers
* `alike_mergeWith`, `alike_mergeBy`, `alike_append?`, `alike_appendFrom` — merging
* `same_withRight` — the functions that operators make of their right operand
* `alike_monadic`, `alike_dyadic` — the operators
-/

namespace SharedArrays

/-! ## Lists of answers -/

section Answers

variable {α β : Type} [HasBare α] [HasBare β]

theorem alike_iff_pointwise {xs ys : List α} : Alike xs ys ↔ Pointwise Alike xs ys := by
  induction xs generalizing ys with
  | nil => rw [pointwise_nil_left, alike_nil]
  | cons x xs ih =>
    cases ys with
    | nil => exact ⟨nofun, nofun⟩
    | cons y ys => rw [alike_cons, pointwise_cons, ih]

/-- Only what the first answer can be has to be looked at. -/
theorem alike_bind {r r' : Result α} (h : Alike r r') {f f' : α → Result β}
    (hf : ∀ x x', r = .ok x → r' = .ok x' → Alike x x' → Alike (f x) (f' x')) :
    Alike (r >>= f) (r' >>= f') := by
  rcases alike_result_cases h with ⟨x, x', rfl, rfl, hxx⟩ | ⟨e, e', rfl, rfl, hee⟩
  · exact hf x x' rfl rfl hxx
  · exact alike_error.2 hee

theorem alike_allOk {rs rs' : List (Result α)} (h : Alike rs rs') :
    Alike (allOk rs) (allOk rs') := by
  induction rs generalizing rs' with
  | nil =>
    rw [alike_nil.1 h]
    exact .refl _
  | cons r rs ih =>
    obtain ⟨r', rs', rfl, hr, hrs⟩ := h.exists_cons
    exact alike_bind hr fun x x' _ _ hx => alike_bind (ih hrs) fun xs xs' _ _ hxs =>
      alike_ok.2 (alike_cons.2 ⟨hx, hxs⟩)

theorem alike_answerArray {r r' : Result (Arr Value)} :
    Alike (do return .array (← r) : Result Value) (do return .array (← r')) ↔ Alike r r' := by
  constructor
  · intro h
    cases r with
    | ok a =>
      cases r' with
      | ok a' => exact alike_ok.2 (alike_array.1 (alike_ok.1 h))
      | error e' => cases h
    | error e =>
      cases r' with
      | ok a' => cases h
      | error e' => exact alike_error.2 (alike_error.1 h)
  · exact fun h => alike_bind h fun _ _ _ _ hab => alike_ok.2 (alike_array.2 hab)

end Answers

/-! ## Containers -/

section Containers

variable {s s' : Site} {kind : Kind} {predicate : Bool}

theorem alike_gather {vs vs' : List Value} (h : Alike vs vs') :
    Alike (gather s kind predicate vs) (gather s' kind predicate vs') := by
  have hempty : vs.isEmpty = vs'.isEmpty := by
    rw [Bool.eq_iff_iff, List.isEmpty_iff_length_eq_zero, List.isEmpty_iff_length_eq_zero,
      h.length_eq]
  have hall : Alike (Arr.ofValues s vs) (Arr.ofValues s' vs') := alike_ofValues h
  unfold gather
  rw [hempty]
  split
  · exact alike_empty ..
  · -- Integers are the only ones that can become truth values, and they are the same on both sides.
    split
    · rename_i w hw
      obtain ⟨w', hw', hitems⟩ := (hw ▸ hall).exists_ints
      simp only [hw', ← hitems]
      split
      · exact alike_arr_iff.2 ⟨rfl, rfl, by simp [Arr.values, Alike.refl]⟩
      · exact hw ▸ hw' ▸ hall
    · rename_i hne
      have hne' : ∀ w, Arr.ofValues s' vs' ≠ .ints w := by
        intro w hw
        obtain ⟨v, hv, -⟩ := (hw ▸ hall.symm).exists_ints
        exact hne v hv
      split
      · exact absurd ‹_› (hne' _)
      · exact hall

theorem alike_withVals {d d' : Dict Value} (hd : Alike d d') (hlen : d.keys.len = d'.keys.len)
    {vals vals' : Arr Value} (hvals : Alike vals vals') (hlen' : vals.len = vals'.len) :
    Alike (d.withVals s vals) (d'.withVals s' vals') := by
  simp only [Dict.withVals, Dict.ofArrays?, hlen, hlen']
  split
  · exact alike_ok.2 (alike_dict.2 (alike_entries.2 ⟨(alike_entries.1 hd).1, hvals⟩))
  · exact .refl _

theorem alike_select {a a' : Arr Value} (ha : WellFormed a) (ha' : WellFormed a') (h : Alike a a')
    (ps : List Nat) : Alike (a.select s ps) (a'.select s' ps) := by
  have hvalues {b b' : Arr Value} (hb : a.select s ps = .ok b) (hb' : a'.select s' ps = .ok b') :
      Alike b.values b'.values := by
    rw [Arr.values_select hb, Arr.values_select hb', alike_iff_pointwise]
    exact (alike_iff_pointwise.1 h.values).select ps
  have hkind := h.kind_eq
  unfold Arr.select at hvalues ⊢
  rw [h.len_eq ha ha'] at hvalues ⊢
  split at hvalues
  · exact .refl _
  -- The selection is on a new buffer, and has no flags on either side.
  · cases a <;> cases a' <;> first
      | exact alike_ok.2 (alike_arr_iff.2 ⟨rfl, rfl, hvalues rfl rfl⟩)
      | cases hkind

end Containers

/-! ## Atoms -/

/-- A function that refuses all that is not a leaf, and names its type. -/
theorem alike_of_refuses {f : Value → Result Value}
    (hf : ∀ v, v.isLeaf = false → f v = .error (.type "number" v.typeName)) {u v : Value}
    (h : Alike u v) : Alike (f u) (f v) := by
  rcases alike_value_cases h with ⟨_, _, rfl, rfl, -⟩ | ⟨_, _, _, _, rfl, rfl, -⟩ |
    ⟨_, _, _, _, rfl, rfl, -⟩ | ⟨-, rfl⟩
  · rw [hf _ rfl, hf _ rfl, h.typeName_eq]
    exact .refl _
  · rw [hf _ rfl, hf _ rfl, h.typeName_eq]
    exact .refl _
  · rw [hf _ rfl, hf _ rfl, h.typeName_eq]
    exact .refl _
  · exact .refl _

theorem alike_negateAtom {u v : Value} (h : Alike u v) : Alike (negateAtom u) (negateAtom v) :=
  alike_of_refuses (fun v hv => by cases v <;> first | rfl | cases hv) h

theorem alike_isZeroAtom {u v : Value} (h : Alike u v) : Alike (isZeroAtom u) (isZeroAtom v) :=
  alike_of_refuses (fun v hv => by cases v <;> first | rfl | cases hv) h

theorem alike_onAtoms (b : Builtin) (y : Value) {u v : Value} (h : Alike u v) :
    Alike (b.onAtoms u y) (b.onAtoms v y) :=
  @alike_of_refuses (b.onAtoms · y) (fun v hv => by cases v <;> first | rfl | cases hv) u v h

theorem alike_onAtoms_right (b : Builtin) (x : Value) {u v : Value} (h : Alike u v) :
    Alike (b.onAtoms x u) (b.onAtoms x v) := by
  -- A number names the type of what it refuses, and all else on the left is refused itself.
  cases x with
  | int m =>
    exact @alike_of_refuses (b.onAtoms (.int m))
      (fun v hv => by cases v <;> first | rfl | cases hv) u v h
  | float y =>
    exact @alike_of_refuses (b.onAtoms (.float y))
      (fun v hv => by cases v <;> first | rfl | cases hv) u v h
  | str s =>
    have hrefused {v : Value} (hv : v.isLeaf ≠ true) :
        b.onAtoms (.str s) v = .error (.type "number" "string") := by
      cases v <;> first | rfl | exact absurd rfl hv
    by_cases hleaf : u.isLeaf = true
    · rw [h.eq_of_isLeaf hleaf]
      exact .refl _
    · rw [hrefused hleaf, hrefused fun hv => hleaf (h.symm.eq_of_isLeaf hv ▸ hv)]
      exact .refl _
  | _ => exact .refl _

theorem Alike.len_eq_of_inBounds {a a' : Arr Value} (h : Alike a a') (ha : a.InBounds)
    (ha' : a'.InBounds) : a.len = a'.len := by
  rw [← Arr.length_values ha, ← Arr.length_values ha', h.values.length_eq]

theorem inBounds_carry {predicate : Bool} {f : Value → Result Value} {s : Site} {a b : Arr Value}
    (h : a.carry predicate f s = .ok b) : b.InBounds := by
  obtain ⟨t, ht⟩ := Arr.carry_eq predicate f s a
  obtain ⟨vs, -, hb⟩ := bind_eq_ok.1 (ht.symm.trans h)
  cases hb
  exact inBounds_gather ..

/-- Carrying functions that do not see names and pins. -/
theorem alike_carry {predicate : Bool} {f g : Value → Result Value}
    (hfg : ∀ u v, Alike u v → Alike (f u) (g v)) {x x' : Value} (hx : WellFormed x)
    (hx' : WellFormed x') (h : Alike x x') (s s' : Site) :
    Alike (x.carry predicate f s) (x'.carry predicate g s') := by
  induction x using Value.elements_induction generalizing x' s s' with
  | leaf x hleaf =>
    have hatom := isContainer_of_isLeaf hleaf
    rw [carry_atom _ _ _ hatom, carry_atom _ _ _ (h.isContainer_eq ▸ hatom)]
    exact hfg _ _ h
  | error t v _ =>
    have hatom : x'.isContainer = false := h.isContainer_eq.symm
    rw [carry_atom _ _ _ rfl, carry_atom _ _ _ hatom]
    exact hfg _ _ h
  | array a ih =>
    obtain ⟨a', rfl, haa⟩ := h.exists_array
    have ha := (everywhere_array a).1 hx
    have ha' := (everywhere_array a').1 hx'
    -- Whatever the variants, the elements are carried one by one, each at some site.
    obtain ⟨t, ht⟩ := Arr.carry_eq predicate f s a
    obtain ⟨t', ht'⟩ := Arr.carry_eq predicate g s' a'
    refine alike_answerArray.2 ?_
    rw [ht, ht', haa.kind_eq]
    refine alike_bind (alike_allOk ?_) fun vs vs' _ _ hvs => alike_ok.2 (alike_gather hvs)
    refine alike_iff_pointwise.2 (pointwise_mapIdx haa.values.length_eq fun i u v hu hv => ?_)
    exact ih u (List.mem_of_getElem? hu) (everywhere_of_at? ha hu) (everywhere_of_at? ha' hv)
      ((alike_iff_pointwise.1 haa.values).2 i u v hu hv) _ _
  | dict t keys vals ihk ihv =>
    obtain ⟨t', ⟨keys', vals'⟩, rfl, hde⟩ := h.exists_dict
    obtain ⟨hkeys, hvals⟩ := alike_entries.1 hde
    obtain ⟨hlen, hk, hv⟩ := wellFormed_dict.1 hx
    obtain ⟨hlen', hk', hv'⟩ := wellFormed_dict.1 hx'
    have hcarried : Alike (vals.carry predicate f (s.sub 0)) (vals'.carry predicate g (s'.sub 0)) :=
      alike_answerArray.1 (ihv ((everywhere_array vals).2 hv) ((everywhere_array vals').2 hv')
        (alike_array.2 hvals) _ _)
    -- The keys are put back if there are as many of them as answers, on both sides.
    refine alike_bind hcarried fun b b' hb hb' hbb => ?_
    exact alike_withVals hde (hkeys.len_eq hk hk') hbb
      (hbb.len_eq_of_inBounds (inBounds_carry hb) (inBounds_carry hb'))

/-! ## Merging -/

section Append

variable {s s' : Site} {d d' : Dict Value} (hd : d.Paired) (hd' : d'.Paired) (h : Alike d d')
include hd hd' h

theorem alike_append? {keys keys' vals vals' : Arr Value} (hk : WellFormed keys)
    (hk' : WellFormed keys') (hkeys : Alike keys keys') (hv : WellFormed vals)
    (hv' : WellFormed vals') (hvals : Alike vals vals') :
    Alike (d.append? s keys vals) (d'.append? s' keys' vals') := by
  obtain ⟨hdkeys, hdvals⟩ := alike_entries.1 h
  have hklen := hkeys.len_eq hk hk'
  have hvlen := hvals.len_eq hv hv'
  unfold Dict.append?
  rw [hklen, hvlen]
  split
  · exact alike_ok.2 (alike_entries.2
      ⟨alike_concat _ _ hdkeys (hdkeys.len_eq hd.2.1 hd'.2.1) hkeys hklen,
        alike_concat _ _ hdvals (hdvals.len_eq hd.2.2 hd'.2.2) hvals hvlen⟩)
  · exact .refl _

theorem alike_appendFrom {r r' : Dict Value} (hr : r.Paired) (hr' : r'.Paired) (hrr : Alike r r')
    (fresh : List Nat) : Alike (d.appendFrom s r fresh) (d'.appendFrom s' r' fresh) := by
  obtain ⟨hkeys, hvals⟩ := alike_entries.1 hrr
  unfold Dict.appendFrom
  split
  · exact alike_ok.2 h
  · refine alike_bind (alike_select hr.2.1 hr'.2.1 hkeys fresh) fun keys keys' hk hk' hkk => ?_
    refine alike_bind (alike_select hr.2.2 hr'.2.2 hvals fresh) fun vals vals' hv hv' hvv => ?_
    exact alike_append? hd hd' h (wellFormed_select hr.2.1 hk) (wellFormed_select hr'.2.1 hk') hkk
      (wellFormed_select hr.2.2 hv) (wellFormed_select hr'.2.2 hv') hvv

end Append

/-- Alike dictionaries are merged alike, if their values are combined alike at the positions that
both merges go by. -/
theorem alike_mergeWith {s s' : Site} {threshold : Nat} {l l' r r' : Dict Value} (hl : l.Paired)
    (hl' : l'.Paired) (h : Alike l l') (hr : r.Paired) (hr' : r'.Paired) (hrr : Alike r r')
    {combine combine' : List (Nat × Nat) → Arr Value → Result (Arr Value)}
    (hleft : ∀ common,
      Answers (fun vals => WellFormed vals ∧ vals.len = l.vals.len) (combine common l.vals))
    (hright : ∀ common,
      Answers (fun vals => WellFormed vals ∧ vals.len = l'.vals.len) (combine' common l'.vals))
    (hcombine : ∀ common, common = (l.mergePlan threshold r).common →
      Alike (combine common l.vals) (combine' common l'.vals)) :
    Alike (l.mergeWith s threshold combine r) (l'.mergeWith s' threshold combine' r') := by
  obtain ⟨hkeys, hvals⟩ := alike_entries.1 h
  -- The keys are alike, so that both merges go by one plan.
  have hplan : l.mergePlan threshold r = l'.mergePlan threshold r' := by
    unfold Dict.mergePlan
    rw [positions_congr h (alike_entries.1 hrr).1 hr.2.1 hr'.2.1]
  unfold Dict.mergeWith
  simp only [← hplan]
  generalize Dict.mergePlan _ l r = plan at hcombine
  -- Combining leaves as many values as there were.
  have hpaired {combine : List (Nat × Nat) → Arr Value → Result (Arr Value)} {l : Dict Value}
      (hl : l.Paired) (hanswers : Answers (fun vals => WellFormed vals ∧ vals.len = l.vals.len)
        (combine plan.common l.vals)) {vals : Arr Value}
      (h : (if plan.common.isEmpty then .ok l.vals else combine plan.common l.vals) = .ok vals) :
      (⟨l.keys, vals⟩ : Dict Value).Paired := by
    split at h
    · cases h
      exact hl
    · rw [h] at hanswers
      exact ⟨hl.1.trans hanswers.2.symm, hl.2.1, hanswers.1⟩
  refine alike_bind ?_ fun vals vals' hv hv' hvv => ?_
  · split
    · exact alike_ok.2 hvals
    · exact hcombine _ rfl
  · exact alike_appendFrom (hpaired hl (hleft _) hv) (hpaired hl' (hright _) hv')
      (alike_entries.2 ⟨hkeys, hvv⟩) hr hr' hrr _

/-! ## Two operands -/

/-- Functions of the left operand that answer alike operands alike, wherever they make their
objects. -/
def FromLeft.Same (f g : FromLeft) : Prop :=
  ∀ s s' x x', WellFormed x → WellFormed x' → Alike x x' → Alike (f s x) (g s' x')

/-- The function of the left operand answers alike operands alike, wherever it makes its objects. -/
def FromLeft.Blind (f : FromLeft) : Prop :=
  ∀ s s' x x', WellFormed x → WellFormed x' → Alike x x' → Alike (f s x) (f s' x')

theorem inBounds_pairs {b : Builtin} {fns : List FromLeft} {s : Site} {a c : Arr Value}
    (h : Builtin.overArray.pairs b fns s a = .ok c) : c.InBounds := by
  unfold Builtin.overArray.pairs at h
  split at h
  · obtain ⟨vs, -, hc⟩ := bind_eq_ok.1 h
    cases hc
    exact inBounds_gather ..
  · cases h

theorem inBounds_overArray {b : Builtin} {kind : Kind} {fns : List FromLeft} {s : Site} {x : Value}
    {c : Arr Value} (h : b.overArray kind fns s x = .ok (.array c)) : c.InBounds := by
  by_cases hx : x.isContainer = true
  · cases x with
    | array a =>
      obtain ⟨c', hpairs, hc⟩ := bind_eq_ok.1 h
      cases hc
      exact inBounds_pairs hpairs
    | dict t d =>
      obtain ⟨c', -, hc⟩ := bind_eq_ok.1 h
      obtain ⟨_, -, hc⟩ := bind_eq_ok.1 hc
      cases hc
    | _ => cases hx
  · rw [overArray_atom b kind fns s (by simpa using hx)] at h
    obtain ⟨vs, -, hc⟩ := bind_eq_ok.1 h
    cases hc
    exact inBounds_gather ..

section FromLeft

variable {b : Builtin} {fns gs : List FromLeft} (hfns : Pointwise FromLeft.Same fns gs)
  {s s' : Site}
include hfns

theorem alike_pairs {a a' : Arr Value} (ha : WellFormed a) (ha' : WellFormed a') (h : Alike a a') :
    Alike (Builtin.overArray.pairs b fns s a) (Builtin.overArray.pairs b gs s' a') := by
  unfold Builtin.overArray.pairs
  rw [h.len_eq ha ha', h.kind_eq, hfns.1]
  split
  · refine alike_bind (alike_allOk ?_) fun vs vs' _ _ hvs => alike_ok.2 (alike_gather hvs)
    have hlen : (a.values.zip fns).length = (a'.values.zip gs).length := by
      rw [List.length_zip, List.length_zip, h.values.length_eq, hfns.1]
    -- At one place the functions are the same, and the elements are alike.
    refine alike_iff_pointwise.2 (pointwise_mapIdx hlen ?_)
    rintro i ⟨u, f⟩ ⟨v, g⟩ huf hvg
    obtain ⟨hu, hf⟩ := List.getElem?_zip_eq_some.1 huf
    obtain ⟨hv, hg⟩ := List.getElem?_zip_eq_some.1 hvg
    exact hfns.2 i f g hf hg _ _ u v (everywhere_of_at? ha hu) (everywhere_of_at? ha' hv)
      ((alike_iff_pointwise.1 h.values).2 i u v hu hv)
  · exact .refl _

theorem alike_overArray (kind : Kind) {x x' : Value} (hx : WellFormed x) (hx' : WellFormed x')
    (h : Alike x x') : Alike (b.overArray kind fns s x) (b.overArray kind gs s' x') := by
  have hatom (hx₁ : x.isContainer = false) :
      Alike (b.overArray kind fns s x) (b.overArray kind gs s' x') := by
    rw [overArray_atom b kind fns s hx₁, overArray_atom b kind gs s' (h.isContainer_eq ▸ hx₁)]
    refine alike_bind (alike_allOk ?_)
      fun vs vs' _ _ hvs => alike_ok.2 (alike_array.2 (alike_gather hvs))
    exact alike_iff_pointwise.2 (hfns.mapIdx fun i f g hfg => hfg _ _ x x' hx hx' h)
  cases x with
  | array a =>
    obtain ⟨a', rfl, haa⟩ := h.exists_array
    exact alike_answerArray.2
      (alike_pairs hfns ((everywhere_array a).1 hx) ((everywhere_array a').1 hx') haa)
  | dict t d =>
    obtain ⟨t', d', rfl, hdd⟩ := h.exists_dict
    obtain ⟨-, hk, hv⟩ := wellFormed_dict.1 hx
    obtain ⟨-, hk', hv'⟩ := wellFormed_dict.1 hx'
    obtain ⟨hkeys, hvals⟩ := alike_entries.1 hdd
    refine alike_bind (alike_pairs hfns hv hv' hvals) fun c c' hc hc' hcc => ?_
    exact alike_withVals hdd (hkeys.len_eq hk hk') hcc
      (hcc.len_eq_of_inBounds (inBounds_pairs hc) (inBounds_pairs hc'))
  | _ => exact hatom rfl

theorem alike_overVals {d d' : Dict Value} (hd : d.Paired) (hd' : d'.Paired) (hdd : Alike d d')
    {x x' : Value} (hx : WellFormed x) (hx' : WellFormed x') (h : Alike x x') :
    Alike (b.overVals d fns s x) (b.overVals d' gs s' x') := by
  obtain ⟨hkeys, hvals⟩ := alike_entries.1 hdd
  unfold Builtin.overVals
  rw [← hvals.kind_eq]
  refine alike_bind (alike_overArray hfns d.vals.kind hx hx' h) fun v v' hv hv' hvv => ?_
  rcases alike_value_cases hvv with ⟨c, c', rfl, rfl, hcc⟩ | ⟨_, _, _, _, rfl, rfl, -⟩ |
    ⟨_, _, _, _, rfl, rfl, -⟩ | ⟨hleaf, rfl⟩
  · exact alike_withVals hdd (hkeys.len_eq hd.2.1 hd'.2.1) hcc
      (hcc.len_eq_of_inBounds (inBounds_overArray hv) (inBounds_overArray hv'))
  · exact .refl _
  · exact .refl _
  · cases v' <;> first | exact .refl _ | cases hleaf

variable (hsafe : ∀ f ∈ fns, f.Safe) (hsafe' : ∀ g ∈ gs, g.Safe)
include hsafe hsafe'

/-- Values are combined by the same functions, at the same positions. -/
theorem alike_mergeSteps {a a' : Arr Value} (ha : WellFormed a) (ha' : WellFormed a')
    (h : Alike a a') (c c' : Scope) (common : List (Nat × Nat)) :
    Alike (a.revise c (mergeSteps s fns common)).toResult
      (a'.revise c' (mergeSteps s' gs common)).toResult := by
  have hleft {st : Step} (hst : st ∈ mergeSteps s fns common) (v : Value)
      (hv : WellFormed v) : WellFormed (st.run v) := wellFormed_mergeSteps hsafe hst hv
  have hright {st : Step} (hst : st ∈ mergeSteps s' gs common) (v : Value)
      (hv : WellFormed v) : WellFormed (st.run v) := wellFormed_mergeSteps hsafe' hst hv
  unfold mergeSteps at hleft hright ⊢
  refine alike_toResult (alike_revise (alike_runSteps ?_ ?_ ?_ ha ha' h))
  · exact fun _ _ => rfl
  · rintro ⟨⟨i, j⟩, k⟩ - v v' hv hv' hvv
    refine alike_bind ?_ fun _ _ _ _ => alike_settle
    rcases hfns.getElem? j with ⟨hnone, hnone'⟩ | ⟨f, g, hf, hg, hfg⟩
    · rw [hnone, hnone']
      exact alike_ok.2 hvv
    · rw [hf, hg]
      exact hfg _ _ v v' hv hv' hvv
  · exact fun e he v hv => ⟨hleft (List.mem_map_of_mem he) v hv,
      hright (List.mem_map_of_mem he) v hv⟩

theorem alike_mergeBy {l l' r r' : Dict Value} (hl : l.Paired) (hl' : l'.Paired) (h : Alike l l')
    (hr : r.Paired) (hr' : r'.Paired) (hrr : Alike r r') :
    Alike (l.mergeBy s fns r) (l'.mergeBy s' gs r') :=
  alike_mergeWith hl hl' h hr hr' hrr
    (answers_mergeSteps hsafe hl.2.2) (answers_mergeSteps hsafe' hl'.2.2)
    fun _ _ => alike_mergeSteps hfns hsafe hsafe' hl.2.2 hl'.2.2 (alike_entries.1 h).2 _ _ _

end FromLeft

/-- The functions that an operator makes of alike operands. The functions of the elements are
carried along, because a dictionary uses those of its values. -/
theorem same_withRight_and_elements (b : Builtin) {y y' : Value} (hy : WellFormed y)
    (hy' : WellFormed y') (h : Alike y y') :
    FromLeft.Same (withRight b y) (withRight b y') ∧ ∀ c c', y = .array c → y' = .array c' →
      Pointwise FromLeft.Same (withRightElements b c) (withRightElements b c') := by
  have hatom {y y' : Value} (h : Alike y y') :
      FromLeft.Same (fun s x => x.carry b.isPredicate (b.onAtoms · y) s)
        (fun s x => x.carry b.isPredicate (b.onAtoms · y') s) := fun s s' x x' hx hx' hxx =>
    alike_carry (fun u v huv => (alike_onAtoms b y huv).trans (alike_onAtoms_right b v h)) hx hx'
      hxx s s'
  induction y using Value.elements_induction generalizing y' with
  | leaf y hleaf =>
    have hatomic := isContainer_of_isLeaf hleaf
    rw [withRight_atom b hatomic, withRight_atom b (h.isContainer_eq ▸ hatomic)]
    refine ⟨hatom h, ?_⟩
    rintro c _ rfl
    cases hleaf
  | error t v _ =>
    have hatomic : y'.isContainer = false := h.isContainer_eq.symm
    rw [withRight_atom b hatomic]
    exact ⟨hatom h, by rintro _ _ ⟨⟩⟩
  | array c ih =>
    obtain ⟨c', rfl, hcc⟩ := h.exists_array
    have hc := (everywhere_array c).1 hy
    have hc' := (everywhere_array c').1 hy'
    have helements : Pointwise FromLeft.Same (withRightElements b c) (withRightElements b c') := by
      rw [withRightElements_eq_map, withRightElements_eq_map]
      refine Pointwise.map (R := fun u v => FromLeft.Same (withRight b u) (withRight b v))
        ⟨hcc.values.length_eq, fun i u v hu hv => ?_⟩ fun _ _ => id
      exact (ih u (List.mem_of_getElem? hu) (everywhere_of_at? hc hu) (everywhere_of_at? hc' hv)
        ((alike_iff_pointwise.1 hcc.values).2 i u v hu hv)).1
    refine ⟨fun s s' x x' hx hx' hxx => ?_, by rintro _ _ ⟨⟩ ⟨⟩; exact helements⟩
    show Alike (b.overArray c.kind _ s x) (b.overArray c'.kind _ s' x')
    rw [← hcc.kind_eq]
    exact alike_overArray helements c.kind hx hx' hxx
  | dict t keys vals _ ihv =>
    obtain ⟨t', d', rfl, hdd⟩ := h.exists_dict
    have hd : Dict.Paired ⟨keys, vals⟩ := wellFormed_dict.1 hy
    have hd' : d'.Paired := wellFormed_dict.1 hy'
    have hvals : WellFormed (.array vals : Value) := (everywhere_array vals).2 hd.2.2
    have hvals' : WellFormed (.array d'.vals : Value) := (everywhere_array d'.vals).2 hd'.2.2
    have helements := (ihv hvals hvals' (alike_array.2 (alike_entries.1 hdd).2)).2 _ _ rfl rfl
    have hsafe {vals : Arr Value} (hvals : WellFormed (.array vals : Value)) :
        ∀ f ∈ withRightElements b vals, f.Safe :=
      (fits_closedUnderOperators.withRight_and_elements b hvals).2 vals rfl
    refine ⟨fun s s' x x' hx hx' hxx => ?_, by rintro _ _ ⟨⟩⟩
    -- Two dictionaries are merged, and everything else meets the values.
    by_cases hdict : ∃ u l, x = .dict u l
    · obtain ⟨u, l, rfl⟩ := hdict
      obtain ⟨u', l', rfl, hll⟩ := hxx.exists_dict
      exact alike_bind (alike_mergeBy helements (hsafe hvals) (hsafe hvals') (wellFormed_dict.1 hx)
        (wellFormed_dict.1 hx') hll hd hd' hdd) fun _ _ _ _ hm => alike_ok.2 (alike_dict.2 hm)
    · have hx₁ : ∀ u l, x ≠ .dict u l := fun u l hx => hdict ⟨u, l, hx⟩
      have hx₂ : ∀ u l, x' ≠ .dict u l := by
        rintro u l rfl
        obtain ⟨t, e, rfl, -⟩ := hxx.symm.exists_dict
        exact hx₁ t e rfl
      rw [withRight_dict b s t _ hx₁, withRight_dict b s' t' _ hx₂]
      exact alike_overVals helements hd hd' hdd hx hx' hxx

theorem same_withRight (b : Builtin) {y y' : Value} (hy : WellFormed y) (hy' : WellFormed y')
    (h : Alike y y') : FromLeft.Same (withRight b y) (withRight b y') :=
  (same_withRight_and_elements b hy hy' h).1

theorem blind_withRight (b : Builtin) {y : Value} (hy : WellFormed y) : (withRight b y).Blind :=
  same_withRight b hy hy (.refl y)

/-! ## Joining and reversing -/

section Join

variable {x x' y y' : Value}

/-- What is no array is joined as the array of it alone. -/
theorem join_array_left (s : Site) (a : Arr Value) (hy : y.array? = none) :
    (Value.array a).join s y = .ok (.array (a.concat s (.singleton (s.sub 0) y))) := by
  cases y <;> first | rfl | cases hy

theorem join_array_right (s : Site) (hx : x.array? = none) (b : Arr Value) :
    x.join s (.array b) = .ok (.array ((Arr.singleton (s.sub 0) x).concat s b)) := by
  cases x <;> first | rfl | cases hx

theorem join_no_array (s : Site) (hx : x.array? = none) (hy : y.array? = none)
    (hdict : ¬∃ t l u r, x = .dict t l ∧ y = .dict u r) :
    x.join s y = .ok (.array (.ofValues s [x, y])) := by
  unfold Value.join
  split
  · exact absurd ⟨_, _, _, _, rfl, rfl⟩ hdict
  · cases hx
  · cases hx
  · cases hy
  · rfl

theorem alike_singleton (s s' : Site) (h : Alike x x') :
    Alike (Arr.singleton s x) (Arr.singleton s' x') :=
  alike_ofValues (alike_cons.2 ⟨h, .refl _⟩)

theorem Alike.array?_eq_none (h : Alike x x') (hx : x.array? = none) : x'.array? = none := by
  cases x' with
  | array a' =>
    obtain ⟨a, rfl, -⟩ := h.symm.exists_array
    cases hx
  | _ => rfl

/-- Joined dictionaries are merged: the values on the right overwrite whatever they meet. -/
theorem alike_join_dicts {t u t' u' : Site} {l r l' r' : Dict Value} (hl : l.Paired)
    (hl' : l'.Paired) (hll : Alike l l') (hr : r.Paired) (hr' : r'.Paired) (hrr : Alike r r')
    (s s' : Site) :
    Alike ((Value.dict t l).join s (.dict u r)) ((Value.dict t' l').join s' (.dict u' r')) := by
  have hfns : Pointwise FromLeft.Same (r.vals.values.map fun v _ _ => .ok v)
      (r'.vals.values.map fun v _ _ => .ok v) :=
    (alike_iff_pointwise.1 (alike_entries.1 hrr).2.values).map
      fun v v' hvv _ _ _ _ _ _ _ => alike_ok.2 hvv
  have hsafe {r : Dict Value} (hr : r.Paired) :
      ∀ f ∈ r.vals.values.map fun v _ _ => .ok v, FromLeft.Safe f :=
    safe_map (fun _ hv _ _ _ => hv) hr.2.2
  exact alike_bind (alike_mergeBy hfns (hsafe hr) (hsafe hr') hl hl' hll hr hr' hrr)
    fun _ _ _ _ hm => alike_ok.2 (alike_dict.2 hm)

variable (hx : WellFormed x) (hx' : WellFormed x') (hxx : Alike x x') (s s' : Site)
include hx hx' hxx

theorem alike_join (hy : WellFormed y) (hy' : WellFormed y') (hyy : Alike y y') :
    Alike (x.join s y) (x'.join s' y') := by
  have hsingle {u v : Value} (h : Alike u v) :
      (Arr.singleton (s.sub 0) u).len = (Arr.singleton (s'.sub 0) v).len :=
    (alike_singleton _ _ h).len_eq_of_inBounds (inBounds_pack ..) (inBounds_pack ..)
  cases hxa : x.array? with
  | some a =>
    obtain rfl : x = .array a := by cases x <;> cases hxa; rfl
    obtain ⟨a', rfl, haa⟩ := hxx.exists_array
    have hlen : a.len = a'.len :=
      haa.len_eq ((everywhere_array a).1 hx) ((everywhere_array a').1 hx')
    cases hya : y.array? with
    | some b =>
      obtain rfl : y = .array b := by cases y <;> cases hya; rfl
      obtain ⟨b', rfl, hbb⟩ := hyy.exists_array
      exact alike_ok.2 (alike_array.2 (alike_concat s s' haa hlen hbb
        (hbb.len_eq ((everywhere_array b).1 hy) ((everywhere_array b').1 hy'))))
    | none =>
      rw [join_array_left s a hya, join_array_left s' a' (hyy.array?_eq_none hya)]
      exact alike_ok.2 (alike_array.2
        (alike_concat s s' haa hlen (alike_singleton _ _ hyy) (hsingle hyy)))
  | none =>
    have hxa' := hxx.array?_eq_none hxa
    cases hya : y.array? with
    | some b =>
      obtain rfl : y = .array b := by cases y <;> cases hya; rfl
      obtain ⟨b', rfl, hbb⟩ := hyy.exists_array
      rw [join_array_right s hxa b, join_array_right s' hxa' b']
      exact alike_ok.2 (alike_array.2 (alike_concat s s' (alike_singleton _ _ hxx) (hsingle hxx)
        hbb (hbb.len_eq ((everywhere_array b).1 hy) ((everywhere_array b').1 hy'))))
    | none =>
      by_cases hdict : ∃ t l u r, x = .dict t l ∧ y = .dict u r
      · obtain ⟨t, l, u, r, rfl, rfl⟩ := hdict
        obtain ⟨t', l', rfl, hll⟩ := hxx.exists_dict
        obtain ⟨u', r', rfl, hrr⟩ := hyy.exists_dict
        exact alike_join_dicts (wellFormed_dict.1 hx) (wellFormed_dict.1 hx') hll
          (wellFormed_dict.1 hy) (wellFormed_dict.1 hy') hrr s s'
      · have hdict' : ¬∃ t l u r, x' = .dict t l ∧ y' = .dict u r := by
          rintro ⟨t, l, u, r, rfl, rfl⟩
          obtain ⟨_, _, rfl, -⟩ := hxx.symm.exists_dict
          obtain ⟨_, _, rfl, -⟩ := hyy.symm.exists_dict
          exact hdict ⟨_, _, _, _, rfl, rfl⟩
        rw [join_no_array s hxa hya hdict, join_no_array s' hxa' (hyy.array?_eq_none hya) hdict']
        exact alike_ok.2 (alike_array.2
          (alike_ofValues (alike_cons.2 ⟨hxx, alike_cons.2 ⟨hyy, .refl _⟩⟩)))

theorem alike_reverse : Alike (x.reverse s) (x'.reverse s') := by
  cases hxa : x.array? with
  | some a =>
    obtain rfl : x = .array a := by cases x <;> cases hxa; rfl
    obtain ⟨a', rfl, haa⟩ := hxx.exists_array
    have ha : WellFormed a := (everywhere_array a).1 hx
    have ha' : WellFormed a' := (everywhere_array a').1 hx'
    simp only [Value.reverse]
    rw [haa.len_eq ha ha']
    exact alike_answerArray.2 (alike_select ha ha' haa _)
  | none =>
    have hsame (s : Site) {x : Value} (hx : x.array? = none) : x.reverse s = .ok x := by
      cases x <;> first | rfl | cases hx
    rw [hsame s hxa, hsame s' (hxx.array?_eq_none hxa)]
    exact alike_ok.2 hxx

end Join

/-! ## All operators -/

section Builtins

variable {x x' y y' : Value} (b : Builtin) (s s' : Site) (hx : WellFormed x) (hx' : WellFormed x')
  (hxx : Alike x x')
include hx hx' hxx

theorem alike_monadic : Alike (b.monadic s x) (b.monadic s' x') := by
  cases b with
  | identity => exact alike_ok.2 hxx
  | right => exact alike_ok.2 hxx
  | subtract => exact alike_carry (fun _ _ => alike_negateAtom) hx hx' hxx s s'
  | not =>
    rw [Builtin.monadic_not, Builtin.monadic_not]
    exact alike_carry (fun _ _ => alike_isZeroAtom) hx hx' hxx s s'
  | join => exact alike_ok.2 (alike_array.2 (alike_singleton s s' hxx))
  | max => exact alike_reverse hx hx' hxx s s'
  | _ => exact .refl _

theorem alike_dyadic (hy : WellFormed y) (hy' : WellFormed y') (hyy : Alike y y') :
    Alike (b.dyadic s x y) (b.dyadic s' x' y') := by
  cases b with
  | identity => exact alike_ok.2 hyy
  | right => exact alike_ok.2 hyy
  | not =>
    rw [Builtin.dyadic, Builtin.dyadic, eqv_congr hxx hyy]
    exact .refl _
  | join => exact alike_join hx hx' hxx s s' hy hy' hyy
  | _ => exact same_withRight _ hy hy' hyy s s' x x' hx hx' hxx

end Builtins

end SharedArrays
