import SharedArrays.Proofs.Canonical.Arrays
import SharedArrays.Proofs.WellFormed.Placement

/-!
# The operators answer neat values

Whatever an operator answers is put together by canonical storage, with two exceptions. A reversal
selects all elements in another order. A merge into an empty dictionary hands on what it selects on
the right; but then no key is common, so that it selects everything.

## Main definitions

* `Yields` — what holds of an answer, if there is one
* `FromLeft.Neat` — a function of the left operand that answers neat values

## Main results

* `mergePlan_of_empty` — into an empty dictionary everything is appended
* `neat_mergeWith` — merging, for any way to combine values
* `neat_monadic`, `neat_dyadic` — the operators
-/

namespace SharedArrays

/-! ## Answers -/

section Yields

variable {α β : Type} {Q : α → Prop} {R : β → Prop}

/-- The answer, if there is one, has the property. -/
def Yields (Q : α → Prop) (r : Result α) : Prop := ∀ a, r = .ok a → Q a

theorem yields_ok {a : α} (h : Q a) : Yields Q (.ok a) := by
  rintro _ ⟨⟩
  exact h

theorem yields_error (e : Failure Value) : Yields Q (.error e) := nofun

theorem yields_bind {r : Result α} {f : α → Result β} (hr : Yields Q r)
    (hf : ∀ a, Q a → Yields R (f a)) : Yields R (r >>= f) := by
  intro b hb
  obtain ⟨a, ha, hfa⟩ := bind_eq_ok.1 hb
  exact hf a (hr a ha) b hfa

theorem yields_toResult {o : Outcome α} (h : Q o.slot) : Yields Q o.toResult := by
  obtain ⟨slot, failure⟩ := o
  cases failure with
  | none => exact yields_ok h
  | some e => exact yields_error e

theorem yields_allOk {rs : List (Result α)} (h : ∀ r ∈ rs, Yields Q r) :
    Yields (fun vs => ∀ v ∈ vs, Q v) (allOk rs) := by
  induction rs with
  | nil => exact yields_ok (List.forall_mem_nil _)
  | cons r rs ih =>
    obtain ⟨hr, hrs⟩ := List.forall_mem_cons.1 h
    refine yields_bind hr fun v hv => yields_bind (ih hrs) fun vs hvs => ?_
    exact yields_ok (List.forall_mem_cons.2 ⟨hv, hvs⟩)

end Yields

theorem yields_settle {v : Value} (h : v.Neat) : Yields Value.Neat v.settle := by
  cases v with
  | error s v => exact yields_error _
  | _ => exact yields_ok h

/-- What a stretch of a list that is mapped with positions holds, comes from the same stretch of the
list. -/
theorem exists_of_mem_stretch_mapIdx {α β : Type} {off len : Nat} {xs : List α} {g : Nat → α → β}
    {y : β} (h : y ∈ stretch off len (xs.mapIdx g)) : ∃ i, ∃ x ∈ stretch off len xs, y = g i x := by
  obtain ⟨k, hk⟩ := List.mem_iff_getElem?.1 h
  rw [stretch, List.getElem?_take, List.getElem?_drop, List.getElem?_mapIdx] at hk
  obtain ⟨hlt, hk⟩ := Option.ite_none_right_eq_some.1 hk
  obtain ⟨x, hx, rfl⟩ := Option.map_eq_some_iff.1 hk
  refine ⟨off + k, x, List.mem_of_getElem? (i := k) ?_, rfl⟩
  rw [stretch, List.getElem?_take, List.getElem?_drop, if_pos hlt, hx]

/-! ## Carrying -/

section Carry

variable {s : Site} {predicate : Bool} {f : Value → Result Value}

/-- Without handles inside, a value is an atom. -/
theorem neat_of_no_nodes {v : Value} (h : Everywhere (fun _ => False) v) : v.Neat := by
  refine ⟨h.mono fun _ => False.elim, deepCanonical_of_not_container ?_⟩
  cases v with
  | array a => exact ((everywhere_arr.1 ((everywhere_array a).1 h)).1).elim
  | dict s d => exact ((everywhere_dict s d).1 h).1.elim
  | _ => rfl

theorem neat_gather {kind : Kind} {vs : List Value} (h : ∀ v ∈ vs, v.Neat) :
    (Value.array (gather s kind predicate vs)).Neat := by
  have hwf : WellFormed (gather s kind predicate vs) := wellFormed_gather (wellFormed_of_neat h)
  have hall : (Value.array (.ofValues s vs)).Neat := neat_ofValues h
  unfold gather at hwf ⊢
  split
  · exact neat_empty s _
  · rename_i hne
    rw [if_neg hne] at hwf
    split
    · rename_i w hw
      rw [hw] at hwf
      refine neat_of_kind hwf ?_
      split <;> exact nofun
    · exact hall

theorem yields_withVals {d : Dict Value} {vals : Arr Value} (hk : (Value.array d.keys).Neat)
    (hv : (Value.array vals).Neat) : Yields Value.Neat (d.withVals s vals) := by
  simp only [Dict.withVals, Dict.ofArrays?]
  split
  · rename_i hlen
    exact yields_ok (neat_dict.2 ⟨⟨hlen, hk.1, hv.1⟩, hk.2, hv.2⟩)
  · exact yields_error _

theorem yields_carry (hf : ∀ v, Everywhere (fun _ => False) (f v)) {v : Value} (hv : v.Neat)
    (s : Site) : Yields Value.Neat (v.carry predicate f s) := by
  have hatom (v : Value) : Yields Value.Neat (f v) := by
    intro r hr
    have hnodes := hf v
    rw [hr] at hnodes
    exact neat_of_no_nodes hnodes
  have harray {r : Result (Arr Value)} (h : Yields Value.Neat (r >>= fun a => pure (.array a))) :
      Yields (fun a => (Value.array a).Neat) r := by
    rintro a rfl
    exact h _ rfl
  induction v using Value.nest_induction generalizing s with
  | leaf v hleaf => cases v <;> first | exact hatom _ | cases hleaf
  | error t v => exact hatom _
  | dict t keys vals _ ih =>
    have hd : Dict.Neat ⟨keys, vals⟩ := neat_dict.1 hv
    exact yields_bind (harray (ih hd.vals (s.sub 0))) fun a ha => yields_withVals hd.keys ha
  | array a ih =>
    have helements := neatElements_of_neat hv
    refine yields_bind (Q := fun b => (Value.array b).Neat) ?_ fun b hb => yields_ok hb
    cases a with
    | list w =>
      simp only [Arr.carry, carryCells_eq_mapIdx]
      refine yields_bind (yields_allOk fun r hr => ?_) fun vs hvs => yields_ok (neat_gather hvs)
      obtain ⟨i, u, hu, rfl⟩ := exists_of_mem_stretch_mapIdx hr
      exact ih u (Window.mem_of_mem_items hu) (helements.neat hu) _
    | _ w =>
      refine yields_bind (yields_allOk fun r hr => ?_) fun vs hvs => yields_ok (neat_gather hvs)
      obtain ⟨v, -, rfl⟩ := List.mem_map.1 hr
      exact hatom v

end Carry

/-! ## Merging -/

theorem filterMap_range_getElem? {α : Type} (xs : List α) :
    (List.range xs.length).filterMap (xs[·]?) = xs := by
  induction xs with
  | nil => rfl
  | cons x xs ih =>
    rw [List.length_cons, List.range_succ_eq_map, List.filterMap_cons, List.filterMap_map]
    exact congrArg (x :: ·) ih

section Merge

variable {d l r m : Dict Value} {s : Site} {threshold : Nat}

/-- Into an empty dictionary everything is appended. -/
theorem mergePlan_of_empty (hl : WellFormed l.keys) (hlen : l.keys.len = 0) (threshold : Nat)
    (r : Dict Value) :
    (l.mergePlan threshold r).fresh = List.range r.keys.values.length := by
  have hlength : (l.positions r.keys threshold).length = r.keys.values.length := by
    unfold Dict.positions
    split <;> exact List.length_map ..
  have hnone : l.positions r.keys threshold = List.replicate r.keys.values.length none := by
    refine List.eq_replicate_iff.2 ⟨hlength, fun p hp => ?_⟩
    cases p with
    | none => rfl
    | some i => exact absurd (Dict.positions_lt hl hp) (by rw [Dict.len, hlen]; omega)
  -- The numbers of the entries, from any number on.
  have hnumbers (n k : Nat) : ((List.replicate n (none : Option Nat)).zipIdx k).filterMap
      (fun e => if e.1.isNone then some e.2 else none) = List.range' k n := by
    induction n generalizing k with
    | zero => rfl
    | succ n ih =>
      rw [List.replicate_succ, List.zipIdx_cons, List.range'_succ]
      exact congrArg (k :: ·) (ih (k + 1))
  rw [List.range_eq_range', ← hnumbers, ← hnone]
  rfl

/-- All elements, selected in order, are as tight as the array itself. -/
theorem not_loose_select_all {a b : Arr Value} (ha : ¬a.Loose)
    (h : a.select s (List.range a.values.length) = .ok b) : ¬b.Loose := by
  rwa [Arr.loose_iff, kind_select h, Arr.values_select h, filterMap_range_getElem?, ← Arr.loose_iff]

theorem yields_appendFrom {fresh : List Nat} (hd : d.Neat) (hr : r.Neat)
    (hfresh : d.len = 0 → fresh = List.range r.keys.values.length) :
    Yields Dict.Neat (d.appendFrom s r fresh) := by
  intro m hm
  have hpaired : Answers Dict.Paired (d.appendFrom s r fresh) := answers_appendFrom hd.1 hr.1
  rw [hm] at hpaired
  unfold Dict.appendFrom at hm
  split at hm
  · cases hm
    exact hd
  obtain ⟨ks, hks, hm⟩ := bind_eq_ok.1 hm
  obtain ⟨vs, hvs, hm⟩ := bind_eq_ok.1 hm
  unfold Dict.append? at hm
  split at hm
  · cases hm
    have hlen : r.vals.values.length = r.keys.values.length := by
      rw [hr.1.2.1.length_values, hr.1.2.2.length_values, hr.1.1]
    have hkeys := neatElements_select (neatElements_of_neat hr.keys) hks
    have hvals := neatElements_select (neatElements_of_neat hr.vals) hvs
    refine ⟨hpaired, (neat_concat hd.keys hkeys fun hzero => ?_).2,
      (neat_concat hd.vals hvals fun hzero => ?_).2⟩
    · exact not_loose_select_all (neat_array.1 hr.keys).2 (hfresh hzero ▸ hks)
    · have hzero : d.len = 0 := hd.1.1.trans hzero
      exact not_loose_select_all (neat_array.1 hr.vals).2 (hlen ▸ hfresh hzero ▸ hvs)
  · cases hm

/-- Merging, with a way to combine values that answers as many neat values. -/
theorem neat_mergeWith {combine : List (Nat × Nat) → Arr Value → Result (Arr Value)}
    (hl : l.Neat) (hr : r.Neat)
    (hcombine : ∀ common, Yields (fun vals => (Value.array vals).Neat ∧ vals.len = l.vals.len)
      (combine common l.vals)) :
    Yields Dict.Neat (l.mergeWith s threshold combine r) := by
  refine yields_bind (Q := fun vals => (Value.array vals).Neat ∧ vals.len = l.vals.len) ?_
    fun vals ⟨hvals, hlen⟩ => ?_
  · split
    · exact yields_ok ⟨hl.vals, rfl⟩
    · exact hcombine _
  · refine yields_appendFrom ⟨⟨hl.1.1.trans hlen.symm, hl.1.2.1, hvals.1⟩, hl.2.1, hvals.2⟩ hr
      fun hzero => mergePlan_of_empty hl.1.2.1 hzero threshold r

end Merge

/-! ## Two operands -/

/-- A function of the left operand that answers neat values. -/
def FromLeft.Neat (f : FromLeft) : Prop := ∀ s x, x.Neat → Yields Value.Neat (f s x)

section FromLeft

variable {b : Builtin} {fns : List FromLeft} {s : Site}

theorem yields_pairs (hfns : ∀ f ∈ fns, FromLeft.Neat f) {a : Arr Value} (ha : a.NeatElements) :
    Yields (fun b => (Value.array b).Neat) (Builtin.overArray.pairs b fns s a) := by
  unfold Builtin.overArray.pairs
  split
  · refine yields_bind (yields_allOk fun r hr => ?_) fun vs hvs => yields_ok (neat_gather hvs)
    obtain ⟨i, hi, rfl⟩ := List.mem_mapIdx.1 hr
    have hmem := List.of_mem_zip (List.getElem_mem hi)
    exact hfns _ hmem.2 _ _ (ha.neat hmem.1)
  · exact yields_error _

theorem yields_overArray (hfns : ∀ f ∈ fns, FromLeft.Neat f) {kind : Kind} {x : Value}
    (hx : x.Neat) : Yields Value.Neat (b.overArray kind fns s x) := by
  have atom : Yields Value.Neat (do
      return .array (gather s kind b.isPredicate (← allOk (fns.mapIdx fun k f => f (s.sub k) x)))
      : Result Value) := by
    refine yields_bind (yields_allOk fun r hr => ?_) fun vs hvs => yields_ok (neat_gather hvs)
    obtain ⟨i, hi, rfl⟩ := List.mem_mapIdx.1 hr
    exact hfns _ (List.getElem_mem hi) _ _ hx
  cases x with
  | array a =>
    exact yields_bind (yields_pairs hfns (neatElements_of_neat hx)) fun c hc => yields_ok hc
  | dict t d =>
    have hd : d.Neat := neat_dict.1 hx
    exact yields_bind (yields_pairs hfns (neatElements_of_neat hd.vals)) fun c hc =>
      yields_withVals hd.keys hc
  | _ => exact atom

theorem yields_mergeBy (hfns : ∀ f ∈ fns, FromLeft.Neat f) {l r : Dict Value} (hl : l.Neat)
    (hr : r.Neat) : Yields Dict.Neat (l.mergeBy s fns r) := by
  refine neat_mergeWith hl hr fun common => yields_toResult ?_
  refine neat_revise (neatElements_of_neat hl.vals) fun st hst v hv => ?_
  obtain ⟨⟨⟨i, j⟩, k⟩, -, rfl⟩ := List.mem_map.1 hst
  refine yields_bind (Q := Value.Neat) ?_ fun w hw => yields_settle hw
  cases hj : fns[j]? with
  | none => exact yields_ok hv
  | some f => exact hfns f (List.mem_of_getElem? hj) _ _ hv

/-- The functions of the elements are carried along, because a dictionary uses those of its
values. -/
theorem neat_withRight_and_elements {y : Value} (hy : y.Neat) :
    FromLeft.Neat (withRight b y) ∧
      ∀ c, y = .array c → ∀ f ∈ withRightElements b c, FromLeft.Neat f := by
  have hcarry (y : Value) : FromLeft.Neat fun s x => x.carry b.isPredicate (b.onAtoms · y) s :=
    fun s x hx => yields_carry (everywhere_onAtoms b · y) hx s
  induction y using Value.nest_induction with
  | leaf y hleaf =>
    refine ⟨?_, fun c hc => by subst hc; cases hleaf⟩
    cases y <;> first | exact hcarry _ | cases hleaf
  | error t v => exact ⟨hcarry _, nofun⟩
  | array c ih =>
    have hc := neatElements_of_neat hy
    have helements : ∀ f ∈ withRightElements b c, FromLeft.Neat f := by
      intro f hf
      rw [withRightElements_eq_map] at hf
      obtain ⟨v, hv, rfl⟩ := List.mem_map.1 hf
      cases c with
      | list w => exact (ih v (Window.mem_of_mem_items hv) (hc.neat hv)).1
      | _ w =>
        obtain ⟨x, -, rfl⟩ := List.mem_map.1 hv
        exact hcarry _
    exact ⟨fun s x hx => yields_overArray helements hx, by rintro _ ⟨⟩; exact helements⟩
  | dict t keys vals ihk ihv =>
    have hr : Dict.Neat ⟨keys, vals⟩ := neat_dict.1 hy
    have helements := (ihv hr.vals).2 vals rfl
    refine ⟨fun s x hx => ?_, nofun⟩
    have hover : ∀ x, x.Neat →
        Yields Value.Neat (b.overVals ⟨keys, vals⟩ (withRightElements b vals) s x) := fun x hx => by
      refine yields_bind (yields_overArray helements hx) fun a ha => ?_
      split
      · exact yields_withVals hr.keys ha
      · exact yields_error _
    cases x with
    | dict u l =>
      exact yields_bind (yields_mergeBy helements (neat_dict.1 hx) hr) fun d hd =>
        yields_ok (neat_dict.2 hd)
    | _ => exact hover _ hx

end FromLeft

/-! ## The operators -/

section Operators

variable {s : Site} {x y : Value}

theorem neat_singleton (hx : x.Neat) : (Value.array (.singleton s x)).Neat :=
  neat_ofValues fun _ hv => List.mem_singleton.1 hv ▸ hx

/-- A reversed list is uniform only if the list is. -/
theorem yields_reverse (hx : x.Neat) : Yields Value.Neat (x.reverse s) := by
  cases x with
  | array a =>
    refine yields_bind (Q := fun b => (Value.array b).Neat) (fun b hb => ?_)
      fun b hb => yields_ok hb
    obtain ⟨helements, htight⟩ := neat_array.1 hx
    refine neat_array.2 ⟨neatElements_select helements hb, ?_⟩
    have hvalues : b.values = a.values.reverse := by
      rw [Arr.values_select hb, List.filterMap_reverse, ← helements.1.length_values,
        filterMap_range_getElem?]
    rw [Arr.loose_iff, kind_select hb, hvalues]
    rintro ⟨hkind, hne, huniform⟩
    simp only [List.mem_reverse] at huniform
    refine htight (Arr.loose_iff.2 ⟨hkind, ?_, huniform⟩)
    exact fun hnil => hne (by rw [hnil, List.reverse_nil])
  | _ => exact yields_ok hx

theorem yields_join (hx : x.Neat) (hy : y.Neat) : Yields Value.Neat (x.join s y) := by
  have hconcat {t : Site} {a b : Arr Value} (ha : (Value.array a).Neat)
      (hb : (Value.array b).Neat) : (Value.array (a.concat t b)).Neat :=
    neat_concat ha (neatElements_of_neat hb) fun _ => (neat_array.1 hb).2
  unfold Value.join
  split
  · rename_i u l t r
    have hr : r.Neat := neat_dict.1 hy
    refine yields_bind (yields_mergeBy (fun f hf => ?_) (neat_dict.1 hx) hr) fun d hd =>
      yields_ok (neat_dict.2 hd)
    obtain ⟨v, hv, rfl⟩ := List.mem_map.1 hf
    exact fun s x _ => yields_ok ((neatElements_of_neat hr.vals).neat hv)
  · exact yields_ok (hconcat hx hy)
  · exact yields_ok (hconcat hx (neat_singleton hy))
  · exact yields_ok (hconcat (neat_singleton hx) hy)
  · refine yields_ok (neat_ofValues (List.forall_mem_cons.2 ⟨hx, fun v hv => ?_⟩))
    exact List.mem_singleton.1 hv ▸ hy

theorem neat_monadic (b : Builtin) (hx : x.Neat) : Yields Value.Neat (b.monadic s x) := by
  unfold Builtin.monadic
  split
  · exact yields_ok hx
  · exact yields_ok hx
  · exact yields_carry everywhere_negateAtom hx s
  · change Yields Value.Neat (Builtin.not.monadic s x)
    rw [Builtin.monadic_not]
    exact yields_carry everywhere_isZeroAtom hx s
  · exact yields_ok (neat_singleton hx)
  · exact yields_reverse hx
  · exact yields_error _

theorem neat_dyadic (b : Builtin) (hx : x.Neat) (hy : y.Neat) :
    Yields Value.Neat (b.dyadic s x y) := by
  unfold Builtin.dyadic
  split
  · exact yields_ok hy
  · exact yields_ok hy
  · exact yields_ok (neat_int _)
  · exact yields_join hx hy
  · exact (neat_withRight_and_elements hy).1 s x hx

end Operators

end SharedArrays
