import SharedArrays.Proofs.Alike.Operators

/-!
# Pervasive operators

Arithmetic, comparison, the smaller and the larger operand pervade containers. Two arrays meet
element by element, an array and an atom meet with the atom held fixed, and a dictionary answers for
its values under the keys it has. What happens to the elements is again the operator, so that the
law holds at every depth. Neither the variants of the operands nor the variant of the answer have a
part in it. Only the answers of a predicate on atoms are always stored as truth values.

## Main definitions

* `Builtin.isPervasive` — the operators of which this is true
* `Collects`, `UnderKeys` — the answer for an array, and for a dictionary
* `Builtin.PervadesDyadic`, `Builtin.PervadesMonadic` — the laws

## Main results

* `collects_pairs`, `collects_under`, `collects_over` — arrays, element by element
* `underKeys_carry`, `underKeys_pairs`, `underKeys_over` — dictionaries, by way of the arrays of
  their values
* `kind_withRight` — comparisons of atoms are stored as truth values
* `pervasive_pointwise` — the laws hold
-/

namespace SharedArrays

/-- The operators with two operands that are carried through containers. -/
def Builtin.isPervasive : Builtin → Bool
  | .add | .subtract | .multiply | .divide | .min | .max | .equal | .less | .more => true
  | _ => false

/-- The answer `r` for an array collects the answers for the elements. Those of a predicate are
stored as truth values, if that is what they are. -/
structure Collects (predicate : Bool) (r : Result Value) (each : List (Result Value)) : Prop where
  succeeds : (∃ v, r = .ok v) ↔ ∀ e ∈ each, ∃ w, e = .ok w
  elements : ∀ v, r = .ok v → ∃ c, v = .array c ∧ c.len = each.length ∧
    Pointwise (fun u e => ∃ w, e = .ok w ∧ u.eqv w = true) c.values each
  truths : predicate = true → each ≠ [] → (∀ e ∈ each, ∃ q, e = .ok (.ofBool q)) →
    ∀ c, r = .ok (.array c) → c.kind = .bools

/-- The answer `r` for the dictionary `d` is what `r'` answers for its values, under its keys. -/
structure UnderKeys (d : Dict Value) (r r' : Result Value) : Prop where
  succeeds : (∃ v, r = .ok v) ↔ ∃ v, r' = .ok v
  values : ∀ v, r = .ok v → ∃ u vals c, v = .dict u ⟨d.keys, vals⟩ ∧ r' = .ok (.array c) ∧
    vals.eqv c = true

/-- An atom, or an array of atoms. -/
def Value.IsFlat : Value → Prop
  | .array a => ∀ v ∈ a.values, v.isContainer = false
  | v => v.isContainer = false

/-- How an operator with two operands pervades them. The answers for the elements may be made
anywhere, as the sites `t` say. -/
structure Builtin.PervadesDyadic (b : Builtin) : Prop where
  /-- Arrays of different lengths do not meet. -/
  lengths (s : Site) {a c : Arr Value} : WellFormed a → WellFormed c → a.len ≠ c.len →
    b.dyadic s (.array a) (.array c) = .error (.length (b.symbol ++ " operands") a.len c.len)
  arrays (s : Site) (t : Nat → Site) {a c : Arr Value} : WellFormed a → WellFormed c →
    a.len = c.len → Collects b.isPredicate (b.dyadic s (.array a) (.array c))
      ((a.values.zip c.values).mapIdx fun i p => b.dyadic (t i) p.1 p.2)
  arrayLeft (s : Site) (t : Nat → Site) {a : Arr Value} {y : Value} : WellFormed a →
    y.isContainer = false → Collects b.isPredicate (b.dyadic s (.array a) y)
      (a.values.mapIdx fun i x => b.dyadic (t i) x y)
  arrayRight (s : Site) (t : Nat → Site) {x : Value} {c : Arr Value} : WellFormed x →
    WellFormed c → x.isContainer = false → Collects b.isPredicate (b.dyadic s x (.array c))
      (c.values.mapIdx fun i y => b.dyadic (t i) x y)
  dictLeft (s t u : Site) {d : Dict Value} {y : Value} : d.Paired → WellFormed y →
    (∀ v e, y ≠ .dict v e) → UnderKeys d (b.dyadic s (.dict u d) y) (b.dyadic t (.array d.vals) y)
  dictRight (s t u : Site) {x : Value} {d : Dict Value} : WellFormed x → d.Paired →
    (∀ v e, x ≠ .dict v e) → UnderKeys d (b.dyadic s x (.dict u d)) (b.dyadic t x (.array d.vals))
  /-- What a predicate answers for atoms is stored as truth values. -/
  truths (s : Site) {x y : Value} {c : Arr Value} : WellFormed x → WellFormed y →
    b.isPredicate = true → x.IsFlat → y.IsFlat → b.dyadic s x y = .ok (.array c) →
      c.values ≠ [] → c.kind = .bools

/-- How an operator with one operand pervades it. -/
structure Builtin.PervadesMonadic (b : Builtin) : Prop where
  array (s : Site) (t : Nat → Site) {a : Arr Value} : WellFormed a →
    Collects b.isPredicate (b.monadic s (.array a))
      (a.values.mapIdx fun i x => b.monadic (t i) x)
  dict (s t u : Site) {d : Dict Value} : d.Paired →
    UnderKeys d (b.monadic s (.dict u d)) (b.monadic t (.array d.vals))
  truths (s : Site) {x : Value} {c : Arr Value} : WellFormed x → b.isPredicate = true → x.IsFlat →
    b.monadic s x = .ok (.array c) → c.values ≠ [] → c.kind = .bools

/-! ## Collecting answers -/

section Collect

variable {s : Site} {kind : Kind} {predicate : Bool}

theorem exists_allOk_iff {α : Type} {rs : List (Result α)} :
    (∃ vs, allOk rs = .ok vs) ↔ ∀ r ∈ rs, ∃ v, r = .ok v := by
  constructor
  · rintro ⟨vs, hvs⟩ r hr
    rw [allOk_eq_ok.1 hvs] at hr
    obtain ⟨v, -, rfl⟩ := List.mem_map.1 hr
    exact ⟨v, rfl⟩
  · intro h
    induction rs with
    | nil => exact ⟨[], rfl⟩
    | cons r rs ih =>
      obtain ⟨⟨v, rfl⟩, hrs⟩ := List.forall_mem_cons.1 h
      obtain ⟨vs, hvs⟩ := ih hrs
      exact ⟨v :: vs, allOk_eq_ok.2 (by rw [allOk_eq_ok.1 hvs, List.map_cons])⟩

theorem Alike.exists_ok_iff {α : Type} [HasBare α] {r r' : Result α} (h : Alike r r') :
    (∃ v, r = .ok v) ↔ ∃ v, r' = .ok v := by
  rcases alike_result_cases h with ⟨v, v', rfl, rfl, -⟩ | ⟨e, e', rfl, rfl, -⟩
  · exact ⟨fun _ => ⟨v', rfl⟩, fun _ => ⟨v, rfl⟩⟩
  · exact ⟨nofun, nofun⟩

/-- Of alike answers, all go through on both sides or on none. -/
theorem forall_ok_iff_of_pointwise {rs each : List (Result Value)} (h : Pointwise Alike rs each) :
    (∀ r ∈ rs, ∃ v, r = .ok v) ↔ ∀ e ∈ each, ∃ w, e = .ok w := by
  constructor
  · intro hrs e he
    obtain ⟨i, hi⟩ := List.mem_iff_getElem?.1 he
    have hflip : Pointwise Alike each rs := h.flip fun _ _ _ hre => Alike.symm hre
    obtain ⟨r, hr, hre⟩ := hflip.exists_right hi
    exact hre.exists_ok_iff.2 (hrs r (List.mem_of_getElem? hr))
  · intro heach r hr
    obtain ⟨i, hi⟩ := List.mem_iff_getElem?.1 hr
    obtain ⟨e, he, hre⟩ := h.exists_right hi
    exact hre.exists_ok_iff.2 (heach e (List.mem_of_getElem? he))

theorem atomKind_ofBool (q : Bool) : (Value.ofBool q).atomKind = .ints := rfl

/-- Truth values that a predicate answers are stored as such. -/
theorem kind_gather_truths {vs : List Value} (hne : vs ≠ []) (h : ∀ v ∈ vs, ∃ q, v = .ofBool q) :
    (gather s kind true vs).kind = .bools := by
  have hkind : tightKind vs = .ints := by
    cases vs with
    | nil => exact absurd rfl hne
    | cons v vs =>
      obtain ⟨⟨q, rfl⟩, hvs⟩ := List.forall_mem_cons.1 h
      have hall : vs.all (·.atomKind == .ints) = true := by
        refine List.all_eq_true.2 fun v hv => ?_
        obtain ⟨q, rfl⟩ := hvs v hv
        rfl
      rw [tightKind, atomKind_ofBool, if_pos hall]
  obtain ⟨ns, hpack⟩ : ∃ ns,
      Arr.ofValues s vs = .ints (.ofList s ns { zeroOne := ns.all isTruth }) := by
    rw [Arr.ofValues, hkind]
    exact ⟨_, rfl⟩
  have hvalues : ns.map Value.int = vs := by
    have hread := Arr.values_ofValues s vs
    rw [hpack] at hread
    simpa only [Arr.values, Window.items_ofList] using hread
  have htruth : ns.all isTruth = true := by
    refine List.all_eq_true.2 fun n hn => ?_
    obtain ⟨q, hq⟩ := h (.int n) (hvalues ▸ List.mem_map_of_mem hn)
    cases hq
    cases q <;> rfl
  unfold gather
  rw [if_neg (by simpa using hne), hpack]
  simp only [Window.items_ofList, Bool.true_and, htruth, if_true]
  rfl

/-- What is gathered from answers collects all answers that are alike. -/
theorem collects_gather {rs each : List (Result Value)} (h : Pointwise Alike rs each) :
    Collects predicate (do return .array (gather s kind predicate (← allOk rs))) each where
  succeeds := by
    rw [← forall_ok_iff_of_pointwise h, ← exists_allOk_iff]
    constructor
    · rintro ⟨v, hv⟩
      obtain ⟨vs, hvs, -⟩ := bind_eq_ok.1 hv
      exact ⟨vs, hvs⟩
    · rintro ⟨vs, hvs⟩
      exact ⟨_, bind_eq_ok.2 ⟨vs, hvs, rfl⟩⟩
  elements v hv := by
    obtain ⟨vs, hvs, hv⟩ := bind_eq_ok.1 hv
    cases hv
    have hrs := allOk_eq_ok.1 hvs
    have hlen : vs.length = each.length := by rw [← h.1, hrs, List.length_map]
    refine ⟨_, rfl, ?_, ?_⟩
    · rw [← Arr.length_values (inBounds_gather ..), values_gather, hlen]
    · rw [values_gather]
      refine ⟨hlen, fun i u e hu he => ?_⟩
      have hr : rs[i]? = some (.ok u) := by rw [hrs, List.getElem?_map, hu]; rfl
      have hue : Alike (.ok u) e := h.2 i _ _ hr he
      rcases alike_result_cases hue with ⟨_, w, hu, rfl, huw⟩ | ⟨_, _, hu, -⟩
      · cases hu
        exact ⟨w, rfl, huw.eqv⟩
      · cases hu
  truths := by
    rintro rfl hne htruths c hc
    obtain ⟨vs, hvs, hc⟩ := bind_eq_ok.1 hc
    cases hc
    have hrs := allOk_eq_ok.1 hvs
    refine kind_gather_truths ?_ fun v hv => ?_
    · rintro rfl
      exact hne (List.eq_nil_of_length_eq_zero (by rw [← h.1, hrs]; rfl))
    · -- What is alike to an atom is that atom.
      obtain ⟨i, hi⟩ := List.mem_iff_getElem?.1 hv
      have hr : rs[i]? = some (.ok v) := by rw [hrs, List.getElem?_map, hi]; rfl
      obtain ⟨e, he, hve⟩ := h.exists_right hr
      obtain ⟨q, rfl⟩ := htruths e (List.mem_of_getElem? he)
      exact ⟨q, (alike_ok.1 hve).symm.eq_of_isLeaf rfl⟩

end Collect

/-! ## Arrays -/

section Arrays

variable {b : Builtin} {s : Site} {t : Nat → Site}

/-- A function of atoms, carried through an array. -/
theorem collects_carry {predicate : Bool} {f : Value → Result Value}
    (hf : ∀ u v, Alike u v → Alike (f u) (f v)) {a : Arr Value} (ha : WellFormed a) :
    Collects predicate ((Value.array a).carry predicate f s)
      (a.values.mapIdx fun i x => x.carry predicate f (t i)) := by
  obtain ⟨t', ht'⟩ := Arr.carry_eq predicate f s a
  have hcarry : (Value.array a).carry predicate f s = do
      return .array (gather s a.kind predicate
        (← allOk (a.values.mapIdx fun i x => x.carry predicate f (t' i)))) := by
    show (do return .array (← a.carry predicate f s) : Result Value) = _
    rw [ht']
    cases allOk _ <;> rfl
  rw [hcarry]
  -- The elements are carried at other sites than `t` says, which makes no difference.
  refine collects_gather (pointwise_mapIdx rfl fun i u v hu hv => ?_)
  cases hu.symm.trans hv
  have hwf := everywhere_of_at? ha hu
  exact alike_carry hf hwf hwf (.refl u) _ _

/-- An array meets an atom. -/
theorem collects_under {a : Arr Value} (ha : WellFormed a) {y : Value}
    (hatom : y.isContainer = false) :
    Collects b.isPredicate (withRight b y s (.array a))
      (a.values.mapIdx fun i x => withRight b y (t i) x) := by
  rw [withRight_atom b hatom]
  exact collects_carry (fun _ _ => alike_onAtoms b y) ha

theorem getElem?_withRightElements {c : Arr Value} {i : Nat} {f : FromLeft} :
    (withRightElements b c)[i]? = some f ↔ ∃ y, c.values[i]? = some y ∧ withRight b y = f := by
  rw [withRightElements_eq_map, List.getElem?_map, Option.map_eq_some_iff]

theorem length_withRightElements {c : Arr Value} (hc : WellFormed c) :
    (withRightElements b c).length = c.len := by
  rw [withRightElements_eq_map, List.length_map, hc.length_values]

/-- An atom meets every element of an array. -/
theorem collects_over {x : Value} (hx : WellFormed x) (hatom : x.isContainer = false)
    {c : Arr Value} (hc : WellFormed c) :
    Collects b.isPredicate (withRight b (.array c) s x)
      (c.values.mapIdx fun i y => withRight b y (t i) x) := by
  show Collects b.isPredicate (b.overArray c.kind (withRightElements b c) s x) _
  rw [overArray_atom b c.kind _ s hatom]
  -- The function that stands at a place is made of the element there.
  refine collects_gather (pointwise_mapIdx ?_ fun i f y hf hy => ?_)
  · rw [withRightElements_eq_map, List.length_map]
  · obtain ⟨y', hy', rfl⟩ := getElem?_withRightElements.1 hf
    cases hy.symm.trans hy'
    exact blind_withRight b (everywhere_of_at? hc hy) _ _ x x hx hx (.refl x)

/-- Two arrays meet in pairs. -/
theorem collects_pairs {a c : Arr Value} (ha : WellFormed a) (hc : WellFormed c)
    (hlen : a.len = c.len) :
    Collects b.isPredicate (withRight b (.array c) s (.array a))
      ((a.values.zip c.values).mapIdx fun i p => withRight b p.2 (t i) p.1) := by
  have hpairs : withRight b (.array c) s (.array a) = do
      return .array (gather s a.kind b.isPredicate (← allOk
        ((a.values.zip (withRightElements b c)).mapIdx fun k p => p.2 (s.sub k) p.1))) := by
    show (do return .array (← Builtin.overArray.pairs b (withRightElements b c) s a) :
      Result Value) = _
    unfold Builtin.overArray.pairs
    rw [if_pos (hlen.trans (length_withRightElements hc).symm)]
    cases allOk _ <;> rfl
  rw [hpairs]
  refine collects_gather (pointwise_mapIdx ?_ ?_)
  · rw [withRightElements_eq_map, List.length_zip, List.length_zip, List.length_map]
  · rintro i ⟨x, f⟩ ⟨x', y⟩ hxf hxy
    obtain ⟨hx, hf⟩ := List.getElem?_zip_eq_some.1 hxf
    obtain ⟨hx', hy⟩ := List.getElem?_zip_eq_some.1 hxy
    obtain ⟨y', hy', rfl⟩ := getElem?_withRightElements.1 hf
    cases hx.symm.trans hx'
    cases hy.symm.trans hy'
    have hwf := everywhere_of_at? ha hx
    exact blind_withRight b (everywhere_of_at? hc hy) _ _ x x hwf hwf (.refl x)

theorem withRight_of_len_ne {a c : Arr Value} (hc : WellFormed c) (hlen : a.len ≠ c.len) :
    withRight b (.array c) s (.array a) =
      .error (.length (b.symbol ++ " operands") a.len c.len) := by
  have hpairs : Builtin.overArray.pairs b (withRightElements b c) s a =
      .error (.length (b.symbol ++ " operands") a.len c.len) := by
    unfold Builtin.overArray.pairs
    rw [length_withRightElements hc, if_neg hlen]
  show (do return .array (← Builtin.overArray.pairs b (withRightElements b c) s a) :
    Result Value) = _
  rw [hpairs]
  rfl

/-- What is no dictionary answers with an array, as long as those on both sides. -/
theorem exists_array_of_withRight {x v : Value} {c : Arr Value} (hx : WellFormed x)
    (hdict : ∀ u l, x ≠ .dict u l) (hc : WellFormed c)
    (h : withRight b (.array c) s x = .ok v) :
    ∃ e, v = .array e ∧ e.len = c.len ∧ ∀ a, x = .array a → e.len = a.len := by
  by_cases hatom : x.isContainer = true
  · cases x with
    | array a =>
      have hlen : a.len = c.len := Decidable.byContradiction fun hne => by
        rw [withRight_of_len_ne hc hne] at h
        cases h
      have ha : WellFormed a := (everywhere_array a).1 hx
      obtain ⟨e, rfl, he, -⟩ := (collects_pairs (t := fun _ => s) ha hc hlen).elements v h
      have he : e.len = a.len := by
        rw [he, List.length_mapIdx, List.length_zip, ha.length_values, hc.length_values, hlen,
          Nat.min_self]
      refine ⟨e, rfl, he.trans hlen, ?_⟩
      rintro _ ⟨⟩
      exact he
    | dict u l => exact absurd rfl (hdict u l)
    | _ => cases hatom
  · have hatom : x.isContainer = false := by simpa using hatom
    obtain ⟨e, rfl, he, -⟩ := (collects_over (t := fun _ => s) hx hatom hc).elements v h
    refine ⟨e, rfl, ?_, ?_⟩
    · rw [he, List.length_mapIdx, hc.length_values]
    · rintro a rfl
      cases hatom

end Arrays

/-! ## Dictionaries -/

section Dict

variable {b : Builtin} {s t u : Site} {d : Dict Value}

/-- The values answer as an array, and go under the keys of the dictionary again. -/
theorem underKeys_of_answer (hd : d.Paired) {q : Result (Arr Value)} {r' : Result Value}
    (hlen : ∀ c, q = .ok c → c.len = d.vals.len)
    (h : Alike (do return .array (← q) : Result Value) r') :
    UnderKeys d (q >>= d.withVals s) r' := by
  cases q with
  | error e =>
    -- A failure of the values is the failure of the dictionary.
    obtain ⟨e', rfl⟩ : ∃ e', r' = .error e' := by
      rcases alike_result_cases h with ⟨_, _, hq, -⟩ | ⟨_, e', -, rfl, -⟩
      · cases hq
      · exact ⟨e', rfl⟩
    exact ⟨⟨nofun, nofun⟩, nofun⟩
  | ok c =>
    obtain ⟨c', rfl, hcc⟩ : ∃ c', r' = .ok (.array c') ∧ Alike c c' := by
      rcases alike_result_cases h with ⟨v, v', hq, rfl, hvv⟩ | ⟨_, _, hq, -⟩
      · cases hq
        obtain ⟨c', rfl, hcc⟩ := hvv.exists_array
        exact ⟨c', rfl, hcc⟩
      · cases hq
    have hvals : d.withVals s c = .ok (.dict s ⟨d.keys, c⟩) := by
      rw [Dict.withVals, Dict.ofArrays?, if_pos (hd.1.trans (hlen c rfl).symm)]
      rfl
    show UnderKeys d (d.withVals s c) _
    rw [hvals]
    refine ⟨⟨fun _ => ⟨_, rfl⟩, fun _ => ⟨_, rfl⟩⟩, ?_⟩
    rintro _ ⟨⟩
    exact ⟨s, c, c', rfl, rfl, arrEqv_of_values hcc.values⟩

theorem underKeys_carry {predicate : Bool} {f : Value → Result Value}
    (hf : ∀ u v, Alike u v → Alike (f u) (f v)) (hd : d.Paired) :
    UnderKeys d ((Value.dict u d).carry predicate f s)
      ((Value.array d.vals).carry predicate f t) := by
  have hvals : WellFormed (.array d.vals : Value) := (everywhere_array d.vals).2 hd.2.2
  have hsame : Alike ((Value.array d.vals).carry predicate f (s.sub 0))
      ((Value.array d.vals).carry predicate f t) := alike_carry hf hvals hvals (.refl _) _ _
  refine underKeys_of_answer (s := s) hd (fun c hc => ?_) hsame
  have hanswer : (Value.array d.vals).carry predicate f (s.sub 0) = .ok (.array c) := by
    rw [Value.carry, hc]
    rfl
  obtain ⟨_, ⟨⟩, hlen, -⟩ := (collects_carry (t := fun _ => s) hf hd.2.2).elements _ hanswer
  rw [hlen, List.length_mapIdx, hd.2.2.length_values]

/-- A dictionary on the left, and an array on the right. -/
theorem underKeys_pairs (hd : d.Paired) {c : Arr Value} (hc : WellFormed c) :
    UnderKeys d (withRight b (.array c) s (.dict u d))
      (withRight b (.array c) t (.array d.vals)) := by
  have hvals : WellFormed (.array d.vals : Value) := (everywhere_array d.vals).2 hd.2.2
  have hsame : Alike (withRight b (.array c) (s.sub 0) (.array d.vals))
      (withRight b (.array c) t (.array d.vals)) :=
    blind_withRight b ((everywhere_array c).2 hc) _ _ _ _ hvals hvals (.refl _)
  let q := Builtin.overArray.pairs b (withRightElements b c) (s.sub 0) d.vals
  refine underKeys_of_answer (s := s) (q := q) hd (fun e he => ?_) hsame
  have hanswer : withRight b (.array c) (s.sub 0) (.array d.vals) = .ok (.array e) :=
    bind_eq_ok.2 ⟨e, he, rfl⟩
  have hdict : ∀ u l, Value.array d.vals ≠ .dict u l := fun u l h => by cases h
  obtain ⟨_, ⟨⟩, -, hlen⟩ := exists_array_of_withRight hvals hdict hc hanswer
  exact hlen _ rfl

/-- A dictionary on the right. -/
theorem underKeys_over (hd : d.Paired) {x : Value} (hx : WellFormed x)
    (hdict : ∀ u l, x ≠ .dict u l) :
    UnderKeys d (withRight b (.dict u d) s x) (withRight b (.array d.vals) t x) := by
  have hvals : WellFormed (.array d.vals : Value) := (everywhere_array d.vals).2 hd.2.2
  have hsame : Alike (withRight b (.array d.vals) (s.sub 0) x) (withRight b (.array d.vals) t x) :=
    blind_withRight b hvals _ _ x x hx hx (.refl x)
  rw [withRight_dict b s u d hdict, Builtin.overVals]
  show UnderKeys d (withRight b (.array d.vals) (s.sub 0) x >>= _) _
  -- The answer of the values is an array, so that the last case of the operator is never met.
  cases hanswer : withRight b (.array d.vals) (s.sub 0) x with
  | error e =>
    rw [hanswer] at hsame
    exact underKeys_of_answer (s := s) (q := .error e) hd nofun hsame
  | ok v =>
    obtain ⟨c, rfl, hlen, -⟩ := exists_array_of_withRight hx hdict hd.2.2 hanswer
    rw [hanswer] at hsame
    exact underKeys_of_answer (s := s) (q := .ok c) hd (by rintro _ ⟨⟩; exact hlen) hsame

end Dict

/-! ## Truth values -/

section Truths

variable {b : Builtin} {s : Site} {x y : Value} {c : Arr Value}

theorem withRight_atoms (hx : x.isContainer = false) (hy : y.isContainer = false) :
    withRight b y s x = b.onAtoms x y := by
  rw [withRight_atom b hy]
  exact carry_atom _ _ s hx

theorem comparison_of_isPredicate (hb : b.isPervasive = true) (hpredicate : b.isPredicate = true) :
    b = .equal ∨ b = .less ∨ b = .more := by
  revert hb hpredicate
  cases b <;> decide

/-- Comparisons answer truth values. -/
theorem exists_ofBool_of_onAtoms (hb : b.isPervasive = true) (hpredicate : b.isPredicate = true)
    {w : Value} (h : b.onAtoms x y = .ok w) : ∃ q, w = .ofBool q := by
  have hcomparison := comparison_of_isPredicate hb hpredicate
  have hordering (o : Ordering) : ∃ q, b.ofOrdering o = .ofBool q := ⟨_, rfl⟩
  have hints (m n : Int64) : ∃ q, b.onInts m n = .ofBool q := by
    rcases hcomparison with rfl | rfl | rfl <;> exact hordering _
  have hfloats (m n : Double) : ∃ q, b.onFloats m n = .ofBool q := by
    have horder : ∃ q, (m.order? n).elim (.ofBool false) b.ofOrdering = .ofBool q := by
      cases m.order? n with
      | none => exact ⟨false, rfl⟩
      | some o => exact hordering o
    rcases hcomparison with rfl | rfl | rfl <;> exact horder
  have hstrings {t u : String} (h : b.onStrings t u = .ok w) : ∃ q, w = .ofBool q := by
    rcases hcomparison with rfl | rfl | rfl <;> (cases h; exact hordering _)
  unfold Builtin.onAtoms at h
  split at h
  · cases h
    exact hints _ _
  · cases h
    exact hfloats _ _
  · cases h
    exact hfloats _ _
  · cases h
    exact hfloats _ _
  · exact hstrings h
  all_goals cases h

theorem isFlat_cases (h : x.IsFlat) :
    (∃ a, x = .array a ∧ ∀ v ∈ a.values, v.isContainer = false) ∨ x.isContainer = false := by
  cases x with
  | array a => exact .inl ⟨a, rfl, h⟩
  | _ => exact .inr h

theorem Collects.kind_eq_bools {r : Result Value} {each : List (Result Value)}
    (h : Collects true r each) (htruths : ∀ e ∈ each, ∀ w, e = .ok w → ∃ q, w = .ofBool q)
    (hr : r = .ok (.array c)) (hne : c.values ≠ []) : c.kind = .bools := by
  obtain ⟨_, ⟨⟩, -, hlen, -⟩ := h.elements _ hr
  refine h.truths rfl ?_ (fun e he => ?_) c hr
  · rintro rfl
    exact hne (List.eq_nil_of_length_eq_zero hlen)
  · obtain ⟨w, rfl⟩ := h.succeeds.1 ⟨_, hr⟩ e he
    obtain ⟨q, rfl⟩ := htruths _ he w rfl
    exact ⟨q, rfl⟩

/-- The non-empty answer of a comparison of atoms is stored as truth values. -/
theorem kind_withRight (hb : b.isPervasive = true) (hpredicate : b.isPredicate = true)
    (hx : WellFormed x) (hy : WellFormed y) (hxflat : x.IsFlat) (hyflat : y.IsFlat)
    (h : withRight b y s x = .ok (.array c)) (hne : c.values ≠ []) : c.kind = .bools := by
  have helement {u v w : Value} (hu : u.isContainer = false) (hv : v.isContainer = false)
      (h : withRight b v s u = .ok w) : ∃ q, w = .ofBool q :=
    exists_ofBool_of_onAtoms hb hpredicate ((withRight_atoms hu hv).symm.trans h)
  have hkind {each : List (Result Value)}
      (hcollects : Collects b.isPredicate (withRight b y s x) each)
      (htruths : ∀ e ∈ each, ∀ w, e = .ok w → ∃ q, w = .ofBool q) : c.kind = .bools := by
    rw [hpredicate] at hcollects
    exact hcollects.kind_eq_bools htruths h hne
  -- In each way to meet, the elements meet as atoms.
  rcases isFlat_cases hxflat with ⟨a, rfl, hatoms⟩ | hatom
  · have ha : WellFormed a := (everywhere_array a).1 hx
    rcases isFlat_cases hyflat with ⟨e, rfl, hatoms'⟩ | hatom'
    · have he : WellFormed e := (everywhere_array e).1 hy
      have hlen : a.len = e.len := Decidable.byContradiction fun hne => by
        rw [withRight_of_len_ne he hne] at h
        cases h
      refine hkind (collects_pairs (t := fun _ => s) ha he hlen) fun r hr w hw => ?_
      obtain ⟨i, hi, rfl⟩ := List.mem_mapIdx.1 hr
      have hmem := List.of_mem_zip (List.getElem_mem hi)
      exact helement (hatoms _ hmem.1) (hatoms' _ hmem.2) hw
    · refine hkind (collects_under (t := fun _ => s) ha hatom') fun r hr w hw => ?_
      obtain ⟨i, hi, rfl⟩ := List.mem_mapIdx.1 hr
      exact helement (hatoms _ (List.getElem_mem hi)) hatom' hw
  · rcases isFlat_cases hyflat with ⟨e, rfl, hatoms'⟩ | hatom'
    · have he : WellFormed e := (everywhere_array e).1 hy
      refine hkind (collects_over (t := fun _ => s) hx hatom he) fun r hr w hw => ?_
      obtain ⟨i, hi, rfl⟩ := List.mem_mapIdx.1 hr
      exact helement hatom (hatoms' _ (List.getElem_mem hi)) hw
    · -- Two atoms do not answer an array.
      obtain ⟨q, hq⟩ := helement hatom hatom' h
      cases hq

end Truths

/-! ## The laws -/

section Laws

variable {b : Builtin}

theorem dyadic_of_isPervasive (hb : b.isPervasive = true) (s : Site) (x y : Value) :
    b.dyadic s x y = withRight b y s x := by
  cases b <;> first | rfl | cases hb

theorem pervadesDyadic (hb : b.isPervasive = true) : b.PervadesDyadic := by
  -- The laws are those of the functions that the operator makes of its right operand.
  have hdyadic := dyadic_of_isPervasive hb
  constructor
  case lengths =>
    intro s a c _ hc hlen
    rw [hdyadic]
    exact withRight_of_len_ne hc hlen
  case arrays =>
    intro s t a c ha hc hlen
    simp only [hdyadic]
    exact collects_pairs ha hc hlen
  case arrayLeft =>
    intro s t a y ha hatom
    simp only [hdyadic]
    exact collects_under ha hatom
  case arrayRight =>
    intro s t x c hx hc hatom
    simp only [hdyadic]
    exact collects_over hx hatom hc
  case dictLeft =>
    intro s t u d y hd hy hdict
    rw [hdyadic, hdyadic]
    by_cases hatom : y.isContainer = true
    · cases y with
      | array c => exact underKeys_pairs hd ((everywhere_array c).1 hy)
      | dict v e => exact absurd rfl (hdict v e)
      | _ => cases hatom
    · rw [withRight_atom b (by simpa using hatom)]
      exact underKeys_carry (fun _ _ => alike_onAtoms b y) hd
  case dictRight =>
    intro s t u x d hx hd hdict
    rw [hdyadic, hdyadic]
    exact underKeys_over hd hx hdict
  case truths =>
    intro s x y c hx hy hpredicate hxflat hyflat h hne
    rw [hdyadic] at h
    exact kind_withRight hb hpredicate hx hy hxflat hyflat h hne

/-- An operator that carries a function of atoms pervades its operand. -/
theorem pervadesMonadic_of_carry {f : Value → Result Value}
    (hcarry : ∀ s x, b.monadic s x = x.carry b.isPredicate f s)
    (hf : ∀ u v, Alike u v → Alike (f u) (f v))
    (htruths : b.isPredicate = true → ∀ v w, f v = .ok w → ∃ q, w = .ofBool q) :
    b.PervadesMonadic := by
  constructor
  case array =>
    intro s t a ha
    simp only [hcarry]
    exact collects_carry hf ha
  case dict =>
    intro s t u d hd
    rw [hcarry, hcarry]
    exact underKeys_carry hf hd
  case truths =>
    intro s x c hx hpredicate hflat h hne
    rw [hcarry, hpredicate] at h
    rcases isFlat_cases hflat with ⟨a, rfl, hatoms⟩ | hatom
    · have ha : WellFormed a := (everywhere_array a).1 hx
      refine (collects_carry (t := fun _ => s) hf ha).kind_eq_bools (fun r hr w hw => ?_) h hne
      obtain ⟨i, hi, rfl⟩ := List.mem_mapIdx.1 hr
      rw [carry_atom _ _ _ (hatoms _ (List.getElem_mem hi))] at hw
      exact htruths hpredicate _ w hw
    · rw [carry_atom _ _ _ hatom] at h
      obtain ⟨q, hq⟩ := htruths hpredicate x _ h
      cases hq

theorem pervadesMonadic_subtract : Builtin.subtract.PervadesMonadic :=
  pervadesMonadic_of_carry (fun _ _ => rfl) (fun _ _ => alike_negateAtom) nofun

theorem pervadesMonadic_not : Builtin.not.PervadesMonadic := by
  refine pervadesMonadic_of_carry Builtin.monadic_not (fun _ _ => alike_isZeroAtom)
    fun _ v w h => ?_
  cases v <;> cases h <;> exact ⟨_, rfl⟩

/-- Arithmetic and comparison pervade their operands, and so do negation and "is zero". -/
theorem pervasive_pointwise (b : Builtin) :
    (b.isPervasive = true → b.PervadesDyadic) ∧
      (b = .subtract ∨ b = .not → b.PervadesMonadic) := by
  refine ⟨pervadesDyadic, ?_⟩
  rintro (rfl | rfl)
  · exact pervadesMonadic_subtract
  · exact pervadesMonadic_not

/-- A list of an array and a dictionary meets a list of an array and an integer. -/
theorem pervasive_pointwise_nested :
    let row : Arr Value := .ints (.ofList (.step 0) [1, 2])
    let column : Arr Value := .ints (.ofList (.step 1) [1, 1])
    let d : Dict Value := ⟨.strs (.ofList (.step 2) ["a"]), .ints (.ofList (.step 3) [1])⟩
    let a : Arr Value := .list (.ofList (.step 4) [.array row, .dict (.step 5) d])
    let c : Arr Value := .list (.ofList (.step 6) [.array column, .int 1])
    Collects true (Builtin.equal.dyadic (.step 7) (.array a) (.array c))
        [Builtin.equal.dyadic (.step 8) (.array row) (.array column),
          Builtin.equal.dyadic (.step 9) (.dict (.step 5) d) (.int 1)] ∧
      UnderKeys d (Builtin.equal.dyadic (.step 9) (.dict (.step 5) d) (.int 1))
        (Builtin.equal.dyadic (.step 10) (.array d.vals) (.int 1)) ∧
      (∃ bits, Builtin.equal.dyadic (.step 8) (.array row) (.array column) = .ok (.array bits) ∧
        bits.values = [.int 1, .int 0] ∧ bits.kind = .bools) ∧
      Collects false (Builtin.subtract.monadic (.step 7) (.array a))
        [Builtin.subtract.monadic (.step 8) (.array row),
          Builtin.subtract.monadic (.step 9) (.dict (.step 5) d)] := by
  intro row column d a c
  have ha : WellFormed a := by decide
  have hc : WellFormed c := by decide
  have hd : d.Paired := ⟨rfl, by decide, by decide⟩
  -- Comparing the lists, then the elements of each, and negating the first list.
  have hequal := (pervasive_pointwise .equal).1 rfl
  have hnegate := (pervasive_pointwise .subtract).2 (.inl rfl)
  have hflat (w : Window Int64) : (Value.array (.ints w)).IsFlat := by
    intro v hv
    obtain ⟨n, -, rfl⟩ := List.mem_map.1 hv
    rfl
  have hone : ∀ v e, Value.int 1 ≠ .dict v e := fun v e h => by cases h
  refine ⟨hequal.arrays _ (fun i => .step (8 + i)) ha hc rfl,
    hequal.dictLeft _ _ _ hd (by decide) hone, ⟨_, rfl, rfl, ?_⟩,
    hnegate.array _ (fun i => .step (8 + i)) ha⟩
  refine hequal.truths (.step 8) (x := .array row) (y := .array column) (by decide) (by decide) rfl
    (hflat _) (hflat _) rfl ?_
  rw [values_gather]
  exact List.cons_ne_nil _ _

end Laws

end SharedArrays
