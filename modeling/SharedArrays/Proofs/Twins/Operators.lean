import SharedArrays.Proofs.Twins.Arrays

/-!
# Operators cannot tell equal values apart

Whatever an operator looks at, it finds the same in twins: the elements one after the other, their
number, and the positions of keys. The storage variant enters at two places, for empty results and
for arrays that are joined, and neither of them shows in the elements.

## Main definitions

* `FromLeft.Twin` — functions of the left operand with indistinct answers for twins

## Main results

* `values_gather` — an array of results has just these as its elements
* `indistinct_onAtoms`, `indistinct_carry` — operators on atoms, and carried through containers
* `indistinct_mergeBy`, `twin_withRight_and_elements`, `indistinct_join` — two operands
* `builtins_respect_equality` — operators cannot tell equal values apart
-/

namespace SharedArrays

/-! ## Atoms -/

theorem twin_of_no_nodes {v : Value} (h : Everywhere (fun _ => False) v) : v.Twin v := by
  have hleaf : v.isLeaf = true := by
    cases v with
    | array a => exact ((everywhere_arr.1 ((everywhere_array a).1 h)).1).elim
    | dict s d => exact ((everywhere_dict s d).1 h).1.elim
    | error s v => exact ((everywhere_errorValue s v).1 h).1.elim
    | _ => rfl
  exact .leaf hleaf (eqvAtom_refl hleaf)

/-- An answer without handles inside is indistinct from itself. -/
theorem indistinct_self {r : Result Value} (h : Everywhere (fun _ => False) r) :
    Indistinct Value.Twin r r := by
  cases r with
  | ok v => exact twin_of_no_nodes h
  | error e => rfl

/-- The call is refused because of a type. -/
def Refuses (r : Result Value) : Prop := ∃ e, r = .error e ∧ e.cause.kind = "Type"

theorem Refuses.indistinct {r r' : Result Value} (h : Refuses r) (h' : Refuses r') :
    Indistinct Value.Twin r r' := by
  obtain ⟨e, rfl, he⟩ := h
  obtain ⟨e', rfl, he'⟩ := h'
  exact he.trans he'.symm

/-- A function of atoms that refuses all but numbers and strings. -/
theorem indistinct_of_refuses {f : Value → Result Value}
    (hatom : ∀ v, Everywhere (fun _ => False) (f v))
    (hrefuse : ∀ v, v.atomKind = .list → Refuses (f v)) {u v : Value} (h : u.eqv v = true) :
    Indistinct Value.Twin (f u) (f v) := by
  by_cases hu : u.atomKind = .list
  · exact (hrefuse u hu).indistinct (hrefuse v (atomKind_eq_of_eqv h ▸ hu))
  · rw [← eq_of_eqv_of_atomKind h hu]
    exact indistinct_self (hatom u)

theorem indistinct_negateAtom {u v : Value} (h : u.eqv v = true) :
    Indistinct Value.Twin (negateAtom u) (negateAtom v) :=
  indistinct_of_refuses everywhere_negateAtom
    (fun v hv => by cases v <;> first | exact ⟨_, rfl, rfl⟩ | cases hv) h

theorem indistinct_isZeroAtom {u v : Value} (h : u.eqv v = true) :
    Indistinct Value.Twin (isZeroAtom u) (isZeroAtom v) :=
  indistinct_of_refuses everywhere_isZeroAtom
    (fun v hv => by cases v <;> first | exact ⟨_, rfl, rfl⟩ | cases hv) h

theorem indistinct_onAtoms (b : Builtin) {x x' y y' : Value} (hx : x.eqv x' = true)
    (hy : y.eqv y' = true) : Indistinct Value.Twin (b.onAtoms x y) (b.onAtoms x' y') := by
  have hleft (x y : Value) (hx : x.atomKind = .list) : Refuses (b.onAtoms x y) := by
    cases x <;> first | exact ⟨_, rfl, rfl⟩ | cases hx
  have hright (x y : Value) (hx : x.atomKind ≠ .list) (hy : y.atomKind = .list) :
      Refuses (b.onAtoms x y) := by
    cases x <;> first
      | exact absurd rfl hx
      | (cases y <;> first | exact ⟨_, rfl, rfl⟩ | cases hy)
  -- The left operand is refused first, whatever the right one is.
  by_cases hkind : x.atomKind = .list
  · exact (hleft x y hkind).indistinct (hleft x' y' (atomKind_eq_of_eqv hx ▸ hkind))
  · rw [← eq_of_eqv_of_atomKind hx hkind]
    by_cases hkind' : y.atomKind = .list
    · exact (hright x y hkind hkind').indistinct
        (hright x y' hkind (atomKind_eq_of_eqv hy ▸ hkind'))
    · rw [← eq_of_eqv_of_atomKind hy hkind']
      exact indistinct_self (everywhere_onAtoms b x y)

/-! ## Containers -/

section Carry

variable {s s' : Site} {predicate : Bool}

/-- An array of results has just these as its elements, in whatever variant. -/
theorem values_gather (s : Site) (kind : Kind) (predicate : Bool) (vs : List Value) :
    (gather s kind predicate vs).values = vs := by
  unfold gather
  split
  · rename_i hnil
    rw [List.isEmpty_iff.1 hnil]
    exact Arr.values_eq_nil (len_empty s _)
  · have hvalues := Arr.values_ofValues s vs
    split
    · rename_i w hw
      rw [hw] at hvalues
      split
      · rename_i htruth
        -- Integers that are all 0 or 1 read back as they were.
        have hall : ∀ n ∈ w.items, isTruth n = true := by
          simpa using (Bool.and_eq_true_iff.1 htruth).2
        rw [← hvalues]
        simp only [Arr.values, Window.items_ofList, List.map_map]
        refine List.map_congr_left fun n hn => ?_
        have hn : n = 0 ∨ n = 1 := by simpa [isTruth] using hall n hn
        rcases hn with rfl | rfl <;> rfl
      · exact hvalues
    · exact hvalues

theorem inBounds_gather (s : Site) (kind : Kind) (predicate : Bool) (vs : List Value) :
    (gather s kind predicate vs).InBounds := by
  unfold gather
  split
  · cases predicate <;> cases kind <;> exact Window.inBounds_ofList ..
  · have hpack : (Arr.ofValues s vs).InBounds := inBounds_pack ..
    split
    · rename_i w hw
      rw [hw] at hpack
      split
      · exact Window.inBounds_ofList ..
      · exact hpack
    · exact hpack

theorem twin_gather {kind kind' : Kind} {us vs : List Value} (h : Pointwise Value.Twin us vs) :
    (gather s kind predicate us).Twin (gather s' kind' predicate vs) := by
  refine Arr.twin_iff.2 ⟨inBounds_gather .., inBounds_gather .., ?_⟩
  rwa [values_gather, values_gather]

/-- The array of answers of which there are twins. -/
theorem indistinct_gather {kind kind' : Kind} {rs rs' : List (Result Value)}
    (h : Pointwise (Indistinct Value.Twin) rs rs') :
    Indistinct Arr.Twin (do return gather s kind predicate (← allOk rs))
      (do return gather s' kind' predicate (← allOk rs')) :=
  (indistinct_allOk h).bind fun _ _ hvs => twin_gather hvs

theorem indistinct_withVals {d d' : Dict Value} (hd : d.Twin d') {vals vals' : Arr Value}
    (hvals : vals.Twin vals') :
    Indistinct Value.Twin (d.withVals s vals) (d'.withVals s' vals') := by
  have hlen : d.keys.len = vals.len ↔ d'.keys.len = vals'.len := by
    rw [hd.keys.len_eq, hvals.len_eq]
  simp only [Dict.withVals, Dict.ofArrays?]
  by_cases hsame : d.keys.len = vals.len
  · rw [if_pos hsame, if_pos (hlen.1 hsame)]
    exact twin_dict.2 ⟨hsame, hlen.1 hsame, hd.ascendingLeft, hd.ascendingRight, hd.keys, hvals⟩
  · rw [if_neg hsame, if_neg fun h => hsame (hlen.2 h)]
    rfl

theorem indistinct_array {r r' : Result (Arr Value)} :
    Indistinct Value.Twin (do return .array (← r)) (do return .array (← r')) ↔
      Indistinct Arr.Twin r r' := by
  cases r <;> cases r' <;> exact Iff.rfl

theorem stretch_mapIdx {α β : Type} (off len : Nat) (f : Nat → α → β) (xs : List α) :
    stretch off len (xs.mapIdx f) = (stretch off len xs).mapIdx fun i => f (off + i) := by
  refine List.ext_getElem? fun i => ?_
  simp only [stretch, List.getElem?_take, List.getElem?_drop, List.getElem?_mapIdx]
  split <;> rfl

theorem isContainer_of_isLeaf {v : Value} (hv : v.isLeaf = true) : v.isContainer = false := by
  cases v <;> first | rfl | cases hv

theorem carry_atom (predicate : Bool) (f : Value → Result Value) (s : Site) {v : Value}
    (hv : v.isContainer = false) : v.carry predicate f s = f v := by
  cases v <;> first | rfl | cases hv

/-- Carrying through an array carries through its elements, whatever its variant. -/
theorem Arr.carry_eq (predicate : Bool) (f : Value → Result Value) (s : Site) (a : Arr Value) :
    ∃ t : Nat → Site, a.carry predicate f s = do
      let vs ← allOk (a.values.mapIdx fun i v => v.carry predicate f (t i))
      return gather s a.kind predicate vs := by
  -- Elements that are stored without tags are atoms, and atoms need no site.
  have huntagged (ha : a.kind ≠ .list) :
      a.values.map f = a.values.mapIdx fun _ v => v.carry predicate f s := by
    refine List.ext_getElem (by simp) fun i hi hi' => ?_
    rw [List.getElem_map, List.getElem_mapIdx]
    exact (carry_atom predicate f s
      (isContainer_of_isLeaf (isLeaf_of_mem_values ha (List.getElem_mem _)))).symm
  cases a with
  | list w =>
    refine ⟨fun i => s.sub (0 + (w.off + i)), ?_⟩
    simp only [Arr.carry, carryCells_eq_mapIdx, stretch_mapIdx]
    rfl
  | _ w =>
    refine ⟨fun _ => s, ?_⟩
    rw [← huntagged (by simp [Arr.kind])]
    rfl

/-- Carrying functions with indistinct answers through twins. -/
theorem indistinct_carry {f g : Value → Result Value}
    (hfg : ∀ u v, u.eqv v = true → Indistinct Value.Twin (f u) (g v)) {x x' : Value}
    (h : x.Twin x') (s s' : Site) :
    Indistinct Value.Twin (x.carry predicate f s) (x'.carry predicate g s') := by
  induction h generalizing s s' with
  | leaf hu huv =>
    rw [carry_atom predicate f s (isContainer_of_isLeaf hu),
      carry_atom predicate g s' (isContainer_of_isLeaf (isLeaf_of_eqvAtom huv))]
    exact hfg _ _ ((Value.Twin.leaf hu huv).eqv)
  | error huv => exact hfg _ _ huv
  | @array a b ha hb hlen h ih =>
    refine indistinct_array.2 ?_
    obtain ⟨t, ht⟩ := Arr.carry_eq predicate f s a
    obtain ⟨t', ht'⟩ := Arr.carry_eq predicate g s' b
    rw [ht, ht']
    exact indistinct_gather (pointwise_mapIdx hlen fun i u v hu hv => ih i u v hu hv (t i) (t' i))
  | @dict u t d e hd he hdkeys hekeys hkeys hvals ihk ihv =>
    have hde : d.Twin e := ⟨hd, he, hdkeys, hekeys, hkeys, hvals⟩
    exact (indistinct_array.1 (ihv (s.sub 0) (s'.sub 0))).bind fun a b hab =>
      indistinct_withVals hde hab

end Carry

/-! ## Two operands -/

/-- Functions of the left operand with indistinct answers for twins, wherever they make their
objects. -/
def FromLeft.Twin (f g : FromLeft) : Prop :=
  ∀ s s' x x', Value.Twin x x' → Indistinct Value.Twin (f s x) (g s' x')

theorem indistinct_settle {u v : Value} (h : u.Twin v) :
    Indistinct Value.Twin u.settle v.settle := by
  cases h with
  | @leaf u v hu huv =>
    have hsettle {v : Value} (hv : v.isLeaf = true) : v.settle = .ok v := by
      cases v <;> first | rfl | cases hv
    rw [hsettle hu, hsettle (isLeaf_of_eqvAtom huv)]
    exact .leaf hu huv
  | error huv => rfl
  | array ha hb hlen h => exact .array ha hb hlen h
  | dict hd he hdkeys hekeys hkeys hvals => exact .dict hd he hdkeys hekeys hkeys hvals

theorem overArray_atom (b : Builtin) (kind : Kind) (fns : List FromLeft) (s : Site)
    {x : Value} (hx : x.isContainer = false) :
    b.overArray kind fns s x = do
      return .array (gather s kind b.isPredicate
        (← allOk (fns.mapIdx fun k f => f (s.sub k) x))) := by
  cases x <;> first | rfl | cases hx

theorem withRight_atom (b : Builtin) {y : Value} (hy : y.isContainer = false) :
    withRight b y = fun s x => x.carry b.isPredicate (b.onAtoms · y) s := by
  cases y <;> first | rfl | cases hy

/-- A dictionary on the right, and something else on the left. -/
theorem withRight_dict (b : Builtin) (s t : Site) (d : Dict Value) {x : Value}
    (hx : ∀ u l, x ≠ .dict u l) :
    withRight b (.dict t d) s x = b.overVals d (withRightElements b d.vals) s x := by
  cases x <;> first | rfl | exact absurd rfl (hx _ _)

section FromLeft

variable {b : Builtin} {fns gs : List FromLeft} (h : Pointwise FromLeft.Twin fns gs) {s s' : Site}
include h

theorem indistinct_pairs {a a' : Arr Value} (ha : a.Twin a') :
    Indistinct Arr.Twin (Builtin.overArray.pairs b fns s a)
      (Builtin.overArray.pairs b gs s' a') := by
  unfold Builtin.overArray.pairs
  rw [ha.len_eq, h.1]
  split
  · refine indistinct_gather ?_
    refine Pointwise.mapIdx (R := fun (p q : Value × FromLeft) => p.1.Twin q.1 ∧ p.2.Twin q.2)
      ⟨?_, ?_⟩ fun i p q hpq => hpq.2 _ _ _ _ hpq.1
    · rw [List.length_zip, List.length_zip, ha.values.1, h.1]
    · intro i p q hp hq
      obtain ⟨hp₁, hp₂⟩ := List.getElem?_zip_eq_some.1 hp
      obtain ⟨hq₁, hq₂⟩ := List.getElem?_zip_eq_some.1 hq
      exact ⟨ha.values.2 i _ _ hp₁ hq₁, h.2 i _ _ hp₂ hq₂⟩
  · rfl

theorem indistinct_overArray (kind kind' : Kind) {x x' : Value} (hx : x.Twin x') :
    Indistinct Value.Twin (b.overArray kind fns s x) (b.overArray kind' gs s' x') := by
  have hatom : Indistinct Value.Twin
      (do return .array (gather s kind b.isPredicate
        (← allOk (fns.mapIdx fun k f => f (s.sub k) x))))
      (do return .array (gather s' kind' b.isPredicate
        (← allOk (gs.mapIdx fun k f => f (s'.sub k) x')))) := by
    refine (indistinct_allOk ?_).bind fun us vs huv => twin_gather huv
    exact h.mapIdx fun k f g hfg => hfg _ _ x x' hx
  have hpairs {a a' : Arr Value} (ha : a.Twin a') (s s' : Site) :
      Indistinct Arr.Twin (Builtin.overArray.pairs b fns s a)
        (Builtin.overArray.pairs b gs s' a') := indistinct_pairs h ha
  cases hx with
  | leaf hleaf heqv =>
    rw [overArray_atom b kind fns s (isContainer_of_isLeaf hleaf),
      overArray_atom b kind' gs s' (isContainer_of_isLeaf (isLeaf_of_eqvAtom heqv))]
    exact hatom
  | error heqv => exact hatom
  | array ha hb hlen hvalues =>
    exact indistinct_array.2 (hpairs (.array ha hb hlen hvalues) s s')
  | dict hd he hdkeys hekeys hkeys hvals =>
    refine (hpairs hvals (s.sub 0) (s'.sub 0)).bind fun vals vals' hv => ?_
    exact indistinct_withVals ⟨hd, he, hdkeys, hekeys, hkeys, hvals⟩ hv

theorem indistinct_overVals {d d' : Dict Value} (hd : d.Twin d') {x x' : Value}
    (hx : x.Twin x') :
    Indistinct Value.Twin (b.overVals d fns s x) (b.overVals d' gs s' x') := by
  refine (indistinct_overArray h d.vals.kind d'.vals.kind hx).bind fun v v' hv => ?_
  cases hv with
  | leaf hleaf heqv =>
    -- The answer has to be an array, and twins of atoms are atoms.
    have hleaf' := isLeaf_of_eqvAtom heqv
    refine Refuses.indistinct ?_ ?_
    · cases v <;> first | exact ⟨_, rfl, rfl⟩ | cases hleaf
    · cases v' <;> first | exact ⟨_, rfl, rfl⟩ | cases hleaf'
  | error heqv => rfl
  | array ha hb hlen hvalues => exact indistinct_withVals hd (.array ha hb hlen hvalues)
  | dict => rfl

theorem indistinct_mergeBy {l l' r r' : Dict Value} (hl : l.Twin l') (hr : r.Twin r') :
    Indistinct Dict.Twin (l.mergeBy s fns r) (l'.mergeBy s' gs r') := by
  refine indistinct_mergeWith hl hr fun common _ hne => ?_
  refine indistinct_revise ?_ hl.vals ?_
  · have hrefl : Pointwise Eq common.zipIdx common.zipIdx := pointwise_of_forall fun _ _ => rfl
    refine hrefl.map ?_
    rintro ⟨⟨i, j⟩, k⟩ _ rfl
    refine ⟨rfl, fun u v huv => Indistinct.bind ?_ fun _ _ => indistinct_settle⟩
    rcases h.getElem? j with ⟨hnone, hnone'⟩ | ⟨f, g, hf, hg, hfg⟩
    · rw [hnone, hnone']
      exact huv
    · rw [hf, hg]
      exact hfg _ _ u v huv
  · intro hnil
    exact hne (List.zipIdx_eq_nil_iff.1 (List.map_eq_nil_iff.1 hnil))

end FromLeft

/-- The functions that an operator makes of twins. The functions of the elements are carried along,
because a dictionary uses those of its values. -/
theorem twin_withRight_and_elements (b : Builtin) {y y' : Value} (h : y.Twin y') :
    FromLeft.Twin (withRight b y) (withRight b y') ∧ ∀ c c', y = .array c → y' = .array c' →
      Pointwise FromLeft.Twin (withRightElements b c) (withRightElements b c') := by
  have hatom {y y' : Value} (heqv : y.eqv y' = true) :
      FromLeft.Twin (fun s x => x.carry b.isPredicate (b.onAtoms · y) s)
        (fun s x => x.carry b.isPredicate (b.onAtoms · y') s) :=
    fun s s' x x' hx => indistinct_carry (fun u v huv => indistinct_onAtoms b huv heqv) hx s s'
  induction h with
  | leaf hleaf heqv =>
    rw [withRight_atom b (isContainer_of_isLeaf hleaf),
      withRight_atom b (isContainer_of_isLeaf (isLeaf_of_eqvAtom heqv))]
    refine ⟨hatom (Value.Twin.leaf hleaf heqv).eqv, ?_⟩
    rintro c c' rfl
    cases hleaf
  | error heqv => exact ⟨hatom heqv, by rintro _ _ ⟨⟩⟩
  | @array c c' ha hb hlen hvalues ih =>
    have helements : Pointwise FromLeft.Twin (withRightElements b c) (withRightElements b c') := by
      rw [withRightElements_eq_map, withRightElements_eq_map]
      refine Pointwise.map (R := fun u v => FromLeft.Twin (withRight b u) (withRight b v))
        ⟨hlen, fun i u v hu hv => (ih i u v hu hv).1⟩ fun _ _ => id
    refine ⟨fun s s' x x' hx => indistinct_overArray helements _ _ hx, ?_⟩
    rintro _ _ ⟨⟩ ⟨⟩
    exact helements
  | @dict u t d e hd he hdkeys hekeys hkeys hvals ihk ihv =>
    have helements := ihv.2 d.vals e.vals rfl rfl
    have hde : d.Twin e := ⟨hd, he, hdkeys, hekeys, hkeys, hvals⟩
    refine ⟨fun s s' x x' hx => ?_, by rintro _ _ ⟨⟩⟩
    -- Two dictionaries are merged, and everything else meets the values.
    have hover : Indistinct Value.Twin (b.overVals d (withRightElements b d.vals) s x)
        (b.overVals e (withRightElements b e.vals) s' x') := indistinct_overVals helements hde hx
    have hother (hx : ∀ u l, x ≠ .dict u l) (hx' : ∀ u l, x' ≠ .dict u l) :
        Indistinct Value.Twin (withRight b (.dict u d) s x) (withRight b (.dict t e) s' x') := by
      rwa [withRight_dict b s u d hx, withRight_dict b s' t e hx']
    cases hx with
    | leaf hleaf heqv =>
      have hne {x : Value} (hx : x.isLeaf = true) : ∀ u l, x ≠ .dict u l := by
        rintro u l rfl
        cases hx
      exact hother (hne hleaf) (hne (isLeaf_of_eqvAtom heqv))
    | error heqv => exact hover
    | array => exact hover
    | dict hl hl' hlkeys hlkeys' hlk hlv =>
      refine (indistinct_mergeBy helements ⟨hl, hl', hlkeys, hlkeys', hlk, hlv⟩ hde).bind ?_
      exact fun m m' hm => twin_dict.2 hm

/-! ## Joining and reversing -/

section Join

variable {x x' y y' : Value}

/-- The elements that a value contributes to a concatenation. -/
def Value.spread : Value → List Value
  | .array a => a.values
  | v => [v]

theorem spread_of_ne_array (h : ∀ a, x = .array a → False) : x.spread = [x] := by
  cases x with
  | array a => exact (h a rfl).elim
  | _ => rfl

theorem Value.Twin.spread (h : x.Twin x') : Pointwise Value.Twin x.spread x'.spread := by
  have hsingle (h : x.Twin x') : Pointwise Value.Twin [x] [x'] :=
    pointwise_cons.2 ⟨h, pointwise_nil_left.2 rfl⟩
  cases h with
  | leaf hleaf heqv =>
    have hspread {x : Value} (hx : x.isLeaf = true) : x.spread = [x] :=
      spread_of_ne_array fun a ha => by cases ha; cases hx
    rw [hspread hleaf, hspread (isLeaf_of_eqvAtom heqv)]
    exact hsingle (.leaf hleaf heqv)
  | error heqv => exact hsingle (.error heqv)
  | array ha hb hlen h => exact ⟨hlen, h⟩
  | dict hd he hdkeys hekeys hkeys hvals =>
    exact hsingle (.dict hd he hdkeys hekeys hkeys hvals)

/-- The join of two values that are not both dictionaries, in whatever variant. -/
theorem join_eq_array (s : Site)
    (h : ∀ t l u r, x = .dict t l → y = .dict u r → False) :
    ∃ a, x.join s y = .ok (.array a) ∧ a.values = x.spread ++ y.spread ∧
      ((∀ b, x = .array b → b.InBounds) → (∀ c, y = .array c → c.InBounds) → a.InBounds) := by
  have hone (s : Site) (v : Value) : (Arr.singleton s v).InBounds := inBounds_pack ..
  unfold Value.join
  split
  · exact (h _ _ _ _ rfl rfl).elim
  · exact ⟨_, rfl, Arr.values_concat .., fun hb hc => inBounds_concat (hb _ rfl) (hc _ rfl) s⟩
  · rename_i hy
    rw [spread_of_ne_array hy]
    refine ⟨_, rfl, ?_, fun hb _ => inBounds_concat (hb _ rfl) (hone ..) s⟩
    rw [Arr.values_concat, Arr.singleton, Arr.values_ofValues]
    rfl
  · rename_i hx
    rw [spread_of_ne_array hx]
    refine ⟨_, rfl, ?_, fun _ hc => inBounds_concat (hone ..) (hc _ rfl) s⟩
    rw [Arr.values_concat, Arr.singleton, Arr.values_ofValues]
    rfl
  · rename_i hx hy _ _
    rw [spread_of_ne_array hx, spread_of_ne_array hy]
    exact ⟨_, rfl, Arr.values_ofValues .., fun _ _ => inBounds_pack ..⟩

theorem Value.Twin.inBounds (h : x.Twin x') :
    (∀ a, x = .array a → a.InBounds) ∧ ∀ a, x' = .array a → a.InBounds := by
  constructor
  · rintro a rfl
    cases h with
    | leaf hleaf => cases hleaf
    | array ha => exact ha
  · rintro a rfl
    cases h with
    | leaf hleaf heqv => cases isLeaf_of_eqvAtom heqv
    | array ha hb => exact hb

theorem Value.Twin.dict_iff (h : x.Twin x') : (∃ s d, x = .dict s d) ↔ ∃ s d, x' = .dict s d := by
  cases h with
  | leaf hleaf heqv =>
    have hnot {x : Value} (hx : x.isLeaf = true) : ¬∃ s d, x = .dict s d := by
      rintro ⟨s, d, rfl⟩
      cases hx
    exact iff_of_false (hnot hleaf) (hnot (isLeaf_of_eqvAtom heqv))
  | error => constructor <;> rintro ⟨_, _, ⟨⟩⟩
  | array => constructor <;> rintro ⟨_, _, ⟨⟩⟩
  | dict => exact iff_of_true ⟨_, _, rfl⟩ ⟨_, _, rfl⟩

theorem indistinct_join (hx : x.Twin x') (hy : y.Twin y') (s s' : Site) :
    Indistinct Value.Twin (x.join s y) (x'.join s' y') := by
  by_cases hboth : (∃ t l, x = .dict t l) ∧ ∃ u r, y = .dict u r
  · obtain ⟨⟨t, l, rfl⟩, u, r, rfl⟩ := hboth
    obtain ⟨t', l', rfl⟩ := hx.dict_iff.1 ⟨t, l, rfl⟩
    obtain ⟨u', r', rfl⟩ := hy.dict_iff.1 ⟨u, r, rfl⟩
    have hl := twin_dict.1 hx
    have hr := twin_dict.1 hy
    -- The values on the right overwrite whatever they meet.
    have hfns : Pointwise FromLeft.Twin (r.vals.values.map fun v _ _ => .ok v)
        (r'.vals.values.map fun v _ _ => .ok v) :=
      hr.vals.values.map fun v v' hv _ _ _ _ _ => hv
    exact (indistinct_mergeBy hfns hl hr).bind fun m m' hm => twin_dict.2 hm
  · have hboth' : ¬((∃ t l, x' = .dict t l) ∧ ∃ u r, y' = .dict u r) := by
      rwa [← hx.dict_iff, ← hy.dict_iff]
    obtain ⟨a, ha, havalues, habounds⟩ := join_eq_array (x := x) (y := y) s
      fun t l u r hl hr => hboth ⟨⟨t, l, hl⟩, u, r, hr⟩
    obtain ⟨a', ha', havalues', habounds'⟩ := join_eq_array (x := x') (y := y') s'
      fun t l u r hl hr => hboth' ⟨⟨t, l, hl⟩, u, r, hr⟩
    rw [ha, ha']
    refine twin_array.2 (Arr.twin_iff.2 ⟨habounds hx.inBounds.1 hy.inBounds.1,
      habounds' hx.inBounds.2 hy.inBounds.2, ?_⟩)
    rw [havalues, havalues']
    exact hx.spread.append hy.spread

theorem indistinct_reverse (hx : x.Twin x') (s s' : Site) :
    Indistinct Value.Twin (x.reverse s) (x'.reverse s') := by
  cases hx with
  | leaf hleaf heqv =>
    have hsame (s : Site) {x : Value} (hx : x.isLeaf = true) : x.reverse s = .ok x := by
      cases x <;> first | rfl | cases hx
    rw [hsame s hleaf, hsame s' (isLeaf_of_eqvAtom heqv)]
    exact .leaf hleaf heqv
  | error heqv => exact .error heqv
  | @array a a' ha hb hlen h =>
    have haa' : a.Twin a' := .array ha hb hlen h
    simp only [Value.reverse]
    rw [← haa'.len_eq]
    exact indistinct_array.2 ((indistinct_select haa' _).mono fun _ _ h => h.1)
  | dict hd he hdkeys hekeys hkeys hvals => exact .dict hd he hdkeys hekeys hkeys hvals

end Join

/-! ## All operators -/

section Builtins

variable {x x' y y' : Value} (b : Builtin) (s s' : Site)

theorem indistinct_monadic (hx : x.Twin x') :
    Indistinct Value.Twin (b.monadic s x) (b.monadic s' x') := by
  cases b with
  | identity => exact hx
  | right => exact hx
  | subtract => exact indistinct_carry (fun _ _ => indistinct_negateAtom) hx s s'
  | not =>
    rw [Builtin.monadic_not, Builtin.monadic_not]
    exact indistinct_carry (fun _ _ => indistinct_isZeroAtom) hx s s'
  | join => exact twin_array.2 (twin_ofValues (pointwise_cons.2 ⟨hx, pointwise_nil_left.2 rfl⟩))
  | max => exact indistinct_reverse hx s s'
  | _ => rfl

theorem indistinct_dyadic (hx : x.Twin x') (hy : y.Twin y') :
    Indistinct Value.Twin (b.dyadic s x y) (b.dyadic s' x' y') := by
  cases b with
  | identity => exact hy
  | right => exact hy
  | not =>
    have htest : x.eqv y = x'.eqv y' := by rw [eqv_left_congr hx.eqv, eqv_right_congr hy.eqv]
    rw [Builtin.dyadic, Builtin.dyadic, htest]
    exact .leaf rfl (eqvAtom_refl rfl)
  | join => exact indistinct_join hx hy s s'
  | _ => exact (twin_withRight_and_elements _ hy).1 s s' x x' hx

/-- Operators cannot tell equal values apart: they answer equal values, or refuse both for one kind
of reason. -/
theorem builtins_respect_equality (hx : x.eqv x' = true) (hy : y.eqv y' = true)
    (hwell : WellFormed x ∧ WellFormed x' ∧ WellFormed y ∧ WellFormed y')
    (hkeys : x.KeysAscend ∧ x'.KeysAscend ∧ y.KeysAscend ∧ y'.KeysAscend) :
    Indistinct (fun u v => u.eqv v = true) (b.monadic s x) (b.monadic s' x') ∧
      Indistinct (fun u v => u.eqv v = true) (b.dyadic s x y) (b.dyadic s' x' y') := by
  have hxx' := twin_of_eqv hx hwell.1 hwell.2.1 hkeys.1 hkeys.2.1
  have hyy' := twin_of_eqv hy hwell.2.2.1 hwell.2.2.2 hkeys.2.2.1 hkeys.2.2.2
  exact ⟨(indistinct_monadic b s s' hxx').mono fun _ _ => Value.Twin.eqv,
    (indistinct_dyadic b s s' hxx' hyy').mono fun _ _ => Value.Twin.eqv⟩

end Builtins

/-- Two dictionaries that share the key 2 are added. Each of them is also given with its keys, which
are known to ascend, and its values as plain lists. -/
theorem builtins_respect_equality_merge :
    let keys (n : Int64) : Arr Value := .ints ⟨.step 0, [n, n + 1], 0, 2, { ascending := true }⟩
    let keys' (n : Int64) : Arr Value := .list (.ofList (.step 1) [.int n, .int (n + 1)])
    let x : Value := .dict (.step 2) ⟨keys 1, .bools (.ofList (.step 3) [true, false])⟩
    let x' : Value := .dict (.step 4) ⟨keys' 1, .ints (.ofList (.step 5) [1, 0])⟩
    let y : Value := .dict (.step 6) ⟨keys 2, .ints (.ofList (.step 7) [5, 6])⟩
    let y' : Value := .dict (.step 8) ⟨keys' 2, .list (.ofList (.step 9) [.int 5, .int 6])⟩
    x.eqv x' = true ∧ y.eqv y' = true ∧ ∃ u v,
      Builtin.add.dyadic (.step 10) x y = .ok u ∧ Builtin.add.dyadic (.step 11) x' y' = .ok v ∧
        u.eqv v = true := by
  intro keys keys' x x' y y'
  have hx : x.eqv x' = true := by decide
  have hy : y.eqv y' = true := by decide
  have hleaves {a : Arr Value} (ha : ∀ v ∈ a.values, v.isLeaf = true) :
      (Value.array a).KeysAscend :=
    keysAscend_array.2 fun v hv => keysAscend_of_isLeaf (ha v hv)
  have hkeys : x.KeysAscend ∧ x'.KeysAscend ∧ y.KeysAscend ∧ y'.KeysAscend := by
    refine ⟨?_, ?_, ?_, ?_⟩
    · exact keysAscend_dict.2 ⟨fun _ => by decide, hleaves (by decide), hleaves (by decide)⟩
    · exact keysAscend_dict.2 ⟨trivial, hleaves (by decide), hleaves (by decide)⟩
    · exact keysAscend_dict.2 ⟨fun _ => by decide, hleaves (by decide), hleaves (by decide)⟩
    · exact keysAscend_dict.2 ⟨trivial, hleaves (by decide), hleaves (by decide)⟩
  obtain ⟨u, hu⟩ : ∃ u, Builtin.add.dyadic (.step 10) x y = .ok u := ⟨_, rfl⟩
  obtain ⟨v, hv⟩ : ∃ v, Builtin.add.dyadic (.step 11) x' y' = .ok v := ⟨_, rfl⟩
  have h := (builtins_respect_equality .add (.step 10) (.step 11) hx hy (by decide) hkeys).2
  rw [hu, hv] at h
  exact ⟨hx, hy, u, v, hu, hv, h⟩

end SharedArrays
