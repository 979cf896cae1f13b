import SharedArrays.Proofs.Everywhere
import SharedArrays.Operators

/-!
# Properties that the operators keep

An operator takes containers apart down to the atoms, and puts its answer together from new arrays
and from handles that it was given. So it keeps each property of handles that arrays and
dictionaries have when they are made of parts with the property. Which ways to make them there are
is listed in a structure; that the operators keep the property follows for all properties at once.

## Main definitions

* `FromLeft.Maintains` — a function of the left operand that keeps a property
* `ClosedUnderOperators` — the containers that operators make have a property that their parts have

## Main results

* `ClosedUnderOperators.carry` — functions of atoms, carried through containers
* `ClosedUnderOperators.withRight` — the functions that operators make of their right operand
* `ClosedUnderOperators.monadic`, `ClosedUnderOperators.dyadic` — the operators
-/

namespace SharedArrays

variable {P : Value → Prop}

/-! ## Parts and results -/

theorem everywhere_of_at? {a : Arr Value} {i : Nat} {v : Value} (ha : Everywhere P a)
    (hv : a.at? i = some v) : Everywhere P v :=
  everywhere_iff_forall.1 (everywhere_values ha) v (List.mem_of_getElem? hv)

theorem everywhere_at? {a : Arr Value} (ha : Everywhere P a) (i : Nat) :
    Everywhere P (a.at? i) := by
  cases hv : a.at? i with
  | none => exact everywhere_none
  | some v => exact everywhere_of_at? ha hv

/-- The content that an update leaves when it goes through. -/
theorem everywhere_toResult {α : Type} [HasNodes α] {o : Outcome α} (h : Everywhere P o) :
    Everywhere P o.toResult := by
  obtain ⟨slot, failure⟩ := o
  obtain ⟨hslot, hfailure⟩ := everywhere_outcome.1 h
  cases failure with
  | none => exact hslot
  | some e => exact hfailure

theorem everywhere_allOk {rs : List (Result Value)} (h : ∀ r ∈ rs, Everywhere P r) :
    Everywhere P (allOk rs) := by
  induction rs with
  | nil => exact everywhere_empty
  | cons r rs ih =>
    obtain ⟨hr, hrs⟩ := List.forall_mem_cons.1 h
    refine everywhere_bind hr fun v _ hv => everywhere_bind (ih hrs) fun vs _ hvs => ?_
    exact (everywhere_cons ..).2 ⟨hv, hvs⟩

theorem everywhere_settle {v : Value} (h : Everywhere P v) : Everywhere P v.settle := by
  cases v with
  | error s v => exact ((everywhere_errorValue s v).1 h).2
  | _ => exact h

/-! ## Atoms -/

/-- Operators on atoms answer atoms. -/
theorem everywhere_onAtoms (b : Builtin) (x y : Value) : Everywhere P (b.onAtoms x y) := by
  have onInts (m n : Int64) : Everywhere P (b.onInts m n) := by
    unfold Builtin.onInts
    split <;> simp [Builtin.ofOrdering, Value.ofBool]
  have onFloats (x y : Double) : Everywhere P (b.onFloats x y) := by
    unfold Builtin.onFloats
    split
    case h_7 => cases x.order? y <;> simp [Builtin.ofOrdering, Value.ofBool]
    all_goals simp
  unfold Builtin.onAtoms
  split
  · exact onInts _ _
  · exact onFloats _ _
  · exact onFloats _ _
  · exact onFloats _ _
  · unfold Builtin.onStrings
    split <;> first
      | exact everywhere_str _
      | exact everywhere_int _
      | exact everywhere_error_of_cause rfl
  all_goals exact everywhere_error_of_cause rfl

theorem everywhere_negateAtom (v : Value) : Everywhere P (negateAtom v) := by
  cases v with
  | int n => exact everywhere_int _
  | float x => exact everywhere_float _
  | _ => exact everywhere_error_of_cause rfl

theorem everywhere_isZeroAtom (v : Value) : Everywhere P (isZeroAtom v) := by
  cases v with
  | int n => exact everywhere_int _
  | float x => exact everywhere_int _
  | _ => exact everywhere_error_of_cause rfl

/-! ## Closed properties -/

/-- The function of the left operand answers values with the property to values with it. -/
def FromLeft.Maintains (P : Value → Prop) (f : FromLeft) : Prop :=
  ∀ s x, Everywhere P x → Everywhere P (f s x)

/-- Containers that are made by operators have a property that their parts have. -/
structure ClosedUnderOperators (P : Value → Prop) : Prop where
  empty (s : Site) (kind : Kind) : Everywhere P (Arr.empty s kind : Arr Value)
  emptyDict (s : Site) : Everywhere P (.dict s (.empty s) : Value)
  ofValues (s : Site) {vs : List Value} : Everywhere P vs → Everywhere P (Arr.ofValues s vs)
  gathered (s : Site) (kind : Kind) (predicate : Bool) {vs : List Value} :
    Everywhere P vs → Everywhere P (gather s kind predicate vs)
  select (s : Site) (ps : List Nat) {a : Arr Value} :
    Everywhere P a → Everywhere P (a.select s ps)
  concat (s : Site) {a b : Arr Value} :
    Everywhere P a → Everywhere P b → Everywhere P (a.concat s b)
  withVals (s : Site) {d : Dict Value} {vals : Arr Value} :
    Everywhere P d.keys → Everywhere P vals → Everywhere P (d.withVals s vals)
  mergeBy (s : Site) {t u : Site} {fns : List FromLeft} {l r : Dict Value} :
    (∀ f ∈ fns, f.Maintains P) → Everywhere P (.dict t l : Value) →
      Everywhere P (.dict u r : Value) →
        Everywhere P (do return .dict s (← l.mergeBy s fns r) : Result Value)

namespace ClosedUnderOperators

variable (hP : ClosedUnderOperators P)
include hP

/-! ## Neutral values -/

theorem neutral (s : Site) (v : Value) : Everywhere P (v.neutral s) := by
  unfold Value.neutral
  split
  · exact everywhere_int _
  · exact everywhere_float _
  · exact everywhere_str _
  · exact (everywhere_array _).2 (hP.empty s _)
  · exact hP.emptyDict s
  · exact everywhere_nil

theorem padding (s : Site) (a : Arr Value) : Everywhere P (a.padding s) := by
  cases a with
  | list w =>
    simp only [Arr.padding]
    cases w.items.head? with
    | none => exact everywhere_nil
    | some v => exact hP.neutral s v
  | _ => simp [Arr.padding]

/-! ## Carrying -/

theorem carry (predicate : Bool) {f : Value → Result Value} (hf : ∀ v, Everywhere P (f v))
    {v : Value} (hv : Everywhere P v) (s : Site) : Everywhere P (v.carry predicate f s) := by
  induction v using Value.nest_induction generalizing s with
  | leaf v hleaf => cases v <;> first | exact hf _ | cases hleaf
  | error t v => exact hf _
  | dict t keys vals _ ih =>
    obtain ⟨-, hk, hvals⟩ := (everywhere_dict ..).1 hv
    have hcarried : Everywhere P (vals.carry predicate f (s.sub 0)) :=
      (everywhere_bind_pure everywhere_array).1 (ih ((everywhere_array _).2 hvals) (s.sub 0))
    exact everywhere_bind hcarried fun a _ ha => hP.withVals s hk ha
  | array a ih =>
    have ha : Everywhere P a := (everywhere_array a).1 hv
    refine everywhere_bind (α := Arr Value) ?_ fun b _ hb => (everywhere_array b).2 hb
    cases a with
    | list w =>
      have hcells := everywhere_iff_forall.1 (everywhere_arr.1 ha).2
      -- The function is carried through the whole buffer; only what the window shows is used.
      simp only [Arr.carry, carryCells_eq_mapIdx]
      refine everywhere_bind (everywhere_allOk fun r hr => ?_) fun vs _ hvs =>
        hP.gathered s .list predicate hvs
      obtain ⟨i, hi, rfl⟩ := List.mem_mapIdx.1 (List.mem_of_mem_drop (List.mem_of_mem_take hr))
      exact ih _ (List.getElem_mem hi) (hcells _ (List.getElem_mem hi)) _
    | _ w =>
      refine everywhere_bind (everywhere_allOk fun r hr => ?_) fun vs _ hvs =>
        hP.gathered s _ predicate hvs
      obtain ⟨v, -, rfl⟩ := List.mem_map.1 hr
      exact hf v

/-! ## Two operands -/

section FromLeft

variable {fns : List FromLeft} (hfns : ∀ f ∈ fns, f.Maintains P)
include hfns

theorem pairs (b : Builtin) (s : Site) {a : Arr Value} (ha : Everywhere P a) :
    Everywhere P (Builtin.overArray.pairs b fns s a) := by
  unfold Builtin.overArray.pairs
  split
  · refine everywhere_bind (everywhere_allOk fun r hr => ?_) fun vs _ hvs =>
      hP.gathered s _ b.isPredicate hvs
    obtain ⟨i, hi, rfl⟩ := List.mem_mapIdx.1 hr
    have hmem := List.of_mem_zip (List.getElem_mem hi)
    exact hfns _ hmem.2 _ _ (everywhere_iff_forall.1 (everywhere_values ha) _ hmem.1)
  · exact everywhere_error_of_cause rfl

theorem overArray (b : Builtin) (kind : Kind) (s : Site) {x : Value} (hx : Everywhere P x) :
    Everywhere P (b.overArray kind fns s x) := by
  have hatom : Everywhere P (do
      return .array (gather s kind b.isPredicate (← allOk (fns.mapIdx fun k f => f (s.sub k) x)))
      : Result Value) := by
    refine everywhere_bind (everywhere_allOk fun r hr => ?_) fun vs _ hvs =>
      (everywhere_array _).2 (hP.gathered s kind b.isPredicate hvs)
    obtain ⟨i, hi, rfl⟩ := List.mem_mapIdx.1 hr
    exact hfns _ (List.getElem_mem hi) _ _ hx
  cases x with
  | array a =>
    exact everywhere_bind (hP.pairs hfns b s ((everywhere_array a).1 hx)) fun c _ hc =>
      (everywhere_array c).2 hc
  | dict t d =>
    obtain ⟨-, hk, hv⟩ := (everywhere_dict ..).1 hx
    exact everywhere_bind (hP.pairs hfns b (s.sub 0) hv) fun c _ hc => hP.withVals s hk hc
  | _ => exact hatom

theorem overVals (b : Builtin) (s : Site) {d : Dict Value} {x : Value}
    (hkeys : Everywhere P d.keys) (hx : Everywhere P x) :
    Everywhere P (b.overVals d fns s x) := by
  refine everywhere_bind (hP.overArray hfns b d.vals.kind (s.sub 0) hx) fun v _ hv => ?_
  split
  · exact hP.withVals s hkeys ((everywhere_array _).1 hv)
  · exact everywhere_error_of_cause rfl

end FromLeft

/-- The functions of the elements are carried along, because a dictionary uses those of its
values. -/
theorem withRight_and_elements (b : Builtin) {y : Value} (hy : Everywhere P y) :
    (withRight b y).Maintains P ∧
      ∀ c, y = .array c → ∀ f ∈ withRightElements b c, f.Maintains P := by
  have hcarry (y : Value) :
      FromLeft.Maintains P fun s x => x.carry b.isPredicate (b.onAtoms · y) s :=
    fun s x hx => hP.carry b.isPredicate (everywhere_onAtoms b · y) hx s
  induction y using Value.nest_induction with
  | leaf y hleaf =>
    refine ⟨?_, fun c hc => by subst hc; cases hleaf⟩
    cases y <;> first | exact hcarry _ | cases hleaf
  | error t v => exact ⟨hcarry _, nofun⟩
  | array c ih =>
    have hc : Everywhere P c := (everywhere_array c).1 hy
    have helements : ∀ f ∈ withRightElements b c, f.Maintains P := by
      intro f hf
      rw [withRightElements_eq_map] at hf
      obtain ⟨v, hv, rfl⟩ := List.mem_map.1 hf
      cases c with
      | list w =>
        exact (ih v (List.mem_of_mem_drop (List.mem_of_mem_take hv))
          (everywhere_iff_forall.1 (everywhere_values hc) v hv)).1
      | _ w =>
        obtain ⟨x, -, rfl⟩ := List.mem_map.1 hv
        exact hcarry _
    exact ⟨fun s x hx => hP.overArray helements b _ s hx, by rintro _ ⟨⟩; exact helements⟩
  | dict t keys vals ihk ihv =>
    obtain ⟨-, hkeys, hvals⟩ := (everywhere_dict ..).1 hy
    have helements := (ihv ((everywhere_array _).2 hvals)).2 vals rfl
    refine ⟨fun s x hx => ?_, nofun⟩
    cases x with
    | dict u l => exact hP.mergeBy s helements hx hy
    | _ => exact hP.overVals helements b s hkeys hx

theorem withRight (b : Builtin) {y : Value} (hy : Everywhere P y) :
    (withRight b y).Maintains P := (hP.withRight_and_elements b hy).1

/-! ## The operators -/

theorem singleton (s : Site) {x : Value} (hx : Everywhere P x) :
    Everywhere P (Arr.singleton s x) := hP.ofValues s (everywhere_singleton.2 hx)

theorem reverse (s : Site) {x : Value} (hx : Everywhere P x) : Everywhere P (x.reverse s) := by
  cases x with
  | array a =>
    exact everywhere_bind (hP.select s _ ((everywhere_array a).1 hx)) fun b _ hb =>
      (everywhere_array b).2 hb
  | _ => exact hx

theorem join (s : Site) {x y : Value} (hx : Everywhere P x) (hy : Everywhere P y) :
    Everywhere P (x.join s y) := by
  unfold Value.join
  split
  · rename_i u l t r
    refine hP.mergeBy s (fun f hf => ?_) hx hy
    obtain ⟨v, hv, rfl⟩ := List.mem_map.1 hf
    obtain ⟨-, -, hvals⟩ := (everywhere_dict ..).1 hy
    exact fun s x hx => everywhere_iff_forall.1 (everywhere_values hvals) v hv
  · exact (everywhere_array _).2
      (hP.concat s ((everywhere_array _).1 hx) ((everywhere_array _).1 hy))
  · exact (everywhere_array _).2
      (hP.concat s ((everywhere_array _).1 hx) (hP.singleton (s.sub 0) hy))
  · exact (everywhere_array _).2
      (hP.concat s (hP.singleton (s.sub 0) hx) ((everywhere_array _).1 hy))
  · exact (everywhere_array _).2
      (hP.ofValues s ((everywhere_cons ..).2 ⟨hx, everywhere_singleton.2 hy⟩))

theorem monadic (b : Builtin) (s : Site) {x : Value} (hx : Everywhere P x) :
    Everywhere P (b.monadic s x) := by
  unfold Builtin.monadic
  split
  · exact hx
  · exact hx
  · exact hP.carry false everywhere_negateAtom hx s
  · change Everywhere P (Builtin.not.monadic s x)
    rw [Builtin.monadic_not]
    exact hP.carry true everywhere_isZeroAtom hx s
  · exact (everywhere_array _).2 (hP.singleton s hx)
  · exact hP.reverse s hx
  · exact everywhere_error_of_cause rfl

theorem dyadic (b : Builtin) (s : Site) {x y : Value} (hx : Everywhere P x)
    (hy : Everywhere P y) : Everywhere P (b.dyadic s x y) := by
  unfold Builtin.dyadic
  split
  · exact hy
  · exact hy
  · exact everywhere_int _
  · exact hP.join s hx hy
  · exact hP.withRight b hy s x hx

end ClosedUnderOperators

end SharedArrays
