import SharedArrays.Proofs.Equality
import SharedArrays.Proofs.Store.Session

/-!
# Comparing values with shortcuts

A program that compares values takes shortcuts. Dictionaries and error values that are one
object count as equal without a look inside. Arrays of different numbers of elements count as
different before an element is read. Two arrays of truth values, of integers or of strings are
compared as they are stored, without making values of their elements.

None of this can be observed. Values that lie in one store carry the same content wherever they
refer to the same object, and a value equals itself; so the shortcuts give the answer that the
comparison by elements gives.

## Main definitions

* `Value.quickEqv`, `Arr.quickEqv` — equality with the shortcuts

## Main results

* `quickEqv_eq_eqv` — in a store the shortcuts do not change the answer
* `Session.Reachable.quickEqv_eq` — neither do they between the registers of a session
* `equality_blind_to_storage` — equality is an equivalence on elements, and digests respect it
-/

namespace SharedArrays

/-- Each value passes the test at its place. Tests or values beyond the shorter list are left
out. -/
def passInPairs {α : Type} (tests : List (α → Bool)) (vs : List α) : Bool :=
  (tests.zip vs).all fun p => p.1 p.2

/-- Equality of arrays with equally many elements, where the left one is no list. Arrays of one
variant are compared as they are stored, except for floats. -/
def Arr.untaggedEqv : Arr Value → Arr Value → Bool
  | .bools v, .bools w => v.items == w.items
  | .ints v, .ints w => v.items == w.items
  | .strs v, .strs w => v.items == w.items
  | a, b => passInPairs (a.values.map Value.eqvAtom) b.values

mutual

/-- Equality of values with shortcuts: objects are compared by their names first. -/
def Value.quickEqv : Value → Value → Bool
  | .array a, w => w.array?.any a.quickEqv
  | .dict s ⟨keys, vals⟩, w =>
    match w with
    | .dict t d => s == t || (keys.quickEqv d.keys && vals.quickEqv d.vals)
    | _ => false
  | .error s v, w =>
    match w with
    | .error t w => s == t || v.quickEqv w
    | _ => false
  | v, w => v.eqvAtom w

/-- Equality of arrays with shortcuts: the numbers of elements are compared first. -/
def Arr.quickEqv : Arr Value → Arr Value → Bool
  | .list ⟨_, buf, off, len, _⟩, b =>
    len == b.len && passInPairs (stretch off len (quickTests buf)) b.values
  | a, b => a.len == b.len && a.untaggedEqv b

/-- For each value the test whether another one equals it. -/
def quickTests : List Value → List (Value → Bool)
  | [] => []
  | v :: vs => v.quickEqv :: quickTests vs

end

/-! ## Tests in pairs -/

section Tests

variable {α β : Type}

theorem allPass_eq_false_of_length_ne {tests : List (α → Bool)} {vs : List α}
    (h : tests.length ≠ vs.length) : allPass tests vs = false := by
  induction tests generalizing vs with
  | nil =>
    cases vs with
    | nil => exact absurd rfl h
    | cons v vs => rfl
  | cons test tests ih =>
    cases vs with
    | nil => rfl
    | cons v vs => rw [allPass, ih fun hlen => h (congrArg (· + 1) hlen), Bool.and_false]

theorem passInPairs_eq_allPass {tests : List (α → Bool)} {vs : List α}
    (h : tests.length = vs.length) : passInPairs tests vs = allPass tests vs := by
  induction tests generalizing vs with
  | nil => rw [List.eq_nil_of_length_eq_zero h.symm]; rfl
  | cons test tests ih =>
    cases vs with
    | nil => cases h
    | cons v vs => exact congrArg (test v && ·) (ih (Nat.succ.inj h))

/-- Looking at the lengths first is no more than a shortcut. -/
theorem length_and_passInPairs (tests : List (α → Bool)) (vs : List α) :
    (tests.length == vs.length && passInPairs tests vs) = allPass tests vs := by
  by_cases h : tests.length = vs.length
  · rw [beq_iff_eq.2 h, Bool.true_and, passInPairs_eq_allPass h]
  · rw [beq_false_of_ne h, Bool.false_and, allPass_eq_false_of_length_ne h]

/-- If a tag does not change what is equal, the tagged elements can be compared without it. -/
theorem allPass_map_tag [BEq β] {tag : β → α} {test : α → α → Bool}
    (htag : ∀ x y, test (tag x) (tag y) = (x == y)) (xs ys : List β) :
    allPass ((xs.map tag).map test) (ys.map tag) = (xs == ys) := by
  induction xs generalizing ys with
  | nil => cases ys <;> rfl
  | cons x xs ih =>
    cases ys with
    | nil => rfl
    | cons y ys =>
      show (test (tag x) (tag y) && allPass ((xs.map tag).map test) (ys.map tag)) = _
      rw [htag, ih, List.cons_beq_cons]

theorem allPass_congr {test test' : α → α → Bool} {us vs : List α}
    (h : ∀ u ∈ us, ∀ v ∈ vs, test u v = test' u v) :
    allPass (us.map test) vs = allPass (us.map test') vs := by
  induction us generalizing vs with
  | nil => rfl
  | cons u us ih =>
    cases vs with
    | nil => rfl
    | cons v vs =>
      have hhead : test u v = test' u v := h u (List.mem_cons_self ..) v (List.mem_cons_self ..)
      have htail : allPass (us.map test) vs = allPass (us.map test') vs :=
        ih fun x hx y hy => h x (List.mem_cons_of_mem u hx) y (List.mem_cons_of_mem v hy)
      rw [List.map_cons, List.map_cons, allPass, allPass, hhead, htail]

end Tests

/-! ## The answer by elements -/

theorem quickTests_eq_map (vs : List Value) : quickTests vs = vs.map Value.quickEqv := by
  induction vs with
  | nil => rfl
  | cons v vs ih => simp [quickTests, ih]

theorem Arr.quickEqv_list (w : Window Value) (b : Arr Value) :
    (Arr.list w).quickEqv b =
      (w.len == b.len && passInPairs (w.items.map Value.quickEqv) b.values) := by
  obtain ⟨s, buf, off, len, flags⟩ := w
  rw [Arr.quickEqv, quickTests_eq_map, stretch_map]
  rfl

theorem Arr.quickEqv_of_not_list {a : Arr Value} (ha : a.kind ≠ .list) (b : Arr Value) :
    a.quickEqv b = (a.len == b.len && a.untaggedEqv b) := by
  cases a with
  | list w => exact absurd rfl ha
  | _ w => rfl

theorem bool_tag_eqv (x y : Bool) :
    Value.eqvAtom (.int (if x then 1 else 0)) (.int (if y then 1 else 0)) = (x == y) := by
  cases x <;> cases y <;> rfl

/-- For arrays with equally many elements the comparison without tags is that by elements. -/
theorem Arr.untaggedEqv_eq {a b : Arr Value} (h : a.values.length = b.values.length) :
    a.untaggedEqv b = allPass (a.values.map Value.eqvAtom) b.values := by
  unfold Arr.untaggedEqv
  split
  · exact (allPass_map_tag bool_tag_eqv _ _).symm
  · have htag (x y : Int64) : Value.eqvAtom (.int x) (.int y) = (x == y) := rfl
    exact (allPass_map_tag htag _ _).symm
  · have htag (x y : String) : Value.eqvAtom (.str x) (.str y) = (x == y) := rfl
    exact (allPass_map_tag htag _ _).symm
  · exact passInPairs_eq_allPass ((List.length_map _).trans h)

theorem Arr.eqv_of_not_list {a : Arr Value} (ha : a.kind ≠ .list) (b : Arr Value) :
    a.eqv b = allPass (a.values.map Value.eqvAtom) b.values := by
  cases a with
  | list w => exact absurd rfl ha
  | _ w => rfl

theorem Arr.quickEqv_eq_eqv {a b : Arr Value} (ha : a.InBounds) (hb : b.InBounds)
    (h : ∀ u ∈ a.values, ∀ v ∈ b.values, u.quickEqv v = u.eqv v) :
    a.quickEqv b = a.eqv b := by
  by_cases hkind : a.kind = .list
  · cases a with
    | list w =>
      have hlen : w.len = (w.items.map Value.quickEqv).length :=
        (Arr.length_values ha).symm.trans (List.length_map _).symm
      rw [Arr.quickEqv_list, Arr.eqv_list, ← Arr.length_values hb, hlen, length_and_passInPairs]
      exact allPass_congr h
    | _ w => cases hkind
  · rw [Arr.quickEqv_of_not_list hkind, Arr.eqv_of_not_list hkind, ← Arr.length_values ha,
      ← Arr.length_values hb]
    by_cases hlen : a.values.length = b.values.length
    · rw [Arr.untaggedEqv_eq hlen, beq_iff_eq.2 hlen, Bool.true_and]
    · have hne : (a.values.map Value.eqvAtom).length ≠ b.values.length := by
        rwa [List.length_map]
      rw [beq_false_of_ne hlen, Bool.false_and, allPass_eq_false_of_length_ne hne]

theorem eqv_of_same_object {st : Store} {u v : Value} {s : Site} {o o' : Object}
    (hu : u.target? = some (s, o)) (hv : v.target? = some (s, o')) (hust : u.ShownBy st)
    (hvst : v.ShownBy st) : o = o' :=
  Option.some.inj ((hust s o hu).symm.trans (hvst s o' hv))

/-- Between values that lie in one store, the shortcuts do not change the answer. -/
theorem quickEqv_eq_eqv {st : Store} {u v : Value} (hu : LiesIn st u) (hv : LiesIn st v)
    (hwu : WellFormed u) (hwv : WellFormed v) : u.quickEqv v = u.eqv v := by
  induction u using Value.elements_induction generalizing v with
  | leaf u hleaf =>
    rw [eqv_of_isLeaf hleaf]
    cases u <;> first | rfl | cases hleaf
  | array a ih =>
    cases v with
    | array b =>
      refine Arr.quickEqv_eq_eqv (WellFormed.inBounds hwu) (WellFormed.inBounds hwv) ?_
      intro x hx y hy
      exact ih x hx (everywhere_iff_forall.1 (everywhere_values hu) x hx)
        (everywhere_iff_forall.1 (everywhere_values hv) y hy)
        (everywhere_iff_forall.1 (everywhere_values hwu) x hx)
        (everywhere_iff_forall.1 (everywhere_values hwv) y hy)
    | _ => rfl
  | dict s keys vals ihk ihv =>
    cases v with
    | dict t e =>
      obtain ⟨hu, huk, huv⟩ := (everywhere_dict ..).1 hu
      obtain ⟨hv, hvk, hvv⟩ := (everywhere_dict ..).1 hv
      obtain ⟨-, hwuk, hwuv⟩ := wellFormed_dict.1 hwu
      obtain ⟨-, hwvk, hwvv⟩ := wellFormed_dict.1 hwv
      have hkeys : keys.quickEqv e.keys = keys.eqv e.keys :=
        @ihk (.array e.keys) huk hvk hwuk hwvk
      have hvals : vals.quickEqv e.vals = vals.eqv e.vals :=
        @ihv (.array e.vals) huv hvv hwuv hwvv
      show (s == t || (keys.quickEqv e.keys && vals.quickEqv e.vals)) =
        (keys.eqv e.keys && vals.eqv e.vals)
      rw [hkeys, hvals]
      by_cases hst : s = t
      · subst hst
        -- One object has one content in the store, and a content equals itself.
        cases Object.dict.inj (eqv_of_same_object rfl rfl hu hv)
        have hself := dictEqv_iff.1 (eqv_refl (.dict s ⟨keys, vals⟩))
        rw [hself.1, hself.2, Bool.and_self, Bool.or_true]
      · rw [beq_false_of_ne hst, Bool.false_or]
    | _ => rfl
  | error s u ih =>
    cases v with
    | error t v =>
      obtain ⟨hu, hu'⟩ := (everywhere_errorValue ..).1 hu
      obtain ⟨hv, hv'⟩ := (everywhere_errorValue ..).1 hv
      have hwu' := ((everywhere_errorValue ..).1 hwu).2
      have hwv' := ((everywhere_errorValue ..).1 hwv).2
      show (s == t || u.quickEqv v) = u.eqv v
      rw [ih hu' hv' hwu' hwv']
      by_cases hst : s = t
      · subst hst
        cases Object.error.inj (eqv_of_same_object rfl rfl hu hv)
        rw [eqv_refl, Bool.or_true]
      · rw [beq_false_of_ne hst, Bool.false_or]
    | _ => rfl

/-- Between the registers of a session the shortcuts do not change the answer. -/
theorem Session.Reachable.quickEqv_eq {σ : Session} (h : σ.Reachable) {u v : Value}
    (hu : u ∈ σ.registers.contents) (hv : v ∈ σ.registers.contents) :
    u.quickEqv v = u.eqv v := by
  obtain ⟨st, hσ⟩ := h.exists_backed
  have hlies := everywhere_iff_forall.1 hσ.contents
  have hfits := everywhere_iff_forall.1 h.wellFormed
  exact quickEqv_eq_eqv (hlies u hu) (hlies v hv) (hfits u hu) (hfits v hv)

/-! ## The laws of equality -/

/-- Arrays are equal when they have equally many elements, equal at each position. -/
theorem Arr.eqv_iff_at? {a b : Arr Value} (ha : a.InBounds) (hb : b.InBounds) :
    a.eqv b = true ↔
      a.len = b.len ∧ ∀ i x y, a.at? i = some x → b.at? i = some y → x.eqv y = true := by
  rw [Arr.eqv_iff, ← Arr.length_values ha, ← Arr.length_values hb]
  exact Iff.rfl

/-- Equality is an equivalence, and equal values have one digest. Floats are equal by their bits
and arrays by their elements, whatever their variants and windows. The shortcuts of a program
that keeps its values in a store do not change the answer. -/
theorem equality_blind_to_storage (u v w : Value) :
    u.eqv u = true ∧
      u.eqv v = v.eqv u ∧
      (u.eqv v = true → v.eqv w = true → u.eqv w = true) ∧
      (u.eqv v = true → u.digest = v.digest) ∧
      (∀ x y, u = .float x → v = .float y → (u.eqv v = true ↔ x.bits = y.bits)) ∧
      (∀ a b, u = .array a → v = .array b → a.InBounds → b.InBounds →
        (u.eqv v = true ↔
          a.len = b.len ∧ ∀ i x y, a.at? i = some x → b.at? i = some y → x.eqv y = true)) ∧
      ∀ st, LiesIn st [u, v] → WellFormed [u, v] → u.quickEqv v = u.eqv v := by
  refine ⟨eqv_refl u, eqv_comm u v, eqv_trans, digest_eq_of_eqv, ?floats, ?arrays, ?shortcuts⟩
  case floats =>
    rintro x y rfl rfl
    exact beq_iff_eq
  case arrays =>
    rintro a b rfl rfl ha hb
    exact Arr.eqv_iff_at? ha hb
  case shortcuts =>
    intro st hlies hfits
    have hlies := everywhere_iff_forall.1 hlies
    have hfits := everywhere_iff_forall.1 hfits
    exact quickEqv_eq_eqv (hlies u (by simp)) (hlies v (by simp)) (hfits u (by simp))
      (hfits v (by simp))

/-- Truth values in a part of their buffer, and the same numbers as integers and as a list, are
the values of equal dictionaries. A dictionary is compared with itself by its name. A NaN equals
itself, and differs from the NaN with the other sign. -/
theorem equality_blind_to_storage_variants :
    let bools : Arr Value := .bools ⟨.step 0, [false, true, false], 1, 2, {}⟩
    let ints : Arr Value := .ints (.ofList (.step 1) [1, 0])
    let list : Arr Value := .list (.ofList (.step 2) [.int 1, .int 0])
    let keys : Arr Value := .strs (.ofList (.step 3) ["a", "b"])
    let u : Value := .dict (.step 4) ⟨keys, bools⟩
    let v : Value := .dict (.step 5) ⟨keys, ints⟩
    let w : Value := .dict (.step 6) ⟨keys, list⟩
    let nan : Double := .defaultNaN
    u.eqv w = true ∧ u.digest = w.digest ∧ v.quickEqv v = v.eqv v ∧
      (Value.float nan).eqv (.float nan) = true ∧
      (Value.float (-nan)).eqv (.float nan) = false := by
  intro bools ints list keys u v w nan
  have huv : u.eqv v = true := by decide
  have hvw : v.eqv w = true := by decide
  obtain ⟨-, -, htrans, -⟩ := equality_blind_to_storage u v w
  have huw : u.eqv w = true := htrans huv hvw
  have hself := (equality_blind_to_storage (.float nan) u u).1
  obtain ⟨-, -, -, -, hbits, -⟩ :=
    equality_blind_to_storage (.float (-nan)) (.float nan) (.float nan)
  have hsigns : (Value.float (-nan)).eqv (.float nan) = false :=
    Bool.eq_false_iff.2 fun h => nan.neg_ne_self (Double.ext ((hbits _ _ rfl rfl).1 h))
  refine ⟨huw, (equality_blind_to_storage u w w).2.2.2.1 huw, ?_, hself, hsigns⟩
  obtain ⟨-, -, -, -, -, -, hquick⟩ := equality_blind_to_storage v v v
  let st : Store := fun s =>
    if s = .step 5 then some (.dict ⟨keys, ints⟩)
    else if s = .step 3 then some keys.object
    else if s = .step 1 then some ints.object
    else none
  have hlies : LiesIn st v := by
    refine (everywhere_dict ..).2 ⟨?_, (everywhere_strs _).2 ?_, (everywhere_ints _).2 ?_⟩
    · rintro s o ⟨⟩
      rfl
    · rintro s o ⟨⟩
      rfl
    · rintro s o ⟨⟩
      rfl
  have hfits : WellFormed v := by decide
  exact hquick st (by simp [hlies]) (by simp [hfits])

end SharedArrays
