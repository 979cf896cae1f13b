import SharedArrays.Proofs.Alike.Arrays

/-!
# Equality of values is an equivalence

Two arrays are equal when their elements are equal in pairs, whatever their variants. From this
follows, by induction over the nesting of values, that equality is symmetric and transitive, and
that equal values have one digest. An index of keys can therefore sort them by their digests
without missing a key that is equal to the one it looks for.

## Main definitions

* `Pointwise` — two lists that are related place by place

## Main results

* `Arr.eqv_eq`, `Arr.digest_eq` — the variant of an array does not matter
* `eqv_refl`, `eqv_comm`, `eqv_trans` — equality is an equivalence
* `digest_eq_of_eqv` — equal values have one digest
-/

namespace SharedArrays

/-! ## Lists related place by place -/

/-- The lists have one length, and the relation holds at each place. -/
def Pointwise {α β : Type} (R : α → β → Prop) (us : List α) (vs : List β) : Prop :=
  us.length = vs.length ∧
    ∀ (i : Nat) (u : α) (v : β), us[i]? = some u → vs[i]? = some v → R u v

section Pointwise

variable {α β γ : Type} {R : α → β → Prop} {us : List α} {vs : List β}

theorem pointwise_nil_left : Pointwise R [] vs ↔ vs = [] := by
  constructor
  · intro h
    exact List.eq_nil_of_length_eq_zero h.1.symm
  · rintro rfl
    exact ⟨rfl, fun i u v hu => by cases hu⟩

theorem pointwise_cons {u : α} {v : β} :
    Pointwise R (u :: us) (v :: vs) ↔ R u v ∧ Pointwise R us vs := by
  constructor
  · rintro ⟨hlen, hall⟩
    refine ⟨hall 0 u v rfl rfl, Nat.succ.inj hlen, fun i x y hx hy => ?_⟩
    exact hall (i + 1) x y hx hy
  · rintro ⟨huv, hlen, hall⟩
    refine ⟨congrArg (· + 1) hlen, fun i x y hx hy => ?_⟩
    cases i with
    | zero =>
      cases hx
      cases hy
      exact huv
    | succ i => exact hall i x y hx hy

theorem Pointwise.exists_right (h : Pointwise R us vs) {i : Nat} {u : α} (hu : us[i]? = some u) :
    ∃ v, vs[i]? = some v ∧ R u v := by
  have hi : i < vs.length := h.1 ▸ (List.getElem?_eq_some_iff.1 hu).1
  have hv : vs[i]? = some vs[i] := List.getElem?_eq_getElem hi
  exact ⟨_, hv, h.2 i u _ hu hv⟩

theorem Pointwise.imp_of_mem {S : α → β → Prop} (h : Pointwise R us vs)
    (hRS : ∀ u ∈ us, ∀ v, R u v → S u v) : Pointwise S us vs :=
  ⟨h.1, fun i u v hu hv => hRS u (List.mem_of_getElem? hu) v (h.2 i u v hu hv)⟩

theorem Pointwise.flip {S : β → α → Prop} (h : Pointwise R us vs)
    (hRS : ∀ u ∈ us, ∀ v, R u v → S v u) : Pointwise S vs us :=
  ⟨h.1.symm, fun i v u hv hu => hRS u (List.mem_of_getElem? hu) v (h.2 i u v hu hv)⟩

theorem Pointwise.trans {S : β → γ → Prop} {T : α → γ → Prop} {ws : List γ}
    (h : Pointwise R us vs) (h' : Pointwise S vs ws)
    (hRST : ∀ u ∈ us, ∀ v w, R u v → S v w → T u w) : Pointwise T us ws := by
  refine ⟨h.1.trans h'.1, fun i u w hu hw => ?_⟩
  obtain ⟨v, hv, huv⟩ := h.exists_right hu
  exact hRST u (List.mem_of_getElem? hu) v w huv (h'.2 i v w hv hw)

theorem pointwise_of_forall {R : α → α → Prop} {us : List α} (h : ∀ u ∈ us, R u u) :
    Pointwise R us us := by
  refine ⟨rfl, fun i u v hu hv => ?_⟩
  cases hu.symm.trans hv
  exact h u (List.mem_of_getElem? hu)

/-- A relation between the elements of a list passes to a list that is related place by place. -/
theorem Pointwise.pairwise (h : Pointwise R us vs) {S : α → α → Prop} {T : β → β → Prop}
    (hus : us.Pairwise S) (hST : ∀ u v u' v', R u v → R u' v' → S u u' → T v v') :
    vs.Pairwise T := by
  rw [List.pairwise_iff_getElem] at hus ⊢
  intro i j hi hj hij
  have hi' : i < us.length := h.1 ▸ hi
  have hj' : j < us.length := h.1 ▸ hj
  have hat {k : Nat} (hk : k < us.length) (hk' : k < vs.length) : R us[k] vs[k] :=
    h.2 k _ _ (List.getElem?_eq_getElem hk) (List.getElem?_eq_getElem hk')
  exact hST _ _ _ _ (hat hi' hi) (hat hj' hj) (hus i j hi' hj' hij)

theorem pointwise_set {R : α → α → Prop} (hrefl : ∀ x, R x x) {xs : List α} {i : Nat}
    {old new : α} (hold : xs[i]? = some old) (h : R old new) : Pointwise R xs (xs.set i new) := by
  refine ⟨(List.length_set ..).symm, fun j u v hu hv => ?_⟩
  have hj := (List.getElem?_eq_some_iff.1 hu).1
  by_cases hij : i = j
  · subst hij
    rw [List.getElem?_set_self hj] at hv
    cases hv
    cases hold.symm.trans hu
    exact h
  · rw [List.getElem?_set_ne hij] at hv
    cases hu.symm.trans hv
    exact hrefl u

end Pointwise

/-! ## Arrays and their elements -/

/-- Elements that are stored without a tag contain no further values. -/
theorem isLeaf_of_mem_values {a : Arr Value} (ha : a.kind ≠ .list) {v : Value}
    (hv : v ∈ a.values) : v.isLeaf = true := by
  cases a with
  | list w => exact absurd rfl ha
  | _ w =>
    obtain ⟨x, -, rfl⟩ := List.mem_map.1 hv
    rfl

/-- Induction over the nesting of arrays, dictionaries and error values. A statement about an
array may assume the statement about its elements, tagged or not. -/
theorem Value.elements_induction {motive : Value → Prop}
    (leaf : ∀ v : Value, v.isLeaf → motive v)
    (array : ∀ a : Arr Value, (∀ v ∈ a.values, motive v) → motive (.array a))
    (dict : ∀ s keys vals, motive (.array keys) → motive (.array vals) →
      motive (.dict s ⟨keys, vals⟩))
    (error : ∀ s v, motive v → motive (.error s v)) (v : Value) : motive v := by
  induction v using Value.nest_induction with
  | leaf v hleaf => exact leaf v hleaf
  | dict s keys vals ihk ihv => exact dict s keys vals ihk ihv
  | error s v ih => exact error s v ih
  | array a ih =>
    refine array a fun v hv => ?_
    cases a with
    | list w => exact ih v (Window.mem_of_mem_items hv)
    | _ w => exact leaf v (isLeaf_of_mem_values (by simp [Arr.kind]) hv)

theorem eqv_of_isLeaf {u : Value} (hu : u.isLeaf = true) (v : Value) : u.eqv v = u.eqvAtom v := by
  cases u <;> first | rfl | cases hu

theorem digest_of_isLeaf {u : Value} (hu : u.isLeaf = true) : u.digest = u.digestAtom := by
  cases u <;> first | rfl | cases hu

/-- Arrays are compared by their elements, whatever their variants. -/
theorem Arr.eqv_eq (a b : Arr Value) : a.eqv b = allPass (a.values.map Value.eqv) b.values := by
  cases a with
  | list w => exact Arr.eqv_list w b
  | _ w =>
    refine congrArg (allPass · b.values) (List.map_congr_left fun u hu => funext fun v => ?_)
    exact (eqv_of_isLeaf (isLeaf_of_mem_values (by simp [Arr.kind]) hu) v).symm

/-- The digest of an array is made of its elements, whatever its variant. -/
theorem Arr.digest_eq (a : Arr Value) :
    a.digest = a.values.length :: (a.values.map Value.digest).flatten := by
  cases a with
  | list w => exact Arr.digest_list w
  | _ w =>
    refine congrArg (fun ds => _ :: List.flatten ds) (List.map_congr_left fun u hu => ?_)
    exact (digest_of_isLeaf (isLeaf_of_mem_values (by simp [Arr.kind]) hu)).symm

theorem allPass_iff {test : Value → Value → Bool} {us vs : List Value} :
    allPass (us.map test) vs = true ↔ Pointwise (fun u v => test u v = true) us vs := by
  induction us generalizing vs with
  | nil =>
    rw [pointwise_nil_left]
    cases vs <;> simp [allPass]
  | cons u us ih =>
    cases vs with
    | nil => simp [allPass, Pointwise]
    | cons v vs => rw [pointwise_cons, ← ih, List.map_cons, allPass, Bool.and_eq_true]

theorem Arr.eqv_iff {a b : Arr Value} :
    a.eqv b = true ↔ Pointwise (fun u v => u.eqv v = true) a.values b.values := by
  rw [Arr.eqv_eq, allPass_iff]

theorem dictEqv_iff {s t : Site} {d e : Dict Value} :
    (Value.dict s d).eqv (.dict t e) = true ↔
      d.keys.eqv e.keys = true ∧ d.vals.eqv e.vals = true :=
  Bool.and_eq_true_iff

/-! ## An equivalence -/

theorem eqv_refl (v : Value) : v.eqv v = true := (Alike.refl v).eqv

theorem eqvAtom_symm {u v : Value} (h : u.eqvAtom v = true) : v.eqvAtom u = true := by
  cases u <;> cases v <;> first | exact h | exact BEq.symm h

theorem isLeaf_of_eqvAtom {u v : Value} (h : u.eqvAtom v = true) : v.isLeaf = true := by
  cases v <;> first | rfl | (cases u <;> cases h)

theorem eqv_symm {u v : Value} (h : u.eqv v = true) : v.eqv u = true := by
  -- A value that equals `u` has its form: the cases of other forms close at once.
  induction u using Value.elements_induction generalizing v with
  | leaf u hleaf =>
    rw [eqv_of_isLeaf hleaf] at h
    rw [eqv_of_isLeaf (isLeaf_of_eqvAtom h)]
    exact eqvAtom_symm h
  | error s u ih =>
    cases v with
    | error t v => exact ih h
    | _ => cases h
  | dict s keys vals ihk ihv =>
    cases v with
    | dict t e =>
      obtain ⟨hk, hv⟩ := dictEqv_iff.1 h
      exact dictEqv_iff.2 ⟨@ihk (.array e.keys) hk, @ihv (.array e.vals) hv⟩
    | _ => cases h
  | array a ih =>
    cases v with
    | array b =>
      exact Arr.eqv_iff.2 ((Arr.eqv_iff.1 h).flip fun u hu v huv => ih u hu huv)
    | _ => cases h

theorem eqv_comm (u v : Value) : u.eqv v = v.eqv u :=
  Bool.eq_iff_iff.2 ⟨eqv_symm, eqv_symm⟩

/-- Equal atoms answer alike when they are compared with a third value. -/
theorem eqvAtom_left_congr {u v : Value} (h : u.eqvAtom v = true) (w : Value) :
    u.eqvAtom w = v.eqvAtom w := by
  -- Atoms of two forms are not equal, so the cases that remain have `u` and `v` of one form.
  cases u <;> cases v <;> first | rfl | cases h | skip
  all_goals cases w <;> first | rfl | exact congrArg (· == _) (eq_of_beq h)

theorem eqv_trans {u v w : Value} (huv : u.eqv v = true) (hvw : v.eqv w = true) :
    u.eqv w = true := by
  -- The forms of `v` and then of `w` are that of `u`, and their parts are compared in turn.
  induction u using Value.elements_induction generalizing v w with
  | leaf u hleaf =>
    rw [eqv_of_isLeaf hleaf] at huv ⊢
    rw [eqv_of_isLeaf (isLeaf_of_eqvAtom huv)] at hvw
    exact (eqvAtom_left_congr huv w).trans hvw
  | error s u ih =>
    cases v with
    | error t v =>
      cases w with
      | error t' w => exact ih huv hvw
      | _ => cases hvw
    | _ => cases huv
  | dict s keys vals ihk ihv =>
    cases v with
    | dict t e =>
      cases w with
      | dict t' e' =>
        obtain ⟨hk, hv⟩ := dictEqv_iff.1 huv
        obtain ⟨hk', hv'⟩ := dictEqv_iff.1 hvw
        exact dictEqv_iff.2 ⟨@ihk (.array e.keys) (.array e'.keys) hk hk',
          @ihv (.array e.vals) (.array e'.vals) hv hv'⟩
      | _ => cases hvw
    | _ => cases huv
  | array a ih =>
    cases v with
    | array b =>
      cases w with
      | array c =>
        refine Arr.eqv_iff.2 ((Arr.eqv_iff.1 huv).trans (Arr.eqv_iff.1 hvw) ?_)
        exact fun u hu v w huv hvw => ih u hu huv hvw
      | _ => cases hvw
    | _ => cases huv

/-- Equal values answer alike when they are compared with a third one. -/
theorem eqv_left_congr {u v : Value} (h : u.eqv v = true) (w : Value) : u.eqv w = v.eqv w :=
  Bool.eq_iff_iff.2 ⟨eqv_trans (eqv_symm h), eqv_trans h⟩

theorem eqv_right_congr {u v : Value} (h : u.eqv v = true) (w : Value) : w.eqv u = w.eqv v := by
  rw [eqv_comm w u, eqv_comm w v, eqv_left_congr h]

/-- Equal values that are numbers or strings are the same. -/
theorem eq_of_eqv_of_atomKind {u v : Value} (h : u.eqv v = true) (hu : u.atomKind ≠ .list) :
    u = v := by
  cases u with
  | int m => cases v <;> first | exact congrArg Value.int (eq_of_beq h) | cases h
  | float x => cases v <;> first | exact congrArg Value.float (Double.ext (eq_of_beq h)) | cases h
  | str s => cases v <;> first | exact congrArg Value.str (eq_of_beq h) | cases h
  | _ => exact absurd rfl hu

theorem atomKind_eq_of_eqv {u v : Value} (h : u.eqv v = true) : u.atomKind = v.atomKind := by
  cases u <;> cases v <;> first | rfl | cases h

/-! ## Digests -/

theorem digestAtom_eq_of_eqvAtom {u v : Value} (h : u.eqvAtom v = true) :
    u.digestAtom = v.digestAtom := by
  cases u <;> cases v <;>
    first | rfl | simp only [Value.digestAtom, eq_of_beq h] | cases h

/-- Equal values have one digest. -/
theorem digest_eq_of_eqv {u v : Value} (h : u.eqv v = true) : u.digest = v.digest := by
  induction u using Value.elements_induction generalizing v with
  | leaf u hleaf =>
    rw [eqv_of_isLeaf hleaf] at h
    rw [digest_of_isLeaf hleaf, digest_of_isLeaf (isLeaf_of_eqvAtom h)]
    exact digestAtom_eq_of_eqvAtom h
  | error s u ih =>
    cases v with
    | error t v => exact congrArg (10 :: ·) (ih h)
    | _ => cases h
  | dict s keys vals ihk _ =>
    cases v with
    | dict t e =>
      -- The values of a dictionary do not enter its digest.
      have hk : Value.digest (.array keys) = Value.digest (.array e.keys) :=
        ihk (dictEqv_iff.1 h).1
      exact congrArg (7 :: ·) (List.cons.inj hk).2
    | _ => cases h
  | array a ih =>
    cases v with
    | array b =>
      obtain ⟨hlen, hall⟩ := Arr.eqv_iff.1 h
      have hdigests : a.values.map Value.digest = b.values.map Value.digest := by
        refine List.ext_getElem (by simpa using hlen) fun i hi hi' => ?_
        rw [List.length_map] at hi hi'
        rw [List.getElem_map, List.getElem_map]
        exact ih _ (List.getElem_mem hi) (hall i _ _ (List.getElem?_eq_getElem hi)
          (List.getElem?_eq_getElem hi'))
      show 6 :: a.digest = 6 :: b.digest
      rw [Arr.digest_eq, Arr.digest_eq, hdigests, hlen]
    | _ => cases h

end SharedArrays
