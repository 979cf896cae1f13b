import SharedArrays.Proofs.Alike.Basic
import SharedArrays.Proofs.WellFormed.Placement

/-!
# Arrays and dictionaries do not see sharing

What reads an array or a dictionary gives the same answers for alike ones, and what writes to
alike ones leaves alike ones, whatever the surroundings are.

## Main results

* `eqv_congr`, `find?_congr`, `positions_congr` — comparing and searching
* `alike_put`, `alike_push`, `alike_canonical` — arrays
* `placement_congr`, `alike_appendKeys` — dictionaries
-/

namespace SharedArrays

/-! ## Values -/

/-- Alike values are of one form; apart from containers and errors they are the same. -/
theorem alike_value_cases {v w : Value} (h : Alike v w) :
    (∃ a b, v = .array a ∧ w = .array b ∧ Alike a b) ∨
      (∃ s t d e, v = .dict s d ∧ w = .dict t e ∧ Alike d e) ∨
      (∃ s t u u', v = .error s u ∧ w = .error t u' ∧ Alike u u') ∨
      (v.isLeaf = true ∧ w = v) := by
  have h : v.bare = w.bare := h
  cases v with
  | array a =>
    cases w with
    | array b => exact .inl ⟨a, b, rfl, rfl, alike_array.1 h⟩
    | _ => cases h
  | dict s d =>
    cases w with
    | dict t e => exact .inr (.inl ⟨s, t, d, e, rfl, rfl, alike_dict.1 h⟩)
    | _ => cases h
  | error s u =>
    cases w with
    | error t u' => exact .inr (.inr (.inl ⟨s, t, u, u', rfl, rfl, (Value.error.inj h).2⟩))
    | _ => cases h
  | _ =>
    cases w with
    | array b => cases h
    | dict t e => cases h
    | error t u' => cases h
    | _ => exact .inr (.inr (.inr ⟨rfl, Eq.symm h⟩))

section Value

variable {v w : Value}

theorem Alike.typeName_eq (h : Alike v w) : v.typeName = w.typeName := by
  rcases alike_value_cases h with ⟨a, b, rfl, rfl, hab⟩ | ⟨s, t, d, e, rfl, rfl, -⟩ |
    ⟨s, t, u, u', rfl, rfl, -⟩ | ⟨-, rfl⟩
  · exact congrArg Kind.name hab.kind_eq
  · rfl
  · rfl
  · rfl

theorem Alike.isContainer_eq (h : Alike v w) : v.isContainer = w.isContainer := by
  rcases alike_value_cases h with ⟨a, b, rfl, rfl, -⟩ | ⟨s, t, d, e, rfl, rfl, -⟩ |
    ⟨s, t, u, u', rfl, rfl, -⟩ | ⟨-, rfl⟩ <;> rfl

theorem Alike.atomKind_eq (h : Alike v w) : v.atomKind = w.atomKind := by
  rcases alike_value_cases h with ⟨a, b, rfl, rfl, -⟩ | ⟨s, t, d, e, rfl, rfl, -⟩ |
    ⟨s, t, u, u', rfl, rfl, -⟩ | ⟨-, rfl⟩ <;> rfl

/-- Alike leaves are the same value. -/
theorem Alike.eq_of_isLeaf (h : Alike v w) (hv : v.isLeaf = true) : w = v := by
  rcases alike_value_cases h with ⟨a, b, rfl, rfl, -⟩ | ⟨s, t, d, e, rfl, rfl, -⟩ |
    ⟨s, t, u, u', rfl, rfl, -⟩ | ⟨-, rfl⟩
  · cases hv
  · cases hv
  · cases hv
  · rfl

theorem isLeaf_of_atomKind (hv : v.atomKind ≠ .list) : v.isLeaf = true := by
  cases v <;> first | rfl | exact absurd rfl hv

end Value

/-! ## Comparing -/

theorem Arr.eqv_list (w : Window Value) (b : Arr Value) :
    (Arr.list w).eqv b = allPass (w.items.map Value.eqv) b.values := by
  have hcells : stretch w.off w.len (eqvFns w.buf) = w.items.map Value.eqv := by
    rw [eqvFns_eq_map, stretch_map]
    rfl
  rw [← hcells]
  rfl

theorem allPass_map_map {us : List Value} {g : Value → Value} {test test' : Value → Value → Bool}
    (h : ∀ u ∈ us, ∀ v : Value, test u (g v) = test' u v) (vs : List Value) :
    allPass (us.map test) (vs.map g) = allPass (us.map test') vs := by
  induction us generalizing vs with
  | nil => cases vs <;> rfl
  | cons u us ih =>
    obtain ⟨hu, hus⟩ := List.forall_mem_cons.1 h
    cases vs with
    | nil => rfl
    | cons v vs =>
      simp only [List.map_cons, allPass, hu, ih hus]

theorem eqvAtom_bare (u v : Value) : u.eqvAtom v.bare = u.eqvAtom v := by
  cases v with
  | array a => cases u <;> rfl
  | dict s d => cases u <;> rfl
  | error s v => cases u <;> rfl
  | _ => rfl

/-- Equality looks at bare values. -/
theorem eqv_bare (u v : Value) : u.bare.eqv v.bare = u.eqv v := by
  induction u using Value.nest_induction generalizing v with
  | leaf u hleaf =>
    cases u <;> first | exact eqvAtom_bare _ v | cases hleaf
  | error s u ih =>
    cases v <;> first | rfl | exact ih _
  | dict s keys vals ihk ihv =>
    cases v with
    | dict t e =>
      have hk : keys.bare.eqv e.keys.bare = keys.eqv e.keys := ihk (.array e.keys)
      have hv : vals.bare.eqv e.vals.bare = vals.eqv e.vals := ihv (.array e.vals)
      show (keys.bare.eqv e.keys.bare && vals.bare.eqv e.vals.bare) = _
      rw [hk, hv]
      rfl
    | _ => rfl
  | array a ih =>
    cases v with
    | array b =>
      show a.bare.eqv b.bare = a.eqv b
      cases a with
      | list w =>
        rw [Arr.bare_list, Arr.eqv_list, Arr.eqv_list, Arr.values_bare, Window.items_ofList,
          List.map_map]
        exact allPass_map_map (fun u hu v => ih u (Window.mem_of_mem_items hu) v) b.values
      | _ w =>
        -- The elements without tags are atoms.
        show allPass (List.map Value.eqvAtom (Arr.values _)) b.bare.values = _
        rw [Arr.values_bare b]
        simp only [Arr.bare, Arr.values, Window.bare, Window.items_ofList]
        exact allPass_map_map (fun u _ v => eqvAtom_bare u v) b.values
    | _ => rfl

theorem eqv_congr {u u' v v' : Value} (hu : Alike u u') (hv : Alike v v') :
    u.eqv v = u'.eqv v' := by
  have hu : u.bare = u'.bare := hu
  have hv : v.bare = v'.bare := hv
  rw [← eqv_bare u v, ← eqv_bare u' v', hu, hv]

theorem allPass_of_forall {us vs : List Value} {test : Value → Value → Bool} (h : Alike us vs)
    (htest : ∀ u ∈ us, ∀ v, Alike u v → test u v = true) : allPass (us.map test) vs = true := by
  induction us generalizing vs with
  | nil =>
    rw [alike_nil.1 h]
    rfl
  | cons u us ih =>
    obtain ⟨v, vs, rfl, huv, h⟩ := h.exists_cons
    obtain ⟨hu, hus⟩ := List.forall_mem_cons.1 htest
    rw [List.map_cons, allPass, hu v huv, ih h hus]
    rfl

theorem eqvAtom_refl {v : Value} (hv : v.isLeaf = true) : v.eqvAtom v = true := by
  cases v <;> first | exact beq_self_eq_true _ | rfl | cases hv

/-- Alike values are equal. -/
theorem Alike.eqv {u v : Value} (h : Alike u v) : u.eqv v = true := by
  rw [eqv_congr (Alike.refl u) h.symm]
  clear h
  induction u using Value.nest_induction with
  | leaf u hleaf => cases u <;> first | exact eqvAtom_refl hleaf | cases hleaf
  | error s u ih => exact ih
  | dict s keys vals ihk ihv =>
    have hk : keys.eqv keys = true := ihk
    have hv : vals.eqv vals = true := ihv
    show (keys.eqv keys && vals.eqv vals) = true
    rw [hk, hv]
    rfl
  | array a ih =>
    show a.eqv a = true
    cases a with
    | list w =>
      rw [Arr.eqv_list]
      refine allPass_of_forall (.refl w.items) fun u hu v huv => ?_
      rw [eqv_congr (Alike.refl u) huv.symm]
      exact ih u (Window.mem_of_mem_items hu)
    | _ w =>
      refine allPass_of_forall (.refl _) fun u hu v huv => ?_
      obtain ⟨x, -, rfl⟩ := List.mem_map.1 hu
      rw [huv.eq_of_isLeaf rfl]
      exact eqvAtom_refl rfl

/-- Arrays with alike elements are equal, whatever their variants. -/
theorem arrEqv_of_values {a b : Arr Value} (h : Alike a.values b.values) : a.eqv b = true := by
  cases a with
  | list w =>
    rw [Arr.eqv_list]
    exact allPass_of_forall h fun u _ v huv => huv.eqv
  | _ w =>
    refine allPass_of_forall h fun u hu v huv => ?_
    obtain ⟨x, -, rfl⟩ := List.mem_map.1 hu
    rw [huv.eq_of_isLeaf rfl]
    exact eqvAtom_refl rfl

theorem dictEqv_of_values {s t : Site} {d e : Dict Value}
    (hkeys : Alike d.keys.values e.keys.values) (hvals : Alike d.vals.values e.vals.values) :
    (Value.dict s d).eqv (.dict t e) = true :=
  Bool.and_eq_true_iff.2 ⟨arrEqv_of_values hkeys, arrEqv_of_values hvals⟩

theorem Arr.digest_list (w : Window Value) :
    (Arr.list w).digest = w.items.length :: (w.items.map Value.digest).flatten := by
  have hcells : stretch w.off w.len (digests w.buf) = w.items.map Value.digest := by
    rw [digests_eq_map, stretch_map]
    rfl
  show (stretch w.off w.len (digests w.buf)).length ::
    (stretch w.off w.len (digests w.buf)).flatten = _
  rw [hcells, List.length_map]

/-- The digest looks at bare values. -/
theorem digest_bare (v : Value) : v.bare.digest = v.digest := by
  induction v using Value.nest_induction with
  | leaf v hleaf => cases v <;> first | rfl | cases hleaf
  | error s v ih => exact congrArg (10 :: ·) ih
  | dict s keys vals ihk _ =>
    have hk : keys.bare.digest = keys.digest := (List.cons.inj ihk).2
    exact congrArg (7 :: ·) hk
  | array a ih =>
    show 6 :: a.bare.digest = 6 :: a.digest
    cases a with
    | list w =>
      rw [Arr.bare_list, Arr.digest_list, Arr.digest_list, Window.items_ofList, List.map_map,
        List.length_map]
      have hcells : w.items.map (Value.digest ∘ Value.bare) = w.items.map Value.digest :=
        List.map_congr_left fun v hv => ih v (Window.mem_of_mem_items hv)
      rw [hcells]
    | _ w =>
      simp only [Arr.bare, Arr.digest, Arr.values, Window.bare, Window.items_ofList]

/-! ## Searching -/

theorem find?_bare (a : Arr Value) (v : Value) : a.bare.find? v.bare = a.find? v := by
  cases a with
  | list w =>
    have hfind : (w.items.map Value.bare).findIdx? (·.eqv v.bare) = w.items.findIdx? (·.eqv v) := by
      rw [List.findIdx?_map]
      exact congrArg (w.items.findIdx? ·) (funext fun u => eqv_bare u v)
    rw [Arr.bare_list]
    show (Window.items _).findIdx? _ = _
    rw [Window.items_ofList, hfind]
    cases v <;> rfl
  | bools w =>
    cases v with
    | int n => simp only [Arr.bare, Value.bare, Arr.find?, Window.bare, Window.items_ofList]
    | _ => rfl
  | ints w =>
    cases v with
    | int n =>
      simp only [Arr.bare, Value.bare, Arr.find?, Window.bare, Window.items_ofList]
      rfl
    | _ => rfl
  | floats w =>
    cases v with
    | float x => simp only [Arr.bare, Value.bare, Arr.find?, Window.bare, Window.items_ofList]
    | _ => rfl
  | strs w =>
    cases v with
    | str s =>
      simp only [Arr.bare, Value.bare, Arr.find?, Window.bare, Window.items_ofList]
      rfl
    | _ => rfl

theorem find?_congr {a b : Arr Value} {v w : Value} (hab : Alike a b) (hvw : Alike v w) :
    a.find? v = b.find? w := by
  have hab : a.bare = b.bare := hab
  have hvw : v.bare = w.bare := hvw
  rw [← find?_bare a v, ← find?_bare b w, hab, hvw]

theorem findIdx?_eqv_congr {us vs : List Value} {k l : Value} (h : Alike us vs)
    (hkl : Alike k l) : us.findIdx? (·.eqv k) = vs.findIdx? (·.eqv l) := by
  have hbare (xs : List Value) (x : Value) :
      xs.findIdx? (·.eqv x) = (xs.map Value.bare).findIdx? (·.eqv x.bare) := by
    rw [List.findIdx?_map]
    exact congrArg (xs.findIdx? ·) (funext fun u => (eqv_bare u x).symm)
  have h : us.map Value.bare = vs.map Value.bare := h
  have hkl : k.bare = l.bare := hkl
  rw [hbare us k, hbare vs l, h, hkl]

/-! ## Storing -/

theorem canStore_congr {a b : Arr Value} {v w : Value} (hab : Alike a b) (hvw : Alike v w) :
    a.canStore v = b.canStore w := by
  have hleft : a.canStore v = a.canStore w := by
    rcases alike_value_cases hvw with ⟨_, _, rfl, rfl, -⟩ | ⟨_, _, _, _, rfl, rfl, -⟩ |
      ⟨_, _, _, _, rfl, rfl, -⟩ | ⟨-, rfl⟩
    · cases a <;> rfl
    · cases a <;> rfl
    · cases a <;> rfl
    · rfl
  have hright : a.canStore w = b.canStore w := by
    have hkind := hab.kind_eq
    cases a <;> cases b <;> cases hkind <;> cases w <;> rfl
  exact hleft.trans hright

section Congr

variable {c c' : Scope} {a b : Arr Value} {v w : Value}

theorem alike_put (hab : Alike a b) (hvw : Alike v w) (i : Nat) :
    Alike (a.put c i v) (b.put c' i w) := by
  rw [alike_arr_iff, Arr.kind_put, Arr.kind_put, Arr.flags_put, Arr.flags_put, Arr.values_put,
    Arr.values_put, canStore_congr hab hvw, hab.kind_eq]
  exact ⟨rfl, rfl, hab.values.set hvw i⟩

theorem alike_push (hab : Alike a b) (hvw : Alike v w) : Alike (a.push c v) (b.push c' w) := by
  rw [alike_arr_iff, Arr.kind_push, Arr.kind_push, Arr.flags_push, Arr.flags_push, Arr.values_push,
    Arr.values_push, canStore_congr hab hvw, hab.kind_eq]
  exact ⟨rfl, rfl, hab.values.append (alike_cons.2 ⟨hvw, .refl _⟩)⟩

/-! ## Canonical storage -/

theorem tightKind_congr {us vs : List Value} (h : Alike us vs) : tightKind us = tightKind vs := by
  have hall (u : Value) (us : List Value) :
      us.all (·.atomKind == u.atomKind) = (us.map Value.atomKind).all (· == u.atomKind) := by
    rw [List.all_map]
    rfl
  cases us with
  | nil =>
    rw [alike_nil.1 h]
  | cons u us =>
    obtain ⟨v, vs, rfl, huv, h⟩ := h.exists_cons
    have hkinds : us.map Value.atomKind = vs.map Value.atomKind :=
      h.map_eq fun _ _ h => h.atomKind_eq
    simp only [tightKind, hall, hkinds, huv.atomKind_eq]

theorem alike_listOf {s t : Site} {us vs : List Value} (h : Alike us vs) (flags : Flags) :
    Alike (.list (.ofList s us flags) : Arr Value) (.list (.ofList t vs flags)) := by
  rw [alike_arr_iff]
  refine ⟨rfl, rfl, ?_⟩
  rw [Arr.values, Arr.values, Window.items_ofList, Window.items_ofList]
  exact h

/-- Values that fit an untagged variant are atoms, so alike ones are the same. -/
theorem eq_of_tightKind {us vs : List Value} (h : Alike us vs) (hk : tightKind us ≠ .list) :
    vs = us := by
  have hleaf : ∀ u ∈ us, u.isLeaf = true := fun u hu =>
    isLeaf_of_atomKind fun hlist => hk ((atomKind_of_tightKind rfl hk hu).symm.trans hlist)
  clear hk
  induction us generalizing vs with
  | nil => exact alike_nil.1 h
  | cons u us ih =>
    obtain ⟨v, vs, rfl, huv, h⟩ := h.exists_cons
    obtain ⟨hu, hus⟩ := List.forall_mem_cons.1 hleaf
    rw [huv.eq_of_isLeaf hu, ih h hus]

theorem alike_pack {s t : Site} {us vs : List Value} (h : Alike us vs) :
    Alike (Arr.pack s us (tightKind us)) (Arr.pack t vs (tightKind vs)) := by
  rw [← tightKind_congr h]
  by_cases hk : tightKind us = .list
  · rw [hk]
    exact alike_listOf h {}
  · rw [eq_of_tightKind h hk]
    cases tightKind us <;> rfl

theorem alike_ofValues {s t : Site} {us vs : List Value} (h : Alike us vs) :
    Alike (Arr.ofValues s us) (Arr.ofValues t vs) := alike_pack h

theorem canonical_of_kind_ne {c : Scope} {a : Arr Value} (h : a.kind ≠ .list) :
    a.canonical c = a := by
  cases a <;> first | rfl | exact absurd rfl h

theorem alike_canonical (h : Alike a b) : Alike (a.canonical c) (b.canonical c') := by
  have hsame {w : Window Value} (c : Scope) (hw : tightKind w.items = .list) :
      Alike ((Arr.list w).canonical c) (.list w) := by
    simp only [Arr.canonical, hw]
    split
    · exact alike_arrFreeze c _
    · exact .refl _
  have hpack {w : Window Value} (c : Scope) (hw : tightKind w.items ≠ .list) :
      (Arr.list w).canonical c = .pack c.site w.items (tightKind w.items) := by
    rw [Arr.canonical]
    split
    · exact absurd ‹_› hw
    · rfl
  by_cases hkind : a.kind = .list
  · obtain ⟨v, rfl⟩ : ∃ v, a = .list v := by cases a <;> first | exact ⟨_, rfl⟩ | cases hkind
    obtain ⟨w, rfl⟩ : ∃ w, b = .list w := by
      have hkind := h.kind_eq
      cases b <;> first | exact ⟨_, rfl⟩ | cases hkind
    have hitems : Alike v.items w.items := h.values
    by_cases htight : tightKind v.items = .list
    · have htight' : tightKind w.items = .list := tightKind_congr hitems ▸ htight
      exact (hsame c htight).trans (h.trans (hsame c' htight').symm)
    · rw [hpack c htight, hpack c' (tightKind_congr hitems ▸ htight)]
      exact alike_pack hitems
  · rw [canonical_of_kind_ne hkind, canonical_of_kind_ne (h.kind_eq ▸ hkind)]
    exact h

end Congr

/-! ## Dictionaries -/

section Dict

variable {d e : Dict Value}

theorem dictFind?_congr (h : Alike d e) {k l : Value} (hkl : Alike k l) :
    d.find? k = e.find? l :=
  find?_congr (alike_entries.1 h).1 hkl

/-- An index looks at bare keys. -/
theorem keyIndex_find?_bare (keys : List Value) (k : Value) :
    (KeyIndex.ofKeys (keys.map Value.bare)).find? k.bare = (KeyIndex.ofKeys keys).find? k := by
  have hzip : (keys.map Value.bare).zipIdx = keys.zipIdx.map fun e => (e.1.bare, e.2) :=
    List.zipIdx_map
  rw [KeyIndex.find?_ofKeys, KeyIndex.find?_ofKeys, hzip, List.filter_map, List.find?_map,
    Option.map_map]
  simp only [Function.comp_def, digest_bare, eqv_bare]

theorem positions_congr (h : Alike d e) {keys keys' : Arr Value} (hkeys : Alike keys keys')
    (hwf : WellFormed keys) (hwf' : WellFormed keys') (threshold : Nat) :
    d.positions keys threshold = e.positions keys' threshold := by
  have hown : d.keys.values.map Value.bare = e.keys.values.map Value.bare :=
    (alike_entries.1 h).1.values
  unfold Dict.positions
  rw [hkeys.len_eq hwf hwf']
  split
  · exact hkeys.values.map_eq fun v w hvw => dictFind?_congr h hvw
  · refine hkeys.values.map_eq fun v w hvw => ?_
    have hvw : v.bare = w.bare := hvw
    rw [← keyIndex_find?_bare, ← keyIndex_find?_bare e.keys.values, hown, hvw]

theorem alike_empty (s t : Site) (k : Kind) : Alike (Arr.empty s k : Arr Value) (.empty t k) := by
  cases k <;> rfl

theorem alike_neutral {s t : Site} {v w : Value} (h : Alike v w) :
    Alike (v.neutral s) (w.neutral t) := by
  rcases alike_value_cases h with ⟨a, b, rfl, rfl, hab⟩ | ⟨_, _, _, _, rfl, rfl, -⟩ |
    ⟨_, _, _, _, rfl, rfl, -⟩ | ⟨hleaf, rfl⟩
  · simp only [Value.neutral, hab.kind_eq]
    exact alike_array.2 (alike_empty _ _ _)
  · exact alike_dict.2 (alike_entries.2 ⟨alike_empty _ _ .list, alike_empty _ _ .list⟩)
  · exact .refl _
  · cases w <;> first | rfl | cases hleaf

theorem alike_padding {s t : Site} {a b : Arr Value} (h : Alike a b) :
    Alike (a.padding s) (b.padding t) := by
  have hkind := h.kind_eq
  cases a <;> cases b <;> cases hkind
  case list.list.refl v w =>
    have hhead : Alike v.items[0]? w.items[0]? := (Alike.values h).getElem? 0
    simp only [Arr.padding, List.head?_eq_getElem?]
    rcases alike_option_cases hhead with ⟨hv, hw⟩ | ⟨x, y, hv, hw, hxy⟩
    · rw [hv, hw]
      exact .refl _
    · rw [hv, hw]
      exact alike_neutral hxy
  all_goals exact .refl _

theorem alike_appendKey {c c' : Scope} (h : Alike d e) {k l : Value} (hkl : Alike k l) :
    Alike (d.appendKey c k) (e.appendKey c' l) := by
  obtain ⟨hkeys, hvals⟩ := alike_entries.1 h
  exact alike_entries.2
    ⟨alike_canonical (alike_push hkeys hkl), alike_push hvals (alike_padding hvals)⟩

theorem alike_appendKeys (c c' : Scope) (h : Alike d e) {ks ls : List Value} (hks : Alike ks ls) :
    Alike (d.appendKeys c ks) (e.appendKeys c' ls) := by
  rw [Dict.appendKeys_eq, Dict.appendKeys_eq]
  generalize 0 = n
  induction ks generalizing ls n d e with
  | nil =>
    rw [alike_nil.1 hks]
    exact h
  | cons k ks ih =>
    obtain ⟨l, ls, rfl, hkl, hks⟩ := hks.exists_cons
    exact ih (alike_appendKey h hkl) hks (n + 1)

/-! ## Placing keys -/

theorem newPosition_congr (len : Nat) {missing missing' : List Value} {k l : Value}
    (h : Alike missing missing') (hkl : Alike k l) :
    (newPosition len missing k).1 = (newPosition len missing' l).1 ∧
      Alike (newPosition len missing k).2 (newPosition len missing' l).2 := by
  have hfind := findIdx?_eqv_congr h hkl
  unfold newPosition
  rw [hfind]
  split
  · exact ⟨rfl, h⟩
  · exact ⟨congrArg (len + ·) h.length_eq, h.append (alike_cons.2 ⟨hkl, .refl _⟩)⟩

theorem placeKeys_congr (len : Nat) {ks ls : List Value} (hks : Alike ks ls)
    (found : List (Option Nat)) {missing missing' : List Value} (h : Alike missing missing') :
    (placeKeys len missing (ks.zip found)).1 = (placeKeys len missing' (ls.zip found)).1 ∧
      Alike (placeKeys len missing (ks.zip found)).2
        (placeKeys len missing' (ls.zip found)).2 := by
  induction ks generalizing ls found missing missing' with
  | nil =>
    rw [alike_nil.1 hks]
    exact ⟨rfl, h⟩
  | cons k ks ih =>
    obtain ⟨l, ls, rfl, hkl, hks⟩ := hks.exists_cons
    cases found with
    | nil => exact ⟨rfl, h⟩
    | cons p found =>
      cases p with
      | some p =>
        obtain ⟨hps, hmissing⟩ := ih hks found h
        exact ⟨congrArg (p :: ·) hps, hmissing⟩
      | none =>
        obtain ⟨hp, hnew⟩ := newPosition_congr len h hkl
        obtain ⟨hps, hmissing⟩ := ih hks found hnew
        refine ⟨?_, hmissing⟩
        show (newPosition len missing k).1 :: _ = (newPosition len missing' l).1 :: _
        rw [hp]
        exact congrArg _ hps

/-- Keys are placed alike, and alike ones are missing. -/
theorem placement_congr (settings : Settings) (h : Alike d e) (hd : d.Paired) (he : e.Paired)
    {y y' : Value} (hy : Alike y y') (hwf : WellFormed y) (hwf' : WellFormed y') :
    (d.placement settings y).selection = (e.placement settings y').selection ∧
      Alike (d.placement settings y).missing (e.placement settings y').missing := by
  obtain ⟨hkeys, -⟩ := alike_entries.1 h
  have hlen : d.len = e.len := hkeys.len_eq hd.2.1 he.2.1
  have hfind : d.find? y = e.find? y' := dictFind?_congr h hy
  -- A value that is neither nil nor an array is one key.
  have single {y y' : Value} (hy : Alike y y') (hfind : d.find? y = e.find? y')
      (hplan : d.placement settings y = d.placeOne y)
      (hplan' : e.placement settings y' = e.placeOne y') :
      (d.placement settings y).selection = (e.placement settings y').selection ∧
        Alike (d.placement settings y).missing (e.placement settings y').missing := by
    rw [hplan, hplan', Dict.placeOne, Dict.placeOne, hfind, hlen]
    split
    · exact ⟨rfl, .refl _⟩
    · exact ⟨rfl, alike_cons.2 ⟨hy, .refl _⟩⟩
  rcases alike_value_cases hy with ⟨a, b, rfl, rfl, hab⟩ | ⟨_, _, _, _, rfl, rfl, -⟩ |
    ⟨_, _, _, _, rfl, rfl, -⟩ | ⟨hleaf, rfl⟩
  · have ha : WellFormed a := (everywhere_array a).1 hwf
    have hb : WellFormed b := (everywhere_array b).1 hwf'
    simp only [Dict.placement, hkeys.kind_eq, hfind]
    split
    · exact ⟨rfl, .refl _⟩
    · rw [positions_congr h hab ha hb, hlen]
      obtain ⟨hps, hmissing⟩ :=
        placeKeys_congr e.len hab.values (e.positions b settings.indexThreshold) (.refl [])
      exact ⟨congrArg Selection.many hps, hmissing⟩
  · exact single hy hfind rfl rfl
  · exact single hy hfind rfl rfl
  · cases y' with
    | nil => exact ⟨congrArg (Selection.many <| List.range ·) hlen, .refl _⟩
    | array a => cases hleaf
    | _ => exact single hy hfind rfl rfl

end Dict

end SharedArrays
