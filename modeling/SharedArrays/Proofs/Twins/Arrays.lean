import SharedArrays.Proofs.Merge

/-!
# Equal values side by side

Two values are *twins* if they are equal and both of them are fit to be worked on: windows lie
inside their buffers, dictionaries have as many keys as values, and where a look-up goes by the
ascending flag of keys, the flag is true. Only what the windows show is looked at.

Operations on twins have indistinct answers: both values, and these are twins again, or both
failures of one kind. This file follows arrays and the merging of dictionaries, whatever way there
is to combine values; a way to combine twins into twins makes merged dictionaries twins.

## Main definitions

* `Indistinct` — answers that differ at most in how they are stored
* `Value.Twin` — equal values that are fit to be worked on

## Main results

* `twin_array`, `twin_dict` — level by level
* `twin_of_eqv` — equal values are twins if they are fit
* `indistinct_runSteps`, `indistinct_revise` — steps of an update
* `indistinct_mergeWith` — merging
-/

namespace SharedArrays

/-! ## Answers -/

/-- Two values in the relation, or two failures of one kind. -/
def Indistinct {α β : Type} (R : α → β → Prop) : Result α → Result β → Prop
  | .ok a, .ok b => R a b
  | .error e, .error e' => e.cause.kind = e'.cause.kind
  | _, _ => False

section Indistinct

variable {α β γ δ : Type} {R : α → β → Prop} {S : γ → δ → Prop} {r : Result α} {r' : Result β}

theorem Indistinct.cases (h : Indistinct R r r') :
    (∃ a b, r = .ok a ∧ r' = .ok b ∧ R a b) ∨
      ∃ e e', r = .error e ∧ r' = .error e' ∧ e.cause.kind = e'.cause.kind := by
  cases r with
  | ok a =>
    cases r' with
    | ok b => exact .inl ⟨a, b, rfl, rfl, h⟩
    | error e' => cases h
  | error e =>
    cases r' with
    | ok b => cases h
    | error e' => exact .inr ⟨e, e', rfl, rfl, h⟩

theorem Indistinct.bind {f : α → Result γ} {g : β → Result δ} (h : Indistinct R r r')
    (hfg : ∀ a b, R a b → Indistinct S (f a) (g b)) : Indistinct S (r >>= f) (r' >>= g) := by
  rcases h.cases with ⟨a, b, rfl, rfl, hab⟩ | ⟨e, e', rfl, rfl, he⟩
  · exact hfg a b hab
  · exact he

theorem Indistinct.mono {R' : α → β → Prop} (h : Indistinct R r r')
    (hR : ∀ a b, R a b → R' a b) : Indistinct R' r r' := by
  rcases h.cases with ⟨a, b, rfl, rfl, hab⟩ | ⟨e, e', rfl, rfl, he⟩
  · exact hR a b hab
  · exact he

/-- The first failures of two lists of answers stand at one place. -/
theorem indistinct_allOk {R : α → α → Prop} {rs rs' : List (Result α)}
    (h : Pointwise (Indistinct R) rs rs') : Indistinct (Pointwise R) (allOk rs) (allOk rs') := by
  induction rs generalizing rs' with
  | nil =>
    rw [pointwise_nil_left.1 h]
    exact pointwise_nil_left.2 rfl
  | cons r rs ih =>
    cases rs' with
    | nil => cases h.1
    | cons r' rs' =>
      obtain ⟨hr, hrs⟩ := pointwise_cons.1 h
      refine hr.bind fun x y hxy => (ih hrs).bind fun xs ys hxys => ?_
      exact pointwise_cons.2 ⟨hxy, hxys⟩

end Indistinct

/-! ## Lists -/

section Lists

variable {α β γ δ : Type} {R : α → β → Prop} {S : γ → δ → Prop} {us : List α} {vs : List β}

theorem Pointwise.getElem? (h : Pointwise R us vs) (i : Nat) :
    (us[i]? = none ∧ vs[i]? = none) ∨ ∃ u v, us[i]? = some u ∧ vs[i]? = some v ∧ R u v := by
  cases hu : us[i]? with
  | none => exact .inl ⟨rfl, List.getElem?_eq_none (h.1 ▸ List.getElem?_eq_none_iff.1 hu)⟩
  | some u =>
    obtain ⟨v, hv, huv⟩ := h.exists_right hu
    exact .inr ⟨u, v, rfl, hv, huv⟩

theorem Pointwise.imp {S : α → β → Prop} (h : Pointwise R us vs) (hRS : ∀ u v, R u v → S u v) :
    Pointwise S us vs := h.imp_of_mem fun u _ v => hRS u v

theorem Pointwise.append {us' : List α} {vs' : List β} (h : Pointwise R us vs)
    (h' : Pointwise R us' vs') : Pointwise R (us ++ us') (vs ++ vs') := by
  induction us generalizing vs with
  | nil => rwa [pointwise_nil_left.1 h]
  | cons u us ih =>
    cases vs with
    | nil => cases h.1
    | cons v vs =>
      obtain ⟨huv, h⟩ := pointwise_cons.1 h
      exact pointwise_cons.2 ⟨huv, ih h⟩

theorem Pointwise.set (h : Pointwise R us vs) {u : α} {v : β} (huv : R u v) (i : Nat) :
    Pointwise R (us.set i u) (vs.set i v) := by
  refine ⟨by rw [List.length_set, List.length_set, h.1], fun j x y hx hy => ?_⟩
  rw [List.getElem?_set] at hx hy
  by_cases hij : i = j
  · rw [if_pos hij] at hx hy
    obtain ⟨-, hx⟩ := Option.ite_none_right_eq_some.1 hx
    obtain ⟨-, hy⟩ := Option.ite_none_right_eq_some.1 hy
    cases hx
    cases hy
    exact huv
  · rw [if_neg hij] at hx hy
    exact h.2 j x y hx hy

theorem pointwise_mapIdx (hlen : us.length = vs.length) {f : Nat → α → γ} {g : Nat → β → δ}
    (hfg : ∀ i u v, us[i]? = some u → vs[i]? = some v → S (f i u) (g i v)) :
    Pointwise S (us.mapIdx f) (vs.mapIdx g) := by
  refine ⟨by rw [List.length_mapIdx, List.length_mapIdx, hlen], fun i x y hx hy => ?_⟩
  rw [List.getElem?_mapIdx] at hx hy
  obtain ⟨u, hu, rfl⟩ := Option.map_eq_some_iff.1 hx
  obtain ⟨v, hv, rfl⟩ := Option.map_eq_some_iff.1 hy
  exact hfg i u v hu hv

theorem Pointwise.mapIdx (h : Pointwise R us vs) {f : Nat → α → γ} {g : Nat → β → δ}
    (hfg : ∀ i u v, R u v → S (f i u) (g i v)) : Pointwise S (us.mapIdx f) (vs.mapIdx g) :=
  pointwise_mapIdx h.1 fun i u v hu hv => hfg i u v (h.2 i u v hu hv)

theorem Pointwise.map (h : Pointwise R us vs) {f : α → γ} {g : β → δ}
    (hfg : ∀ u v, R u v → S (f u) (g v)) : Pointwise S (us.map f) (vs.map g) := by
  refine ⟨by rw [List.length_map, List.length_map, h.1], fun i x y hx hy => ?_⟩
  rw [List.getElem?_map] at hx hy
  obtain ⟨u, hu, rfl⟩ := Option.map_eq_some_iff.1 hx
  obtain ⟨v, hv, rfl⟩ := Option.map_eq_some_iff.1 hy
  exact hfg u v (h.2 i u v hu hv)

theorem Pointwise.map_eq (h : Pointwise R us vs) {f : α → γ} {g : β → γ}
    (hfg : ∀ u v, R u v → f u = g v) : us.map f = vs.map g := by
  refine List.ext_getElem (by rw [List.length_map, List.length_map, h.1]) fun i hi hi' => ?_
  rw [List.length_map] at hi hi'
  rw [List.getElem_map, List.getElem_map]
  exact hfg _ _ (h.2 i _ _ (List.getElem?_eq_getElem hi) (List.getElem?_eq_getElem hi'))

/-- Elements at the same positions. -/
theorem Pointwise.select (h : Pointwise R us vs) (ps : List Nat) :
    Pointwise R (ps.filterMap (us[·]?)) (ps.filterMap (vs[·]?)) := by
  induction ps with
  | nil => exact pointwise_nil_left.2 rfl
  | cons p ps ih =>
    rcases h.getElem? p with ⟨hu, hv⟩ | ⟨u, v, hu, hv, huv⟩
    · rwa [List.filterMap_cons_none hu, List.filterMap_cons_none hv]
    · rw [List.filterMap_cons_some hu, List.filterMap_cons_some hv]
      exact pointwise_cons.2 ⟨huv, ih⟩

end Lists

/-- Lists of equal values have equal values at the same first positions. -/
theorem findIdx?_eqv_eq {us vs : List Value} {k l : Value}
    (h : Pointwise (fun u v => u.eqv v = true) us vs) (hkl : k.eqv l = true) :
    us.findIdx? (·.eqv k) = vs.findIdx? (·.eqv l) := by
  induction us generalizing vs with
  | nil =>
    rw [pointwise_nil_left.1 h]
    rfl
  | cons u us ih =>
    cases vs with
    | nil => cases h.1
    | cons v vs =>
      obtain ⟨huv, h⟩ := pointwise_cons.1 h
      have htest : u.eqv k = v.eqv l := by rw [eqv_left_congr huv, eqv_right_congr hkl]
      rw [List.findIdx?_cons, List.findIdx?_cons, htest, ih h]

/-! ## Twins -/

/-- Equal values that are both fit to be worked on. -/
inductive Value.Twin : Value → Value → Prop
  | leaf {u v : Value} (hu : u.isLeaf = true) (huv : u.eqvAtom v = true) : Twin u v
  | error {s t : Site} {u v : Value} (huv : u.eqv v = true) : Twin (.error s u) (.error t v)
  | array {a b : Arr Value} (ha : a.InBounds) (hb : b.InBounds)
      (hlen : a.values.length = b.values.length)
      (h : ∀ (i : Nat) (u v : Value), a.values[i]? = some u → b.values[i]? = some v → Twin u v) :
      Twin (.array a) (.array b)
  | dict {s t : Site} {d e : Dict Value} (hd : d.keys.len = d.vals.len)
      (he : e.keys.len = e.vals.len) (hdkeys : d.keys.AscendingHolds)
      (hekeys : e.keys.AscendingHolds) (hkeys : Twin (.array d.keys) (.array e.keys))
      (hvals : Twin (.array d.vals) (.array e.vals)) : Twin (.dict s d) (.dict t e)

/-- The arrays are twins as values. -/
def Arr.Twin (a b : Arr Value) : Prop := (Value.array a).Twin (.array b)

/-- The dictionaries are twins as values. -/
structure Dict.Twin (d e : Dict Value) : Prop where
  lenLeft : d.keys.len = d.vals.len
  lenRight : e.keys.len = e.vals.len
  ascendingLeft : d.keys.AscendingHolds
  ascendingRight : e.keys.AscendingHolds
  keys : d.keys.Twin e.keys
  vals : d.vals.Twin e.vals

section Twin

variable {a a' b b' : Arr Value} {u v : Value}

theorem Arr.twin_iff : a.Twin b ↔
    a.InBounds ∧ b.InBounds ∧ Pointwise Value.Twin a.values b.values := by
  constructor
  · intro h
    cases h with
    | leaf hleaf => cases hleaf
    | array ha hb hlen h => exact ⟨ha, hb, hlen, h⟩
  · rintro ⟨ha, hb, hlen, h⟩
    exact .array ha hb hlen h

theorem twin_array : (Value.array a).Twin (.array b) ↔ a.Twin b := Iff.rfl

theorem twin_dict {s t : Site} {d e : Dict Value} :
    (Value.dict s d).Twin (.dict t e) ↔ d.Twin e := by
  constructor
  · intro h
    cases h with
    | leaf hleaf => cases hleaf
    | dict hd he hdkeys hekeys hkeys hvals => exact ⟨hd, he, hdkeys, hekeys, hkeys, hvals⟩
  · intro h
    exact .dict h.1 h.2 h.3 h.4 h.5 h.6

theorem Arr.Twin.values (h : a.Twin b) : Pointwise Value.Twin a.values b.values :=
  (Arr.twin_iff.1 h).2.2

theorem Arr.Twin.len_eq (h : a.Twin b) : a.len = b.len := by
  obtain ⟨ha, hb, hvalues⟩ := Arr.twin_iff.1 h
  rw [← Arr.length_values ha, ← Arr.length_values hb, hvalues.1]

theorem Arr.Twin.length_left (h : a.Twin b) : a.values.length = a.len :=
  Arr.length_values (Arr.twin_iff.1 h).1

theorem Arr.Twin.length_right (h : a.Twin b) : b.values.length = b.len :=
  Arr.length_values (Arr.twin_iff.1 h).2.1

/-- Twins are equal. -/
theorem Value.Twin.eqv (h : u.Twin v) : u.eqv v = true := by
  induction h with
  | leaf hu huv => rw [eqv_of_isLeaf hu, huv]
  | error huv => exact huv
  | array ha hb hlen h ih => exact Arr.eqv_iff.2 ⟨hlen, ih⟩
  | dict hd he hdkeys hekeys hkeys hvals ihk ihv => exact dictEqv_iff.2 ⟨ihk, ihv⟩

theorem Arr.Twin.eqvs (h : a.Twin b) :
    Pointwise (fun u v => u.eqv v = true) a.values b.values :=
  h.values.imp fun _ _ => Value.Twin.eqv

/-- Look-ups in the dictionaries that the value shows can rely on the flags of their keys. -/
def Value.KeysAscend (x : Value) : Prop :=
  ∀ parts s d, x.part? parts = some (.dict s d) → d.keys.AscendingHolds

theorem keysAscend_of_isLeaf (h : u.isLeaf = true) : u.KeysAscend := by
  rintro (_ | ⟨p, parts⟩) s d hpart
  · cases hpart
    cases h
  · cases u <;> first | cases hpart | cases h

theorem keysAscend_array : (Value.array a).KeysAscend ↔ ∀ v ∈ a.values, v.KeysAscend := by
  constructor
  · intro h v hv parts s d hpart
    cases a with
    | list w =>
      obtain ⟨i, hi⟩ := List.mem_iff_getElem?.1 hv
      exact h (.element i :: parts) s d (Option.bind_eq_some_iff.2 ⟨v, hi, hpart⟩)
    | _ w =>
      have hleaf := isLeaf_of_mem_values (by simp [Arr.kind]) hv
      exact keysAscend_of_isLeaf hleaf parts s d hpart
  · rintro h (_ | ⟨p, parts⟩) s d hpart
    · cases hpart
    · cases a with
      | list w =>
        cases p with
        | element i =>
          obtain ⟨v, hv, hpart⟩ := Option.bind_eq_some_iff.1 hpart
          exact h v (List.mem_of_getElem? hv) parts s d hpart
        | _ => cases hpart
      | _ w => cases hpart

theorem keysAscend_dict {s : Site} {d : Dict Value} : (Value.dict s d).KeysAscend ↔
    d.keys.AscendingHolds ∧ (Value.array d.keys).KeysAscend ∧ (Value.array d.vals).KeysAscend := by
  constructor
  · intro h
    exact ⟨h [] s d rfl, fun parts => h (.keys :: parts), fun parts => h (.vals :: parts)⟩
  · rintro ⟨hasc, hkeys, hvals⟩ (_ | ⟨p, parts⟩) t e hpart
    · cases hpart
      exact hasc
    · cases p with
      | keys => exact hkeys parts t e hpart
      | vals => exact hvals parts t e hpart
      | element i => cases hpart

/-- Equal values are twins if they are well-formed and the flags of their keys are true. -/
theorem twin_of_eqv (h : u.eqv v = true) (hu : WellFormed u) (hv : WellFormed v)
    (huk : u.KeysAscend) (hvk : v.KeysAscend) : u.Twin v := by
  induction u using Value.elements_induction generalizing v with
  | leaf u hleaf => exact .leaf hleaf (eqv_of_isLeaf hleaf v ▸ h)
  | error s u _ =>
    cases v with
    | error t v => exact .error h
    | _ => cases h
  | array a ih =>
    cases v with
    | array b =>
      have hpart {a : Arr Value} (ha : WellFormed (.array a : Value)) {i : Nat} {x : Value}
          (hx : a.values[i]? = some x) : WellFormed x :=
        everywhere_of_at? ((everywhere_array a).1 ha) hx
      obtain ⟨hlen, hall⟩ := Arr.eqv_iff.1 h
      -- Equal arrays have elements that are equal in pairs, and so these are twins.
      refine .array (WellFormed.inBounds hu) (WellFormed.inBounds hv) hlen fun i x y hx hy => ?_
      exact ih x (List.mem_of_getElem? hx) (hall i x y hx hy) (hpart hu hx) (hpart hv hy)
        (keysAscend_array.1 huk x (List.mem_of_getElem? hx))
        (keysAscend_array.1 hvk y (List.mem_of_getElem? hy))
    | _ => cases h
  | dict s keys vals ihk ihv =>
    cases v with
    | dict t e =>
      obtain ⟨hkeys, hvals⟩ := dictEqv_iff.1 h
      obtain ⟨hd, hwk, hwv⟩ := wellFormed_dict.1 hu
      obtain ⟨he, hwk', hwv'⟩ := wellFormed_dict.1 hv
      obtain ⟨hasc, hkk, hkv⟩ := keysAscend_dict.1 huk
      obtain ⟨hasc', hkk', hkv'⟩ := keysAscend_dict.1 hvk
      exact .dict hd he hasc hasc' (@ihk (.array e.keys) hkeys hwk hwk' hkk hkk')
        (@ihv (.array e.vals) hvals hwv hwv' hkv hkv')
    | _ => cases h

end Twin

/-! ## Arrays from twins -/

theorem inBounds_canonical_of_not_pinned {a : Arr Value} (ha : a.InBounds)
    (h : a.flags.pinned = false) (c : Scope) : (a.canonical c).InBounds := by
  cases a with
  | list w =>
    have hpinned : w.flags.pinned = false := h
    rw [Arr.canonical]
    split
    · rwa [if_neg (by simp [hpinned])]
    · exact inBounds_pack ..
  | _ => exact ha

section Arrays

variable {a a' b b' : Arr Value} {s s' : Site}

theorem twin_ofValues {us vs : List Value} (h : Pointwise Value.Twin us vs) :
    (Arr.ofValues s us).Twin (.ofValues s' vs) := by
  refine Arr.twin_iff.2 ⟨inBounds_pack .., inBounds_pack .., ?_⟩
  rwa [Arr.values_ofValues, Arr.values_ofValues]

theorem twin_concat (ha : a.Twin a') (hb : b.Twin b') (s s' : Site) :
    (a.concat s b).Twin (a'.concat s' b') := by
  obtain ⟨hal, har, havalues⟩ := Arr.twin_iff.1 ha
  obtain ⟨hbl, hbr, hbvalues⟩ := Arr.twin_iff.1 hb
  refine Arr.twin_iff.2 ⟨inBounds_concat hal hbl s, inBounds_concat har hbr s', ?_⟩
  rw [Arr.values_concat, Arr.values_concat]
  exact havalues.append hbvalues

theorem twin_put (h : a.Twin a') {u v : Value} (huv : u.Twin v) (c c' : Scope) (i : Nat) :
    (a.put c i u).Twin (a'.put c' i v) := by
  obtain ⟨ha, ha', hvalues⟩ := Arr.twin_iff.1 h
  refine Arr.twin_iff.2 ⟨inBounds_put ha c i u, inBounds_put ha' c' i v, ?_⟩
  rw [Arr.values_put, Arr.values_put]
  exact hvalues.set huv i

theorem twin_canonical (h : a.Twin a') (hpin : a.flags.pinned = false)
    (hpin' : a'.flags.pinned = false) {c c' : Scope} :
    (a.canonical c).Twin (a'.canonical c') := by
  obtain ⟨ha, ha', hvalues⟩ := Arr.twin_iff.1 h
  refine Arr.twin_iff.2 ⟨inBounds_canonical_of_not_pinned ha hpin c,
    inBounds_canonical_of_not_pinned ha' hpin' c', ?_⟩
  rwa [values_canonical_of_not_pinned hpin, values_canonical_of_not_pinned hpin']

theorem indistinct_select (h : a.Twin a') (ps : List Nat) :
    Indistinct (fun b b' => b.Twin b' ∧ b.AscendingHolds ∧ b'.AscendingHolds) (a.select s ps)
      (a'.select s' ps) := by
  have hselect {a : Arr Value} {s : Site} (hall : ps.find? (a.len ≤ ·) = none) :
      a.select s ps = .ok (a.update (·.select s ps)) := by
    rw [Arr.select, hall]
  have hbounds {a : Arr Value} {s : Site} : (a.update (·.select s ps)).InBounds := by
    cases a <;> exact Window.inBounds_ofList ..
  cases hfind : ps.find? (a.len ≤ ·) with
  | some bad =>
    have hfind' : ps.find? (a'.len ≤ ·) = some bad := h.len_eq ▸ hfind
    rw [Arr.select, Arr.select, hfind, hfind']
    rfl
  | none =>
    have hs := hselect (s := s) hfind
    have hs' := hselect (a := a') (s := s') (h.len_eq ▸ hfind)
    rw [hs, hs']
    refine ⟨Arr.twin_iff.2 ⟨hbounds, hbounds, ?_⟩, ascendingHolds_select hs,
      ascendingHolds_select hs'⟩
    rw [Arr.values_select hs, Arr.values_select hs']
    exact h.values.select ps

end Arrays

/-! ## Steps -/

/-- Steps at one position, with indistinct answers for twins. -/
def Step.Twin (st st' : Step) : Prop :=
  st.position = st'.position ∧ ∀ u v, u.Twin v → Indistinct Value.Twin (st.run u) (st'.run v)

section Steps

variable {a a' : Arr Value} {steps steps' : List Step} {c c' : Scope}

variable (c c') in
/-- Running steps on twins. A pin is dropped by the first write; it would be passed on to the
elements when the array moves to canonical storage. -/
theorem indistinct_runSteps (hsteps : Pointwise Step.Twin steps steps') (h : a.Twin a')
    (hpins : steps = [] → a.flags.pinned = false ∧ a'.flags.pinned = false) :
    Indistinct (fun b b' => b.Twin b' ∧ b.values.length = a.values.length ∧
      b.flags.pinned = false ∧ b'.flags.pinned = false)
      (a.runSteps c steps).toResult (a'.runSteps c' steps').toResult := by
  induction steps generalizing a a' steps' with
  | nil =>
    rw [pointwise_nil_left.1 hsteps]
    exact ⟨h, rfl, hpins rfl⟩
  | cons st steps ih =>
    cases steps' with
    | nil => cases hsteps.1
    | cons st' steps' =>
      obtain ⟨⟨hpos, hrun⟩, hsteps⟩ := pointwise_cons.1 hsteps
      rcases h.values.getElem? st.position with ⟨hnone, hnone'⟩ | ⟨u, v, hu, hv, huv⟩
      · have hnone : a.at? st.position = none := hnone
        have hnone' : a'.at? st'.position = none := hpos ▸ hnone'
        simp only [Arr.runSteps, hnone, hnone']
        rfl
      · have hu : a.at? st.position = some u := hu
        have hv : a'.at? st'.position = some v := hpos ▸ hv
        simp only [Arr.runSteps, hu, hv]
        rcases (hrun u v huv).cases with ⟨x, y, hx, hy, hxy⟩ | ⟨e, e', he, he', hkind⟩
        · simp only [hx, hy, ← hpos]
          have hput := twin_put h hxy c c' st.position
          have hflags (a : Arr Value) (c : Scope) (v : Value) :
              (a.put c st.position v).flags.pinned = false := by
            rw [Arr.flags_put]
          refine (ih hsteps hput fun _ => ⟨hflags .., hflags ..⟩).mono ?_
          rintro b b' ⟨hb, hlen, hpins⟩
          refine ⟨hb, hlen.trans ?_, hpins⟩
          rw [Arr.values_put, List.length_set]
        · simp only [he, he']
          exact hkind

theorem indistinct_revise (hsteps : Pointwise Step.Twin steps steps') (h : a.Twin a')
    (hne : steps ≠ []) :
    Indistinct (fun b b' => b.Twin b' ∧ b.values.length = a.values.length)
      (a.revise c steps).toResult (a'.revise c' steps').toResult := by
  have hruns := indistinct_runSteps c c' hsteps h fun hnil => absurd hnil hne
  simp only [Arr.revise]
  generalize a.runSteps c steps = o at hruns
  generalize a'.runSteps c' steps' = o' at hruns
  generalize c.beside o.raised = c
  generalize c'.beside o'.raised = c'
  obtain ⟨b, failure⟩ := o
  obtain ⟨b', failure'⟩ := o'
  cases failure <;> cases failure' <;> first | exact hruns | skip
  obtain ⟨hb, hlen, hpin, hpin'⟩ := hruns
  have hvalues : (b.canonical c).values = b.values := values_canonical_of_not_pinned hpin c
  exact ⟨twin_canonical hb hpin hpin', (congrArg List.length hvalues).trans hlen⟩

end Steps

/-! ## Merging -/

section Merge

variable {l l' r r' d d' : Dict Value} {s s' : Site} {threshold threshold' : Nat}

variable (threshold threshold') in
/-- Keys are found at the same positions, whether or not an index is used. -/
theorem positions_eq_of_twin (hl : l.Twin l') {keys keys' : Arr Value} (hkeys : keys.Twin keys') :
    l.positions keys threshold = l'.positions keys' threshold' := by
  rw [Dict.positions_eq hl.ascendingLeft, Dict.positions_eq hl.ascendingRight]
  refine hkeys.eqvs.map_eq fun k k' hk => ?_
  rw [Dict.find?, Dict.find?, Arr.find?_eq_findIdx? hl.ascendingLeft,
    Arr.find?_eq_findIdx? hl.ascendingRight]
  exact findIdx?_eqv_eq hl.keys.eqvs hk

variable (threshold threshold') in
theorem mergePlan_eq_of_twin (hl : l.Twin l') (hr : r.Twin r') :
    l.mergePlan threshold r = l'.mergePlan threshold' r' := by
  rw [Dict.mergePlan, Dict.mergePlan, positions_eq_of_twin threshold threshold' hl hr.keys]

theorem indistinct_appendFrom (hd : d.Twin d') (hr : r.Twin r') (fresh : List Nat) :
    Indistinct Dict.Twin (d.appendFrom s r fresh) (d'.appendFrom s' r' fresh) := by
  unfold Dict.appendFrom
  split
  · exact hd
  · refine (indistinct_select hr.keys fresh).bind ?_
    rintro keys keys' ⟨hkeys, hasc, hasc'⟩
    refine (indistinct_select hr.vals fresh).bind ?_
    rintro vals vals' ⟨hvals, -⟩
    have hlen : keys.len = vals.len ↔ keys'.len = vals'.len := by
      rw [hkeys.len_eq, hvals.len_eq]
    unfold Dict.append?
    -- Twins have equally many elements, so the append is refused on both sides or on none.
    by_cases hsame : keys.len = vals.len
    · rw [if_pos hsame, if_pos (hlen.1 hsame)]
      have hk := twin_concat hd.keys hkeys ((s.sub 2).sub 0) ((s'.sub 2).sub 0)
      have hv := twin_concat hd.vals hvals ((s.sub 2).sub 1) ((s'.sub 2).sub 1)
      refine ⟨?_, ?_, ascendingHolds_concat hd.ascendingLeft hasc,
        ascendingHolds_concat hd.ascendingRight hasc', hk, hv⟩
      · rw [← hk.length_left, ← hv.length_left, Arr.values_concat, Arr.values_concat,
          List.length_append, List.length_append, hd.keys.length_left, hd.vals.length_left,
          hkeys.length_left, hvals.length_left, hd.lenLeft, hsame]
      · rw [← hk.length_right, ← hv.length_right, Arr.values_concat, Arr.values_concat,
          List.length_append, List.length_append, hd.keys.length_right, hd.vals.length_right,
          hkeys.length_right, hvals.length_right, hd.lenRight, hlen.1 hsame]
    · rw [if_neg hsame, if_neg fun h => hsame (hlen.2 h)]
      rfl

/-- Merging twins, with ways to combine values that combine twins into twins. -/
theorem indistinct_mergeWith (hl : l.Twin l') (hr : r.Twin r')
    {combine combine' : List (Nat × Nat) → Arr Value → Result (Arr Value)}
    (hcombine : ∀ common, common = (l.mergePlan threshold r).common → common ≠ [] →
      Indistinct (fun a a' => a.Twin a' ∧ a.values.length = l.vals.values.length)
        (combine common l.vals) (combine' common l'.vals)) :
    Indistinct Dict.Twin (l.mergeWith s threshold combine r)
      (l'.mergeWith s' threshold' combine' r') := by
  -- Both merges go by one plan, and so combine values at the same positions.
  have hplan := mergePlan_eq_of_twin threshold threshold' hl hr
  simp only [Dict.mergeWith, ← hplan]
  refine Indistinct.bind
    (R := fun a a' => a.Twin a' ∧ a.values.length = l.vals.values.length) ?_ ?_
  · split
    · exact ⟨hl.vals, rfl⟩
    · rename_i hne
      exact hcombine _ rfl fun hnil => hne (by rw [hnil]; rfl)
  · rintro a a' ⟨ha, hlen⟩
    have hleft : l.keys.len = a.len := by
      rw [hl.lenLeft, ← hl.vals.length_left, ← ha.length_left, hlen]
    have hright : l'.keys.len = a'.len := by
      rw [← hl.keys.len_eq, ← ha.len_eq, hleft]
    have hd : Dict.Twin ⟨l.keys, a⟩ ⟨l'.keys, a'⟩ :=
      ⟨hleft, hright, hl.ascendingLeft, hl.ascendingRight, hl.keys, ha⟩
    exact indistinct_appendFrom hd hr _

end Merge

end SharedArrays
