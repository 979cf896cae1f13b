import SharedArrays.Proofs.Alike.Commands

/-!
# Deep-canonical values

A list is loose if its elements could do without tags: there are some, and all of them are
integers, all are floats or all are strings. A value is deep-canonical if no loose list is in it,
neither among the elements of lists nor among the keys and values of dictionaries. What a window
does not show does not count.

While an array is being updated its elements are deep-canonical all the time, but the array itself
may be loose; only at the end it is moved to canonical storage. So there are two properties of
arrays, one for in between and one for the end.

## Main definitions

* `Arr.Loose`, `Value.DeepCanonical` — lists without need, and values without such lists
* `Value.Neat` — well-formed and deep-canonical
* `Arr.NeatElements` — an array whose elements are neat

## Main results

* `deepCanonical_array`, `deepCanonical_dict` — level by level
* `deepCanonical_congr` — names, surroundings and pins do not matter
* `neat_ofValues`, `neat_canonical`, `neat_concat`, `neat_revise` — where arrays become neat
-/

namespace SharedArrays

/-! ## Loose lists -/

/-- All of the values, of which there are some, are integers, or floats, or strings. -/
def Uniform (vs : List Value) : Prop :=
  vs ≠ [] ∧ ((∀ v ∈ vs, ∃ n, v = .int n) ∨ (∀ v ∈ vs, ∃ x, v = .float x) ∨
    (∀ v ∈ vs, ∃ s, v = .str s))

/-- A list whose elements could be stored without tags. -/
def Arr.Loose : Arr Value → Prop
  | .list w => Uniform w.items
  | _ => False

/-- No array at any depth is a loose list. -/
def Value.DeepCanonical (x : Value) : Prop :=
  ∀ parts a, x.part? parts = some (.array a) → ¬a.Loose

theorem uniform_iff_exists {vs : List Value} :
    Uniform vs ↔ vs ≠ [] ∧ ∃ k ≠ Kind.list, ∀ v ∈ vs, v.atomKind = k := by
  refine and_congr_right fun _ => ⟨?_, ?_⟩
  · rintro (h | h | h)
    · exact ⟨.ints, by decide, fun v hv => by obtain ⟨n, rfl⟩ := h v hv; rfl⟩
    · exact ⟨.floats, by decide, fun v hv => by obtain ⟨x, rfl⟩ := h v hv; rfl⟩
    · exact ⟨.strs, by decide, fun v hv => by obtain ⟨s, rfl⟩ := h v hv; rfl⟩
  · rintro ⟨k, hk, h⟩
    cases k with
    | ints => exact .inl fun v hv => by cases v <;> first | exact ⟨_, rfl⟩ | cases h _ hv
    | floats => exact .inr (.inl fun v hv => by cases v <;> first | exact ⟨_, rfl⟩ | cases h _ hv)
    | strs => exact .inr (.inr fun v hv => by cases v <;> first | exact ⟨_, rfl⟩ | cases h _ hv)
    | bools =>
      -- No value is stored as a truth value from the start.
      exact .inl fun v hv => by cases v <;> cases h _ hv
    | list => exact absurd rfl hk

/-- Loose lists are those that canonical storage does away with. -/
theorem uniform_iff_tightKind {vs : List Value} : Uniform vs ↔ tightKind vs ≠ .list := by
  rw [uniform_iff_exists]
  constructor
  · rintro ⟨hne, k, hk, h⟩
    obtain ⟨v, vs, rfl⟩ := List.exists_cons_of_ne_nil hne
    have hall : vs.all (·.atomKind == v.atomKind) = true := by
      refine List.all_eq_true.2 fun u hu => beq_iff_eq.2 ?_
      rw [h u (List.mem_cons_of_mem _ hu), h v (List.mem_cons_self ..)]
    rw [tightKind, if_pos hall, h v (List.mem_cons_self ..)]
    exact hk
  · intro h
    refine ⟨?_, tightKind vs, h, fun v hv => atomKind_of_tightKind rfl h hv⟩
    rintro rfl
    exact h rfl

theorem Arr.not_loose_of_kind {a : Arr Value} (h : a.kind ≠ .list) : ¬a.Loose := by
  cases a with
  | list w => exact absurd rfl h
  | _ w => exact id

/-- Whether an array is loose depends on its variant and its elements. -/
theorem Arr.loose_iff {a : Arr Value} : a.Loose ↔ a.kind = .list ∧ Uniform a.values := by
  cases a with
  | list w => exact (and_iff_right rfl).symm
  | _ w => exact iff_of_false id fun h => nomatch h.1

/-- A value that is no integer, float or string keeps a list from being loose. -/
theorem not_uniform_of_mem {vs : List Value} {v : Value} (hv : v ∈ vs) (h : v.atomKind = .list) :
    ¬Uniform vs := by
  rw [uniform_iff_exists]
  rintro ⟨-, k, hk, hall⟩
  exact hk ((hall v hv).symm.trans h)

/-! ## Level by level -/

theorem deepCanonical_of_not_container {v : Value} (h : v.isContainer = false) :
    v.DeepCanonical := by
  intro parts a hpart
  cases parts with
  | nil =>
    cases hpart
    cases h
  | cons p parts =>
    cases v with
    | array _ | dict _ _ => cases h
    | _ => cases hpart

@[simp] theorem deepCanonical_int (n : Int64) : (Value.int n).DeepCanonical :=
  deepCanonical_of_not_container rfl

theorem deepCanonical_array {a : Arr Value} :
    (Value.array a).DeepCanonical ↔ ¬a.Loose ∧ ∀ v ∈ a.values, v.DeepCanonical := by
  constructor
  · intro h
    refine ⟨h [] a rfl, fun v hv => ?_⟩
    cases a with
    | list w =>
      obtain ⟨i, hi⟩ := List.mem_iff_getElem?.1 hv
      intro parts b hpart
      exact h (.element i :: parts) b (Option.bind_eq_some_iff.2 ⟨v, hi, hpart⟩)
    | _ w =>
      obtain ⟨x, -, rfl⟩ := List.mem_map.1 hv
      exact deepCanonical_of_not_container rfl
  · rintro ⟨htight, helements⟩ parts b hpart
    cases parts with
    | nil =>
      cases hpart
      exact htight
    | cons p parts =>
      cases a with
      | list w =>
        cases p with
        | element i =>
          obtain ⟨v, hv, hrest⟩ := Option.bind_eq_some_iff.1 hpart
          exact helements v (List.mem_of_getElem? hv) parts b hrest
        | _ => cases hpart
      | _ w => cases hpart

theorem deepCanonical_dict {s : Site} {d : Dict Value} :
    (Value.dict s d).DeepCanonical ↔
      (Value.array d.keys).DeepCanonical ∧ (Value.array d.vals).DeepCanonical := by
  constructor
  · exact fun h => ⟨fun parts => h (.keys :: parts), fun parts => h (.vals :: parts)⟩
  · rintro ⟨hkeys, hvals⟩ parts a hpart
    cases parts with
    | nil => cases hpart
    | cons p parts =>
      cases p with
      | element i => cases hpart
      | keys => exact hkeys parts a hpart
      | vals => exact hvals parts a hpart

theorem deepCanonical_of_kind {a : Arr Value} (h : a.kind ≠ .list) :
    (Value.array a).DeepCanonical := by
  refine deepCanonical_array.2 ⟨Arr.not_loose_of_kind h, fun v hv => ?_⟩
  cases a with
  | list w => exact absurd rfl h
  | _ w =>
    obtain ⟨x, -, rfl⟩ := List.mem_map.1 hv
    exact deepCanonical_of_not_container rfl

/-- Values that are alike are loose together. -/
theorem Alike.uniform_iff {us vs : List Value} (h : Alike us vs) : Uniform us ↔ Uniform vs := by
  rw [uniform_iff_tightKind, uniform_iff_tightKind, tightKind_congr h]

theorem deepCanonical_bare (v : Value) : v.bare.DeepCanonical ↔ v.DeepCanonical := by
  induction v using Value.nest_induction with
  | leaf v hv => cases v <;> first | exact Iff.rfl | cases hv
  | error s v =>
    exact iff_of_true (deepCanonical_of_not_container rfl) (deepCanonical_of_not_container rfl)
  | dict s keys vals ihk ihv =>
    have hparts := and_congr ihk ihv
    exact deepCanonical_dict.trans (hparts.trans (deepCanonical_dict (d := ⟨keys, vals⟩)).symm)
  | array a ih =>
    have halike : Alike a.bare.values a.values := by
      rw [Arr.values_bare, alike_list, List.map_map]
      exact List.map_congr_left fun v _ => bare_bare v
    refine deepCanonical_array.trans (Iff.trans ?_ deepCanonical_array.symm)
    refine and_congr (not_congr ?_) ?_
    · rw [Arr.loose_iff, Arr.loose_iff, Arr.kind_bare, halike.uniform_iff]
    · rw [Arr.values_bare, List.forall_mem_map]
      refine forall₂_congr fun v hv => ?_
      cases a with
      | list w => exact ih v (Window.mem_of_mem_items hv)
      | _ w =>
        obtain ⟨x, -, rfl⟩ := List.mem_map.1 hv
        exact Iff.rfl

/-- Names, surroundings and pins do not matter. -/
theorem deepCanonical_congr {u v : Value} (h : Alike u v) : u.DeepCanonical ↔ v.DeepCanonical := by
  rw [← deepCanonical_bare u, show u.bare = v.bare from h, deepCanonical_bare]

/-! ## Neat values -/

/-- Well-formed and deep-canonical. -/
def Value.Neat (v : Value) : Prop := WellFormed v ∧ v.DeepCanonical

/-- The elements of the array are neat, and the array may be loose. -/
def Arr.NeatElements (a : Arr Value) : Prop := WellFormed a ∧ ∀ v ∈ a.values, v.DeepCanonical

/-- The arrays of the dictionary are neat and of equal length. -/
def Dict.Neat (d : Dict Value) : Prop :=
  d.Paired ∧ (Value.array d.keys).DeepCanonical ∧ (Value.array d.vals).DeepCanonical

section Neat

variable {a b : Arr Value} {v : Value} {vs : List Value} {c : Scope} {s : Site}

theorem neat_array : (Value.array a).Neat ↔ a.NeatElements ∧ ¬a.Loose := by
  rw [Value.Neat, Arr.NeatElements, deepCanonical_array, and_assoc]
  exact and_congr_right' and_comm

theorem neat_dict {d : Dict Value} : (Value.dict s d).Neat ↔ d.Neat := by
  rw [Value.Neat, Dict.Neat, deepCanonical_dict, wellFormed_dict]
  exact Iff.rfl

theorem Dict.Neat.keys {d : Dict Value} (h : d.Neat) : (Value.array d.keys).Neat :=
  ⟨(everywhere_array _).2 h.1.2.1, h.2.1⟩

theorem Dict.Neat.vals {d : Dict Value} (h : d.Neat) : (Value.array d.vals).Neat :=
  ⟨(everywhere_array _).2 h.1.2.2, h.2.2⟩

theorem Arr.NeatElements.neat (h : a.NeatElements) (hv : v ∈ a.values) : v.Neat :=
  ⟨everywhere_iff_forall.1 (everywhere_values h.1) v hv, h.2 v hv⟩

theorem neatElements_of_neat (h : (Value.array a).Neat) : a.NeatElements := (neat_array.1 h).1

theorem neatElements_of_forall (ha : WellFormed a) (h : ∀ v ∈ a.values, v.Neat) :
    a.NeatElements := ⟨ha, fun v hv => (h v hv).2⟩

theorem neat_of_kind (ha : WellFormed a) (h : a.kind ≠ .list) : (Value.array a).Neat :=
  ⟨(everywhere_array a).2 ha, deepCanonical_of_kind h⟩

theorem neat_int (n : Int64) : (Value.int n).Neat := ⟨everywhere_int n, deepCanonical_int n⟩

theorem wellFormed_of_neat (h : ∀ v ∈ vs, v.Neat) : WellFormed vs :=
  everywhere_iff_forall.2 fun v hv => (h v hv).1

/-! ## Arrays that become neat -/

theorem kind_pack {k : Kind} (hk : k ≠ .list) (hk' : k ≠ .bools) : (Arr.pack s vs k).kind = k := by
  cases k <;> first | rfl | contradiction

theorem tightKind_ne_bools (vs : List Value) : tightKind vs ≠ .bools := by
  have hatom (v : Value) : v.atomKind ≠ .bools := by cases v <;> rintro ⟨⟩
  cases vs with
  | nil => rintro ⟨⟩
  | cons v vs =>
    by_cases hall : vs.all (·.atomKind == v.atomKind) = true
    · rw [tightKind, if_pos hall]
      exact hatom v
    · rw [tightKind, if_neg hall]
      rintro ⟨⟩

theorem kind_ofValues (s : Site) (vs : List Value) : (Arr.ofValues s vs).kind = tightKind vs := by
  by_cases htight : tightKind vs = .list
  · rw [Arr.ofValues, htight]
    rfl
  · exact kind_pack htight (tightKind_ne_bools vs)

theorem neat_ofValues (h : ∀ v ∈ vs, v.Neat) : (Value.array (.ofValues s vs)).Neat := by
  have hwf : WellFormed (Arr.ofValues s vs) := wellFormed_ofValues (wellFormed_of_neat h)
  refine neat_array.2 ⟨neatElements_of_forall hwf fun v hv => ?_, ?_⟩
  · rw [Arr.values_ofValues] at hv
    exact h v hv
  · rw [Arr.loose_iff, Arr.values_ofValues, uniform_iff_tightKind, kind_ofValues]
    exact fun h => h.2 h.1

/-- Canonical storage is what makes an array with neat elements neat. -/
theorem neat_canonical (h : a.NeatElements) : (Value.array (a.canonical c)).Neat := by
  have hwf : WellFormed (Value.array (a.canonical c)) :=
    (everywhere_array _).2 (wellFormed_canonical h.1)
  cases a with
  | list w =>
    simp only [Arr.canonical] at hwf ⊢
    split
    · rename_i hkind
      have htight : (Value.array (.list w)).DeepCanonical := by
        refine deepCanonical_array.2 ⟨fun hloose => ?_, h.2⟩
        exact uniform_iff_tightKind.1 hloose hkind
      split
      · -- Freezing pins handles and does nothing else.
        exact ⟨wellFormed_freeze ((everywhere_array _).2 h.1) c,
          (deepCanonical_congr (alike_freeze c _)).2 htight⟩
      · exact ⟨(everywhere_array _).2 h.1, htight⟩
    · exact neat_ofValues fun v hv => h.neat hv
  | _ w => exact ⟨hwf, deepCanonical_of_kind (by rintro ⟨⟩)⟩

theorem neat_empty (s : Site) (k : Kind) : (Value.array (.empty s k)).Neat := by
  refine neat_array.2 ⟨neatElements_of_forall (wellFormed_empty s k) fun v hv => ?_, ?_⟩
  · rw [Arr.values_eq_nil (len_empty s k)] at hv
    cases hv
  · rw [Arr.loose_iff, Arr.values_eq_nil (len_empty s k)]
    exact fun h => h.2.1 rfl

theorem neatElements_put {i : Nat} (ha : a.NeatElements) (hv : v.Neat) :
    (a.put c i v).NeatElements := by
  refine neatElements_of_forall (wellFormed_put ha.1 hv.1) fun u hu => ?_
  rw [Arr.values_put] at hu
  rcases List.mem_or_eq_of_mem_set hu with hu | rfl
  · exact ha.neat hu
  · exact hv

theorem neatElements_push (ha : a.NeatElements) (hv : v.Neat) : (a.push c v).NeatElements := by
  refine neatElements_of_forall (wellFormed_push ha.1 hv.1) fun u hu => ?_
  rw [Arr.values_push] at hu
  rcases List.mem_append.1 hu with hu | hu
  · exact ha.neat hu
  · exact List.mem_singleton.1 hu ▸ hv

theorem kind_select {ps : List Nat} (h : a.select s ps = .ok b) : b.kind = a.kind := by
  unfold Arr.select at h
  split at h
  · cases h
  · cases h
    exact Arr.kind_update ..

theorem neatElements_select {ps : List Nat} (ha : a.NeatElements) (h : a.select s ps = .ok b) :
    b.NeatElements := by
  refine neatElements_of_forall (wellFormed_select ha.1 h) fun v hv => ?_
  rw [Arr.values_select h] at hv
  obtain ⟨i, -, hi⟩ := List.mem_filterMap.1 hv
  exact ha.neat (List.mem_of_getElem? hi)

/-- Joined to nothing, the right array stays as it is, and must be neat itself. -/
theorem neat_concat (ha : (Value.array a).Neat) (hb : b.NeatElements)
    (hempty : a.len = 0 → ¬b.Loose) : (Value.array (a.concat s b)).Neat := by
  have hwf : WellFormed (a.concat s b) := wellFormed_concat (neatElements_of_neat ha).1 hb.1
  unfold Arr.concat at hwf ⊢
  split
  · exact neat_of_kind hwf nofun
  · exact neat_of_kind hwf nofun
  · exact neat_of_kind hwf nofun
  · exact neat_of_kind hwf nofun
  · split
    · exact ha
    split
    · exact neat_array.2 ⟨hb, hempty ‹_›⟩
    · refine neat_ofValues fun v hv => ?_
      rcases List.mem_append.1 hv with hv | hv
      · exact (neatElements_of_neat ha).neat hv
      · exact hb.neat hv

/-! ## Updates -/

/-- A step that puts a neat value in the place of a neat value. -/
def Step.Neat (step : Step) : Prop := ∀ v, v.Neat → ∀ r, step.run v = .ok r → r.Neat

theorem neatElements_runSteps {steps : List Step} (ha : a.NeatElements)
    (hsteps : ∀ st ∈ steps, st.Neat) :
    (a.runSteps c steps).slot.NeatElements ∧ (a.runSteps c steps).slot.len = a.len := by
  induction steps generalizing a with
  | nil => exact ⟨ha, rfl⟩
  | cons st rest ih =>
    obtain ⟨hst, hrest⟩ := List.forall_mem_cons.1 hsteps
    simp only [Arr.runSteps]
    split
    · exact ⟨ha, rfl⟩
    · rename_i old hold
      split
      · exact ⟨ha, rfl⟩
      · rename_i new hnew
        have hnew := hst old (ha.neat (List.mem_of_getElem? hold)) new hnew
        obtain ⟨hneat, hlen⟩ := ih (neatElements_put (c := c) (i := st.position) ha hnew) hrest
        exact ⟨hneat, hlen.trans (len_put ha.1 hnew.1)⟩

/-- On its way an update may leave a loose list, but not in the end, wherever it ends. -/
theorem neat_revise {steps : List Step} (ha : a.NeatElements) (hsteps : ∀ st ∈ steps, st.Neat) :
    (Value.array (a.revise c steps).slot).Neat ∧ (a.revise c steps).slot.len = a.len := by
  obtain ⟨hneat, hlen⟩ := neatElements_runSteps (c := c) ha hsteps
  exact ⟨neat_canonical hneat, (len_canonical hneat.1).trans hlen⟩

end Neat

end SharedArrays
