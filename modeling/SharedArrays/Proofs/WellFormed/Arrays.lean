import SharedArrays.Proofs.Everywhere
import SharedArrays.Arr.Read
import SharedArrays.Arr.Write

/-!
# Well-formed values, and what arrays do to them

A value is well-formed if every window inside of it lies inside its buffer, and every dictionary
inside of it has as many keys as values. Whatever reads, writes, joins or freezes arrays keeps
this, and the number of elements of the result is what it should be.

## Main definitions

* `WellFormed` — windows lie inside their buffers, dictionaries pair their arrays

## Main results

* `wellFormed_put`, `wellFormed_push`, `wellFormed_select`, `wellFormed_concat`,
  `wellFormed_ofValues`, `wellFormed_freeze`, `wellFormed_canonical`
* `len_put`, `len_push`, `len_select`, `len_concat`, `len_ofValues`, `len_canonical`
-/

namespace SharedArrays

/-- What a single handle has to satisfy to be well-formed. -/
def Value.Fits : Value → Prop
  | .array a => a.InBounds
  | .dict _ d => d.keys.len = d.vals.len
  | _ => True

/-- Every window lies inside its buffer, and every dictionary has as many keys as values. -/
abbrev WellFormed {α : Type} [HasNodes α] (x : α) : Prop := Everywhere Value.Fits x

instance : DecidablePred Value.Fits
  | .array a => inferInstanceAs (Decidable a.InBounds)
  | .dict _ d => inferInstanceAs (Decidable (d.keys.len = d.vals.len))
  | .nil | .int _ | .float _ | .str _ | .builtin _ | .error .. | .lambda .. | .compose ..
  | .project .. => inferInstanceAs (Decidable True)

instance {α : Type} [HasNodes α] (x : α) : Decidable (WellFormed x) :=
  inferInstanceAs (Decidable (∀ u ∈ allNodes x, u.Fits))

theorem wellFormed_arr {a : Arr Value} : WellFormed a ↔ a.InBounds ∧ WellFormed a.cells :=
  everywhere_arr

theorem wellFormed_dict {s : Site} {d : Dict Value} :
    WellFormed (.dict s d : Value) ↔
      d.keys.len = d.vals.len ∧ WellFormed d.keys ∧ WellFormed d.vals :=
  everywhere_dict s d

theorem WellFormed.inBounds {a : Arr Value} (h : WellFormed a) : a.InBounds :=
  (wellFormed_arr.1 h).1

theorem WellFormed.length_values {a : Arr Value} (h : WellFormed a) : a.values.length = a.len :=
  Arr.length_values h.inBounds

namespace Window

variable {α : Type}

theorem mem_of_mem_items {w : Window α} {x : α} (h : x ∈ w.items) : x ∈ w.buf :=
  List.mem_of_mem_drop (List.mem_of_mem_take h)

theorem mem_makePrivate {c : Scope} {w : Window α} {x : α} (h : x ∈ (w.makePrivate c).buf) :
    x ∈ w.buf := by
  unfold makePrivate at h
  split at h
  · exact h
  · exact mem_of_mem_items h

theorem mem_write {c : Scope} {w : Window α} {i : Nat} {x y : α} (h : y ∈ (w.write c i x).buf) :
    y ∈ w.buf ∨ y = x :=
  (List.mem_or_eq_of_mem_set h).imp_left mem_makePrivate

theorem mem_append {c : Scope} {w : Window α} {xs : List α} {y : α}
    (h : y ∈ (w.append c xs).buf) : y ∈ w.buf ∨ y ∈ xs := by
  rcases List.mem_append.1 h with h | h
  · exact .inl (mem_makePrivate (mem_of_mem_items h))
  · exact .inr h

theorem mem_select {s : Site} {w : Window α} {ps : List Nat} {x : α}
    (h : x ∈ (w.select s ps).buf) : x ∈ w.buf := by
  obtain ⟨i, -, hi⟩ := List.mem_filterMap.1 h
  exact mem_of_mem_items (List.mem_of_getElem? hi)

theorem InBounds.len_makePrivate {w : Window α} (h : w.InBounds) (c : Scope) :
    (w.makePrivate c).len = w.len := by
  rw [← (h.makePrivate c).length_items, items_makePrivate, h.length_items]

end Window

/-! ## Reading -/

/-- A change of windows that stays inside of buffers and takes no values from elsewhere. -/
theorem wellFormed_update {f : ∀ {β : Type}, Window β → Window β} {a : Arr Value}
    (hf : ∀ {β : Type} (w : Window β), w.InBounds → a.len = w.len → (f w).InBounds)
    (hmem : ∀ (w : Window Value) (v : Value), v ∈ (f w).buf → v ∈ w.buf)
    (h : WellFormed a) : WellFormed (a.update f) := by
  have hb := h.inBounds
  rw [wellFormed_arr]
  cases a with
  | list w =>
    have hcells := everywhere_iff_forall.1 (wellFormed_arr.1 h).2
    exact ⟨hf w hb rfl, everywhere_iff_forall.2 fun v hv => hcells v (hmem w v hv)⟩
  | _ w => exact ⟨hf w hb rfl, everywhere_empty⟩

theorem wellFormed_slice {a b : Arr Value} {i j : Nat} (h : WellFormed a)
    (hs : a.slice i j = .ok b) : WellFormed b := by
  unfold Arr.slice at hs
  split at hs
  · cases hs
  split at hs
  · cases hs
  cases hs
  exact wellFormed_update (fun w hw hlen => hw.slice (by omega) (by omega)) (fun _ _ hv => hv) h

theorem wellFormed_select {s : Site} {a b : Arr Value} {ps : List Nat} (h : WellFormed a)
    (hs : a.select s ps = .ok b) : WellFormed b := by
  unfold Arr.select at hs
  split at hs
  · cases hs
  cases hs
  exact wellFormed_update (fun _ _ _ => Window.inBounds_ofList ..)
    (fun _ _ hv => Window.mem_select hv) h

theorem getElem?_filterMap_getElem? {α : Type} {xs : List α} {ps : List Nat}
    (hlt : ∀ p ∈ ps, p < xs.length) {k j : Nat} (hk : ps[k]? = some j) :
    (ps.filterMap (xs[·]?))[k]? = xs[j]? := by
  induction ps generalizing k with
  | nil => cases hk
  | cons p ps ih =>
    obtain ⟨hp, hps⟩ := List.forall_mem_cons.1 hlt
    rw [List.filterMap_cons_some (List.getElem?_eq_getElem hp)]
    cases k with
    | zero =>
      obtain rfl : p = j := Option.some.inj hk
      exact (List.getElem?_eq_getElem hp).symm
    | succ k => exact ih hps hk

theorem length_filterMap_getElem? {α : Type} {xs : List α} {ps : List Nat}
    (h : ∀ p ∈ ps, p < xs.length) : (ps.filterMap (xs[·]?)).length = ps.length := by
  induction ps with
  | nil => rfl
  | cons p ps ih =>
    simp only [List.mem_cons, forall_eq_or_imp] at h
    simp [List.getElem?_eq_getElem h.1, ih h.2]

theorem len_select {s : Site} {a b : Arr Value} {ps : List Nat} (h : WellFormed a)
    (hs : a.select s ps = .ok b) : b.len = ps.length := by
  unfold Arr.select at hs
  split at hs
  · cases hs
  cases hs
  rename_i hall
  have hlt : ∀ p ∈ ps, p < a.len := fun p hp => by simpa using List.find?_eq_none.1 hall p hp
  have hb := h.inBounds
  cases a <;>
    exact length_filterMap_getElem? fun p hp => Nat.lt_of_lt_of_eq (hlt p hp) hb.length_items.symm

theorem Arr.values_select {s : Site} {a b : Arr Value} {ps : List Nat}
    (h : a.select s ps = .ok b) : b.values = ps.filterMap (a.values[·]?) := by
  -- Tagging elements and selecting them may be done in either order.
  have htag {β : Type} (tag : β → Value) (w : Window β) :
      (w.select s ps).items.map tag = ps.filterMap ((w.items.map tag)[·]?) := by
    simp only [Window.select, Window.items_ofList, List.map_filterMap, List.getElem?_map]
  unfold Arr.select at h
  split at h
  · cases h
  cases h
  cases a with
  | list w => exact Window.items_ofList ..
  | _ w => exact htag _ w

/-- The element that was selected as the `k`-th. -/
theorem Arr.at?_select {s : Site} {a b : Arr Value} {ps : List Nat} (ha : a.InBounds)
    (h : a.select s ps = .ok b) (hlt : ∀ p ∈ ps, p < a.len) {k j : Nat} (hk : ps[k]? = some j) :
    b.at? k = a.at? j := by
  rw [Arr.at?, Arr.values_select h]
  exact getElem?_filterMap_getElem? (Arr.length_values ha ▸ hlt) hk

theorem Arr.exists_select (s : Site) {a : Arr Value} {ps : List Nat} (h : ∀ p ∈ ps, p < a.len) :
    ∃ b, a.select s ps = .ok b := by
  unfold Arr.select
  split
  · rename_i bad hbad
    have hle := List.find?_some hbad
    have hlt := h bad (List.mem_of_find?_eq_some hbad)
    simp only [decide_eq_true_eq] at hle
    omega
  · exact ⟨_, rfl⟩

/-! ## Arrays from values -/

theorem wellFormed_pack {s : Site} {vs : List Value} {k : Kind} (h : WellFormed vs) :
    WellFormed (Arr.pack s vs k) := by
  unfold Arr.pack
  split
  · exact (everywhere_ints _).2 (Window.inBounds_ofList ..)
  · exact (everywhere_floats _).2 (Window.inBounds_ofList ..)
  · exact (everywhere_strs _).2 (Window.inBounds_ofList ..)
  · exact (everywhere_list _).2 ⟨Window.inBounds_ofList .., h⟩

theorem wellFormed_ofValues {s : Site} {vs : List Value} (h : WellFormed vs) :
    WellFormed (Arr.ofValues s vs) := wellFormed_pack h

theorem len_ofValues {s : Site} {vs : List Value} (h : WellFormed vs) :
    (Arr.ofValues s vs).len = vs.length := by
  rw [← (wellFormed_ofValues h).length_values, Arr.values_ofValues]

theorem wellFormed_empty (s : Site) (k : Kind) : WellFormed (Arr.empty s k : Arr Value) := by
  cases k <;>
    exact wellFormed_arr.2 ⟨Window.inBounds_ofList .., everywhere_empty⟩

@[simp] theorem len_empty (s : Site) (k : Kind) : (Arr.empty s k : Arr Value).len = 0 := by
  cases k <;> rfl

theorem wellFormed_asList {s : Site} {a : Arr Value} (h : WellFormed a) :
    WellFormed (a.asList s) := by
  cases a with
  | list w => exact h
  | _ => exact (everywhere_list _).2 ⟨Window.inBounds_ofList .., everywhere_values h⟩

theorem wellFormed_concat {s : Site} {a b : Arr Value} (ha : WellFormed a) (hb : WellFormed b) :
    WellFormed (a.concat s b) := by
  unfold Arr.concat
  split
  · exact (everywhere_bools _).2 (Window.inBounds_ofList ..)
  · exact (everywhere_ints _).2 (Window.inBounds_ofList ..)
  · exact (everywhere_floats _).2 (Window.inBounds_ofList ..)
  · exact (everywhere_strs _).2 (Window.inBounds_ofList ..)
  · split
    · exact ha
    split
    · exact hb
    · have hvalues := (everywhere_append ..).2 ⟨everywhere_values ha, everywhere_values hb⟩
      exact wellFormed_ofValues hvalues

/-! ## Windows inside their buffers -/

theorem inBounds_pack (s : Site) (vs : List Value) (k : Kind) : (Arr.pack s vs k).InBounds := by
  unfold Arr.pack
  split <;> exact Window.inBounds_ofList ..

theorem inBounds_concat {a b : Arr Value} (ha : a.InBounds) (hb : b.InBounds) (s : Site) :
    (a.concat s b).InBounds := by
  unfold Arr.concat
  split
  · exact Window.inBounds_ofList ..
  · exact Window.inBounds_ofList ..
  · exact Window.inBounds_ofList ..
  · exact Window.inBounds_ofList ..
  · split
    · exact ha
    split
    · exact hb
    · exact inBounds_pack ..

theorem len_concat {s : Site} {a b : Arr Value} (ha : a.InBounds) (hb : b.InBounds) :
    (a.concat s b).len = a.len + b.len := by
  rw [← Arr.length_values (inBounds_concat ha hb s), Arr.values_concat, List.length_append,
    Arr.length_values ha, Arr.length_values hb]

/-- An edit that stays inside of buffers. -/
theorem inBounds_store {edit : ∀ {β : Type}, Window β → β → Window β} {a b : Arr Value}
    {v : Value}
    (hedit : ∀ {β : Type} (w : Window β) (x : β), w.InBounds → (edit w x).InBounds)
    (ha : a.InBounds) (h : a.store edit v = .ok b) : b.InBounds := by
  unfold Arr.store at h
  split at h
  · split at h <;> cases h
    exact hedit _ _ ha
  all_goals cases h
  all_goals exact hedit _ _ ha

theorem inBounds_put {a : Arr Value} (ha : a.InBounds) (c : Scope) (i : Nat) (v : Value) :
    (a.put c i v).InBounds := by
  unfold Arr.put
  split
  · rename_i b hb
    exact inBounds_store (fun w x hw => hw.write c i x) ha hb
  · exact Window.inBounds_ofList ..

/-! ## Writing -/

/-- An edit that stays inside of buffers and adds nothing but the value to be stored. -/
theorem wellFormed_store {edit : ∀ {β : Type}, Window β → β → Window β} {a b : Arr Value}
    {v : Value}
    (hedit : ∀ {β : Type} (w : Window β) (x : β), w.InBounds → (edit w x).InBounds)
    (hmem : ∀ (w : Window Value) (x y : Value), y ∈ (edit w x).buf → y ∈ w.buf ∨ y = x)
    (ha : WellFormed a) (hv : WellFormed v) (h : a.store edit v = .ok b) : WellFormed b := by
  have hb := ha.inBounds
  unfold Arr.store at h
  split at h
  · split at h
    · cases h
      exact (everywhere_bools _).2 (hedit _ _ hb)
    · cases h
  · cases h; exact (everywhere_ints _).2 (hedit _ _ hb)
  · cases h; exact (everywhere_floats _).2 (hedit _ _ hb)
  · cases h; exact (everywhere_strs _).2 (hedit _ _ hb)
  · cases h
    have hcells := everywhere_iff_forall.1 (wellFormed_arr.1 ha).2
    refine (everywhere_list _).2 ⟨hedit _ _ hb, everywhere_iff_forall.2 fun y hy => ?_⟩
    rcases hmem _ _ _ hy with hy | rfl
    · exact hcells y hy
    · exact hv
  · cases h

theorem wellFormed_set {vs : List Value} {i : Nat} {v : Value} (hvs : WellFormed vs)
    (hv : WellFormed v) : WellFormed (vs.set i v) := by
  refine everywhere_iff_forall.2 fun u hu => ?_
  rcases List.mem_or_eq_of_mem_set hu with hu | rfl
  · exact everywhere_iff_forall.1 hvs u hu
  · exact hv

/-- A slot of a list may get any well-formed value. -/
theorem wellFormed_setCell {w : Window Value} (hw : WellFormed (Arr.list w)) (i : Nat) {v : Value}
    (hv : WellFormed v) : WellFormed (Arr.list { w with buf := w.buf.set i v }) := by
  obtain ⟨hb, hcells⟩ := (everywhere_list w).1 hw
  refine (everywhere_list _).2 ⟨?_, wellFormed_set hcells hv⟩
  simpa [Value.Fits, Arr.InBounds, Window.InBounds] using hb

theorem wellFormed_put {c : Scope} {a : Arr Value} {i : Nat} {v : Value} (ha : WellFormed a)
    (hv : WellFormed v) : WellFormed (a.put c i v) := by
  unfold Arr.put
  split
  · exact wellFormed_store (fun w x hw => hw.write c i x) (fun _ _ _ h => Window.mem_write h) ha hv
      ‹_›
  · rename_i w hw
    have : w = v := Arr.eq_of_store_error hw
    subst this
    exact (everywhere_list _).2 ⟨Window.inBounds_ofList ..,
      wellFormed_set (everywhere_values ha) hv⟩

theorem len_put {c : Scope} {a : Arr Value} {i : Nat} {v : Value} (ha : WellFormed a)
    (hv : WellFormed v) : (a.put c i v).len = a.len := by
  rw [← (wellFormed_put ha hv).length_values, Arr.values_put, List.length_set, ha.length_values]

theorem wellFormed_push {c : Scope} {a : Arr Value} {v : Value} (ha : WellFormed a)
    (hv : WellFormed v) : WellFormed (a.push c v) := by
  unfold Arr.push
  split
  · refine wellFormed_store (fun w x _ => w.inBounds_append c [x]) (fun w x y h => ?_) ha hv ‹_›
    simpa using Window.mem_append h
  · rename_i w hw
    have : w = v := Arr.eq_of_store_error hw
    subst this
    exact (everywhere_list _).2 ⟨Window.inBounds_ofList .., (everywhere_append ..).2
      ⟨everywhere_values ha, (everywhere_cons ..).2 ⟨hv, everywhere_empty⟩⟩⟩

theorem len_push {c : Scope} {a : Arr Value} {v : Value} (ha : WellFormed a)
    (hv : WellFormed v) : (a.push c v).len = a.len + 1 := by
  rw [← (wellFormed_push ha hv).length_values, Arr.values_push, List.length_append,
    ha.length_values, List.length_singleton]

/-! ## Freezing and canonical storage -/

@[simp] theorem len_freeze (c : Scope) (a : Arr Value) : (a.freeze c).len = a.len := by
  cases a with
  | list w => rw [Arr.freeze_list]; rfl
  | _ => rfl

@[simp] theorem length_frozenCells (c : Scope) (w : Window Value) :
    (w.frozenCells c).length = w.buf.length := by
  simp [Window.frozenCells]

theorem wellFormed_freeze {v : Value} (h : WellFormed v) (c : Scope) :
    WellFormed (v.freeze c) := by
  induction v using Value.nest_induction generalizing c with
  | leaf v hv => cases v <;> simp_all [Value.freeze, Value.isLeaf]
  | error s v => exact h
  | dict s keys vals ihk ihv =>
    obtain ⟨hlen, hk, hv⟩ := wellFormed_dict.1 h
    simp only [Value.freeze]
    split
    · exact h
    · refine wellFormed_dict.2 ⟨by simpa using hlen, ?_, ?_⟩
      · exact (everywhere_array _).1 (ihk ((everywhere_array _).2 hk) _)
      · exact (everywhere_array _).1 (ihv ((everywhere_array _).2 hv) _)
  | array a ih =>
    cases a with
    | list w =>
      obtain ⟨hb, hcells⟩ := (everywhere_list w).1 ((everywhere_array _).1 h)
      simp only [Value.freeze, Arr.freeze_list]
      refine (everywhere_array _).2 ((everywhere_list _).2 ⟨?_, ?_⟩)
      · simp only [Value.Fits, Arr.InBounds, Window.InBounds] at *
        split <;> simpa using hb
      · split
        · exact hcells
        · -- A cell is frozen beside the others, or stays as it is.
          refine everywhere_iff_forall.2 fun u hu => ?_
          obtain ⟨i, hi, rfl⟩ := List.mem_mapIdx.1 hu
          have hcell := everywhere_iff_forall.1 hcells _ (List.getElem_mem hi)
          split
          · exact ih _ (List.getElem_mem hi) hcell _
          · exact hcell
    | _ w =>
      have ha : WellFormed _ := (everywhere_array _).1 h
      exact (everywhere_array _).2 (wellFormed_arr.2 ⟨ha.inBounds, everywhere_empty⟩)

theorem wellFormed_canonical {c : Scope} {a : Arr Value} (h : WellFormed a) :
    WellFormed (a.canonical c) := by
  cases a with
  | list w =>
    have hitems : WellFormed w.items := everywhere_values h
    simp only [Arr.canonical]
    split
    · split
      · exact (everywhere_array _).1 (wellFormed_freeze ((everywhere_array _).2 h) c)
      · exact h
    · exact wellFormed_pack hitems
  | _ => exact h

theorem len_canonical {c : Scope} {a : Arr Value} (h : WellFormed a) :
    (a.canonical c).len = a.len := by
  cases a with
  | list w =>
    have hitems : WellFormed w.items := everywhere_values h
    simp only [Arr.canonical]
    split
    · split
      · exact len_freeze c _
      · rfl
    · exact (len_ofValues hitems).trans h.length_values
  | _ => rfl

end SharedArrays
