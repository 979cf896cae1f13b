import SharedArrays.Proofs.WellFormed.Arrays

/-!
# What remains of a value without sharing

Sharing shows in a value in three ways: the names of its buffers, what lies in them outside of
the windows, and pins. A value without all of this is *bare*; it owns an independent list for
each of its arrays. Two values are alike if they are the same when bare. Function values keep
their names, because their identity decides equality.

## Main definitions

* `Value.bare` — a value without names, surroundings and pins
* `Alike` — the same when bare

## Main results

* `alike_arr_iff` — arrays are alike if variant, facts and elements are
* `alike_freeze`, `alike_values_canonical` — freezing and canonical storage are not seen in the
  elements
-/

namespace SharedArrays

/-! ## Bare values -/

/-- The facts that flags tell about the elements. -/
def Flags.facts (f : Flags) : Flags := { f with pinned := false }

/-- The window on a buffer of its own. -/
def Window.bare {α : Type} (w : Window α) : Window α := .ofList ⟨[]⟩ w.items w.flags.facts

mutual

/-- The value without names, surroundings and pins. -/
def Value.bare : Value → Value
  | .array a => .array a.bare
  | .dict _ ⟨keys, vals⟩ => .dict ⟨[]⟩ ⟨keys.bare, vals.bare⟩
  | .error _ v => .error ⟨[]⟩ v.bare
  | v => v

/-- The array without names, surroundings and pins. -/
def Arr.bare : Arr Value → Arr Value
  | .bools w => .bools w.bare
  | .ints w => .ints w.bare
  | .floats w => .floats w.bare
  | .strs w => .strs w.bare
  | .list ⟨_, buf, off, len, flags⟩ =>
    .list (.ofList ⟨[]⟩ (stretch off len (bareCells buf)) flags.facts)

/-- The values of a buffer without names, surroundings and pins. -/
def bareCells : List Value → List Value
  | [] => []
  | v :: vs => v.bare :: bareCells vs

end

theorem bareCells_eq_map (vs : List Value) : bareCells vs = vs.map Value.bare := by
  induction vs with
  | nil => rfl
  | cons v vs ih => rw [bareCells, ih, List.map_cons]

theorem Arr.bare_list (w : Window Value) :
    (Arr.list w).bare = .list (.ofList ⟨[]⟩ (w.items.map Value.bare) w.flags.facts) := by
  have hcells : stretch w.off w.len (bareCells w.buf) = w.items.map Value.bare := by
    rw [bareCells_eq_map, stretch_map]
    rfl
  rw [← hcells]
  rfl

/-- What has a bare form. -/
class HasBare (α : Type) where
  /-- The bare form. -/
  bare : α → α

export HasBare (bare)

instance : HasBare Value := ⟨Value.bare⟩

instance : HasBare (Arr Value) := ⟨Arr.bare⟩

instance : HasBare (Dict Value) := ⟨fun d => ⟨d.keys.bare, d.vals.bare⟩⟩

instance {α : Type} [HasBare α] : HasBare (List α) := ⟨List.map bare⟩

instance {α : Type} [HasBare α] : HasBare (Option α) := ⟨Option.map bare⟩

instance : HasBare (Failure Value) :=
  ⟨fun e => match e.cause with
    | .raised v => { e with cause := .raised v.bare }
    | _ => e⟩

instance {α : Type} [HasBare α] : HasBare (Result α) :=
  ⟨fun r => match r with
    | .ok a => .ok (bare a)
    | .error e => .error (bare e)⟩

instance {α : Type} [HasBare α] : HasBare (Outcome α) :=
  ⟨fun o => ⟨bare o.slot, bare o.failure⟩⟩

/-- The same when bare. -/
def Alike {α : Type} [HasBare α] (x y : α) : Prop := bare x = bare y

section Alike

variable {α β : Type} [HasBare α] [HasBare β]

theorem Alike.refl (x : α) : Alike x x := rfl

theorem Alike.symm {x y : α} (h : Alike x y) : Alike y x := Eq.symm h

theorem Alike.trans {x y z : α} (hxy : Alike x y) (hyz : Alike y z) : Alike x z :=
  Eq.trans hxy hyz

/-! ## Lists, options and answers -/

theorem alike_cons {x y : α} {xs ys : List α} :
    Alike (x :: xs) (y :: ys) ↔ Alike x y ∧ Alike xs ys :=
  List.cons_eq_cons

theorem alike_list {xs ys : List α} : Alike xs ys ↔ xs.map bare = ys.map bare := Iff.rfl

theorem Alike.length_eq {xs ys : List α} (h : Alike xs ys) : xs.length = ys.length := by
  have hlen := congrArg List.length (alike_list.1 h)
  rwa [List.length_map, List.length_map] at hlen

/-- Only nothing is alike to nothing. -/
theorem alike_nil {ys : List α} : Alike [] ys ↔ ys = [] :=
  ⟨fun h => List.eq_nil_of_length_eq_zero h.length_eq.symm, fun h => h ▸ .refl _⟩

theorem Alike.exists_cons {x : α} {xs ys : List α} (h : Alike (x :: xs) ys) :
    ∃ y ys', ys = y :: ys' ∧ Alike x y ∧ Alike xs ys' := by
  cases ys with
  | nil => cases h
  | cons y ys' => exact ⟨y, ys', rfl, alike_cons.1 h⟩

theorem Alike.getElem? {xs ys : List α} (h : Alike xs ys) (i : Nat) : Alike xs[i]? ys[i]? := by
  have hi := congrArg (·[i]?) (alike_list.1 h)
  rwa [List.getElem?_map, List.getElem?_map] at hi

theorem Alike.set {xs ys : List α} {x y : α} (h : Alike xs ys) (hxy : Alike x y) (i : Nat) :
    Alike (xs.set i x) (ys.set i y) := by
  have hxy : bare x = bare y := hxy
  rw [alike_list, List.map_set, List.map_set, alike_list.1 h, hxy]

theorem Alike.append {xs ys xs' ys' : List α} (h : Alike xs ys) (h' : Alike xs' ys') :
    Alike (xs ++ xs') (ys ++ ys') := by
  rw [alike_list, List.map_append, List.map_append, alike_list.1 h, alike_list.1 h']

/-- Alike lists are related member by member. -/
theorem Alike.map_eq {γ : Type} {xs ys : List α} (h : Alike xs ys) {f g : α → γ}
    (hfg : ∀ x y, Alike x y → f x = g y) : xs.map f = ys.map g := by
  induction xs generalizing ys with
  | nil =>
    rw [alike_nil.1 h]
    rfl
  | cons x xs ih =>
    obtain ⟨y, ys, rfl, hxy, h⟩ := h.exists_cons
    rw [List.map_cons, List.map_cons, hfg x y hxy, ih h]

theorem Alike.map {xs ys : List α} (h : Alike xs ys) {f g : α → β}
    (hfg : ∀ x y, Alike x y → Alike (f x) (g y)) : Alike (xs.map f) (ys.map g) := by
  rw [alike_list, List.map_map, List.map_map]
  exact h.map_eq hfg

theorem Alike.find? {xs ys : List α} (h : Alike xs ys) {p q : α → Bool}
    (hpq : ∀ x y, Alike x y → p x = q y) : Alike (xs.find? p) (ys.find? q) := by
  induction xs generalizing ys with
  | nil =>
    rw [alike_nil.1 h]
    rfl
  | cons x xs ih =>
    obtain ⟨y, ys, rfl, hxy, h⟩ := h.exists_cons
    rw [List.find?_cons, List.find?_cons, hpq x y hxy]
    cases q y with
    | true => exact congrArg some hxy
    | false => exact ih h

theorem alike_some {x y : α} : Alike (some x) (some y) ↔ Alike x y :=
  Option.some_inj

theorem alike_ok {x y : α} : Alike (.ok x : Result α) (.ok y) ↔ Alike x y :=
  ⟨fun h => Except.ok.inj h, fun h => congrArg Except.ok h⟩

theorem alike_error {e e' : Failure Value} :
    Alike (.error e : Result α) (.error e') ↔ Alike e e' :=
  ⟨fun h => Except.error.inj h, fun h => congrArg Except.error h⟩

theorem alike_outcome {o o' : Outcome α} :
    Alike o o' ↔ Alike o.slot o'.slot ∧ Alike o.failure o'.failure :=
  Outcome.mk.injEq .. ▸ Iff.rfl

theorem alike_done {x y : α} (h : Alike x y) : Alike (Outcome.done x) (.done y) :=
  alike_outcome.2 ⟨h, .refl _⟩

theorem alike_failed {x y : α} (h : Alike x y) {e e' : Failure Value} (he : Alike e e') :
    Alike (Outcome.failed x e) (.failed y e') :=
  alike_outcome.2 ⟨h, alike_some.2 he⟩

theorem alike_map {o o' : Outcome α} (h : Alike o o') {f g : α → β}
    (hfg : ∀ x y, Alike x y → Alike (f x) (g y)) : Alike (o.map f) (o'.map g) := by
  obtain ⟨hslot, hfailure⟩ := alike_outcome.1 h
  exact alike_outcome.2 ⟨hfg _ _ hslot, hfailure⟩

/-- Alike answers are both values or both failures. -/
theorem alike_result_cases {r r' : Result α} (h : Alike r r') :
    (∃ a a', r = .ok a ∧ r' = .ok a' ∧ Alike a a') ∨
      ∃ e e', r = .error e ∧ r' = .error e' ∧ Alike e e' := by
  cases r with
  | ok a =>
    cases r' with
    | ok a' => exact .inl ⟨a, a', rfl, rfl, alike_ok.1 h⟩
    | error e' => cases h
  | error e =>
    cases r' with
    | ok a' => cases h
    | error e' => exact .inr ⟨e, e', rfl, rfl, alike_error.1 h⟩

theorem alike_option_cases {x y : Option α} (h : Alike x y) :
    (x = none ∧ y = none) ∨ ∃ a b, x = some a ∧ y = some b ∧ Alike a b := by
  cases x with
  | none =>
    cases y with
    | none => exact .inl ⟨rfl, rfl⟩
    | some b => cases h
  | some a =>
    cases y with
    | none => cases h
    | some b => exact .inr ⟨a, b, rfl, rfl, alike_some.1 h⟩

theorem alike_eq_none_iff {x y : Option α} (h : Alike x y) : x = none ↔ y = none := by
  rcases alike_option_cases h with ⟨rfl, rfl⟩ | ⟨a, b, rfl, rfl, -⟩
  · exact Iff.rfl
  · simp only [reduceCtorEq]

theorem alike_during {e e' : Failure Value} (h : Alike e e') (op : String) :
    Alike (e.during op) (e'.during op) := by
  have hbare (e : Failure Value) : bare (e.during op) = (bare e).during op := by
    obtain ⟨cause, _, _⟩ := e
    cases cause <;> rfl
  show bare (e.during op) = bare (e'.during op)
  rw [hbare, hbare]
  exact congrArg (Failure.during · op) h

theorem alike_map_during {x y : Option (Failure Value)} (h : Alike x y) (op : String) :
    Alike (x.map (·.during op)) (y.map (·.during op)) := by
  rcases alike_option_cases h with ⟨rfl, rfl⟩ | ⟨e, e', rfl, rfl, hsame⟩
  · exact .refl none
  · exact alike_some.2 (alike_during hsame op)

theorem alike_toResult {o o' : Outcome α} (h : Alike o o') : Alike o.toResult o'.toResult := by
  obtain ⟨v, failure⟩ := o
  obtain ⟨v', failure'⟩ := o'
  obtain ⟨hslot, hfailure⟩ := alike_outcome.1 h
  rcases alike_option_cases hfailure with ⟨hnone, hnone'⟩ | ⟨e, e', he, he', hsame⟩
  · cases hnone
    cases hnone'
    exact alike_ok.2 hslot
  · cases he
    cases he'
    exact alike_error.2 hsame

end Alike

/-! ## Arrays -/

theorem Arr.values_bare (a : Arr Value) : a.bare.values = a.values.map Value.bare := by
  cases a with
  | list w => rw [Arr.bare_list]; simp only [Arr.values, Window.items_ofList]
  | _ => simp only [Arr.bare, Arr.values, Window.bare, Window.items_ofList, List.map_map]; rfl

theorem Arr.kind_bare (a : Arr Value) : a.bare.kind = a.kind := by
  cases a <;> rfl

theorem Arr.flags_bare (a : Arr Value) : a.bare.flags = a.flags.facts := by
  cases a <;> rfl

theorem items_eq_of_map {α : Type} {tag : α → Value} (hbare : ∀ x, (tag x).bare = tag x)
    (hinj : ∀ x y, tag x = tag y → x = y) {xs ys : List α}
    (h : (xs.map tag).map Value.bare = (ys.map tag).map Value.bare) : xs = ys := by
  have htag (zs : List α) : (zs.map tag).map Value.bare = zs.map tag := by
    rw [List.map_map]
    exact List.map_congr_left fun z _ => hbare z
  rw [htag, htag] at h
  exact (List.map_inj_right hinj).1 h

/-- A bare array is its variant, its facts and its elements. -/
theorem alike_arr_iff {a b : Arr Value} : Alike a b ↔
    a.kind = b.kind ∧ a.flags.facts = b.flags.facts ∧ Alike a.values b.values := by
  have hwindow {α : Type} {v w : Window α} (hitems : v.items = w.items)
      (hfacts : v.flags.facts = w.flags.facts) : v.bare = w.bare := by
    rw [Window.bare, Window.bare, hitems, hfacts]
  constructor
  · intro h
    have h : a.bare = b.bare := h
    refine ⟨?_, ?_, ?_⟩
    · rw [← a.kind_bare, ← b.kind_bare, h]
    · rw [← a.flags_bare, ← b.flags_bare, h]
    · have hvalues := congrArg Arr.values h
      rwa [Arr.values_bare, Arr.values_bare] at hvalues
  · rintro ⟨hkind, hfacts, hvalues⟩
    show a.bare = b.bare
    cases a <;> cases b <;> cases hkind
    case bools.bools.refl v w =>
      have htag (x y : Bool) (h : Value.int (if x then 1 else 0) = .int (if y then 1 else 0)) :
          x = y := by
        cases x <;> cases y <;> first | rfl | cases h
      exact congrArg Arr.bools (hwindow (items_eq_of_map (fun _ => rfl) htag hvalues) hfacts)
    case ints.ints.refl v w =>
      have htag (x y : Int64) (h : Value.int x = .int y) : x = y := Value.int.inj h
      exact congrArg Arr.ints (hwindow (items_eq_of_map (fun _ => rfl) htag hvalues) hfacts)
    case floats.floats.refl v w =>
      have htag (x y : Double) (h : Value.float x = .float y) : x = y := Value.float.inj h
      exact congrArg Arr.floats (hwindow (items_eq_of_map (fun _ => rfl) htag hvalues) hfacts)
    case strs.strs.refl v w =>
      have htag (x y : String) (h : Value.str x = .str y) : x = y := Value.str.inj h
      exact congrArg Arr.strs (hwindow (items_eq_of_map (fun _ => rfl) htag hvalues) hfacts)
    case list.list.refl v w =>
      have hvalues : v.items.map Value.bare = w.items.map Value.bare := hvalues
      have hfacts : v.flags.facts = w.flags.facts := hfacts
      rw [Arr.bare_list, Arr.bare_list, hvalues, hfacts]

section Arrays

variable {a b : Arr Value}

theorem Alike.kind_eq (h : Alike a b) : a.kind = b.kind := (alike_arr_iff.1 h).1

theorem Alike.values (h : Alike a b) : Alike a.values b.values := (alike_arr_iff.1 h).2.2

theorem Alike.at? (h : Alike a b) (i : Nat) : Alike (a.at? i) (b.at? i) :=
  h.values.getElem? i

theorem Alike.len_eq (h : Alike a b) (ha : WellFormed a) (hb : WellFormed b) : a.len = b.len := by
  rw [← ha.length_values, ← hb.length_values]
  exact h.values.length_eq

theorem Window.items_eq_of_bare {α : Type} {v w : Window α} (h : v.bare = w.bare) :
    v.items = w.items := by
  have hitems := congrArg Window.items h
  rwa [Window.bare, Window.bare, Window.items_ofList, Window.items_ofList] at hitems

theorem Alike.exists_bools {v : Window Bool} (h : Alike (.bools v) b) :
    ∃ w, b = .bools w ∧ v.items = w.items := by
  cases b with
  | bools w => exact ⟨w, rfl, Window.items_eq_of_bare (Arr.bools.inj h)⟩
  | _ => cases h

theorem Alike.exists_ints {v : Window Int64} (h : Alike (.ints v) b) :
    ∃ w, b = .ints w ∧ v.items = w.items := by
  cases b with
  | ints w => exact ⟨w, rfl, Window.items_eq_of_bare (Arr.ints.inj h)⟩
  | _ => cases h

theorem Alike.exists_list {v : Window Value} (h : Alike (.list v) b) :
    ∃ w, b = .list w ∧ Alike v.items w.items := by
  cases b with
  | list w => exact ⟨w, rfl, h.values⟩
  | _ => cases h

theorem alike_array : Alike (.array a : Value) (.array b) ↔ Alike a b :=
  ⟨fun h => Value.array.inj h, fun h => congrArg Value.array h⟩

theorem alike_dict {s t : Site} {d e : Dict Value} :
    Alike (.dict s d : Value) (.dict t e) ↔ Alike d e := by
  obtain ⟨k, v⟩ := d
  obtain ⟨k', v'⟩ := e
  exact ⟨fun h => (Value.dict.inj h).2, fun h => congrArg (Value.dict ⟨[]⟩) h⟩

theorem alike_errorValue {s t : Site} {v w : Value} :
    Alike (.error s v : Value) (.error t w) ↔ Alike v w :=
  ⟨fun h => (Value.error.inj h).2, fun h => congrArg (Value.error ⟨[]⟩) h⟩

theorem alike_entries {d e : Dict Value} :
    Alike d e ↔ Alike d.keys e.keys ∧ Alike d.vals e.vals :=
  ⟨fun h => ⟨(Dict.mk.inj h).1, (Dict.mk.inj h).2⟩, fun ⟨hk, hv⟩ => by
    show (⟨d.keys.bare, d.vals.bare⟩ : Dict Value) = ⟨e.keys.bare, e.vals.bare⟩
    have hk : d.keys.bare = e.keys.bare := hk
    have hv : d.vals.bare = e.vals.bare := hv
    rw [hk, hv]⟩

end Arrays

/-! ## Freezing and canonical storage -/

/-- Pins are not seen. -/
theorem bare_freeze (c : Scope) (v : Value) : (v.freeze c).bare = v.bare := by
  induction v using Value.nest_induction generalizing c with
  | leaf v hleaf => cases v <;> first | rfl | cases hleaf
  | error s v _ => rfl
  | dict s keys vals ihk ihv =>
    rw [Value.freeze]
    split
    · rfl
    · have hk := Value.array.inj (ihk (c.beside [.array vals]))
      have hv := Value.array.inj (ihv (c.beside [.array keys]))
      simp only [Value.bare, hk, hv]
  | array a ih =>
    refine congrArg Value.array ?_
    cases a with
    | list w =>
      -- Frozen or not, each cell is the same when bare.
      have hfrozen : (w.frozenCells c).map Value.bare = w.buf.map Value.bare := by
        apply List.ext_getElem
        · simp
        · intro i hi hi'
          have hcell : i < w.buf.length := by simpa using hi'
          simp only [Window.frozenCells, List.getElem_map, List.getElem_mapIdx]
          split
          · exact ih _ (List.getElem_mem hcell) _
          · rfl
      have hcells : (if c.holds w.storage then w.buf else w.frozenCells c).map Value.bare =
          w.buf.map Value.bare := by
        split
        · rfl
        · exact hfrozen
      rw [Arr.freeze_list, Arr.bare_list, Arr.bare_list]
      simp only [Window.items, ← stretch_map, hcells]
      rfl
    | _ w => rfl

theorem alike_freeze (c : Scope) (v : Value) : Alike (v.freeze c) v := bare_freeze c v

theorem alike_arrFreeze (c : Scope) (a : Arr Value) : Alike (a.freeze c) a :=
  alike_array.1 (alike_freeze c (.array a))

/-- Canonical storage keeps the elements, but for pins. -/
theorem alike_values_canonical (c : Scope) (a : Arr Value) :
    Alike (a.canonical c).values a.values := by
  cases a with
  | list w =>
    rw [Arr.canonical]
    split
    · split
      · exact (alike_arrFreeze c (.list w)).values
      · exact .refl _
    · rename_i hne
      have hpack : (Arr.pack c.site w.items (tightKind w.items)).values = w.items :=
        Arr.values_ofValues c.site w.items
      rw [hpack]
      exact .refl _
  | _ => exact .refl _

end SharedArrays
