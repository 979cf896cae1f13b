import SharedArrays.Proofs.Equality

/-!
# Flags that are true

The facts that a handle states about its elements are hints: nothing checks them, and a look-up that
relies on a false one misses keys that are there. They sit on handles. A handle passes them on to
its copies and its slices, and each write through it takes them back.

A value is truthful if every array inside of it states only what its elements bear out. What the
operations on arrays make of truthful arrays is truthful.

## Main definitions

* `Value.precedes` — the order of the elements of ascending arrays
* `Flags.Hold` — what the flags say is true of the elements
* `Truthful` — the flags of all arrays inside hold

## Main results

* `Flags.Hold.sublist`, `Flags.Hold.congr` — parts of the elements, and equal elements
* `truthful_ofValues`, `truthful_til` — arrays that are made with flags
* `truthful_put`, `truthful_push`, `truthful_concat`, `truthful_freeze`, `truthful_canonical` — what
  is done to arrays
-/

namespace SharedArrays

/-! ## What flags say -/

/-- The order of the elements of an ascending array: numbers by value, strings by their bytes. -/
def Value.precedes : Value → Value → Bool
  | .int m, .int n => m ≤ n
  | .float x, .float y => x.toFloat ≤ y.toFloat
  | .str s, .str t => s ≤ t
  | _, _ => false

/-- What the flags of a handle say is true of its elements. -/
structure Flags.Hold (flags : Flags) (vs : List Value) : Prop where
  ascending : flags.ascending = true → vs.Pairwise fun u v => u.precedes v = true
  distinct : flags.distinct = true → vs.Pairwise fun u v => u.eqv v = false
  zeroOne : flags.zeroOne = true → ∀ v ∈ vs, v.int? = some 0 ∨ v.int? = some 1

instance (flags : Flags) (vs : List Value) : Decidable (flags.Hold vs) :=
  decidable_of_iff
    ((flags.ascending = true → vs.Pairwise fun u v => u.precedes v = true) ∧
      (flags.distinct = true → vs.Pairwise fun u v => u.eqv v = false) ∧
      (flags.zeroOne = true → ∀ v ∈ vs, v.int? = some 0 ∨ v.int? = some 1))
    ⟨fun h => ⟨h.1, h.2.1, h.2.2⟩, fun h => ⟨h.1, h.2, h.3⟩⟩

/-- The flags say nothing about the elements. They may pin the handle. -/
def Flags.Silent (flags : Flags) : Prop :=
  flags.ascending = false ∧ flags.distinct = false ∧ flags.zeroOne = false

namespace Flags

variable {flags : Flags} {us vs : List Value}

theorem silent_default : ({} : Flags).Silent := ⟨rfl, rfl, rfl⟩

theorem Silent.hold (h : flags.Silent) (vs : List Value) : flags.Hold vs := by
  obtain ⟨hascending, hdistinct, hzeroOne⟩ := h
  exact ⟨fun hf => Bool.noConfusion (hascending.symm.trans hf),
    fun hf => Bool.noConfusion (hdistinct.symm.trans hf),
    fun hf => Bool.noConfusion (hzeroOne.symm.trans hf)⟩

/-- A pin is no fact. -/
theorem Hold.withPin (h : flags.Hold vs) (pinned : Bool) :
    { flags with pinned }.Hold vs := ⟨h.ascending, h.distinct, h.zeroOne⟩

/-- What is true of all elements is true of some of them. -/
theorem Hold.sublist (h : flags.Hold vs) (hsub : us.Sublist vs) : flags.Hold us :=
  ⟨fun hf => (h.ascending hf).sublist hsub, fun hf => (h.distinct hf).sublist hsub,
    fun hf v hv => h.zeroOne hf v (hsub.subset hv)⟩

theorem precedes_atomKind {u v : Value} (h : u.precedes v = true) :
    u.atomKind ≠ .list ∧ v.atomKind ≠ .list := by
  cases u <;> cases v <;> first | simp [Value.atomKind]; done | cases h

theorem int?_eq_of_eqv {u v : Value} (h : u.eqv v = true) : u.int? = v.int? := by
  cases u <;> cases v <;> first | rfl | exact congrArg some (eq_of_beq h) | cases h

/-- Elements that are equal one by one satisfy the same flags. -/
theorem Hold.congr (h : flags.Hold us) (huv : Pointwise (fun u v => u.eqv v = true) us vs) :
    flags.Hold vs := by
  refine ⟨fun hf => ?_, fun hf => ?_, fun hf v hv => ?_⟩
  · refine huv.pairwise (h.ascending hf) fun u v u' v' huv huv' hprecedes => ?_
    obtain ⟨hu, hu'⟩ := precedes_atomKind hprecedes
    rwa [← eq_of_eqv_of_atomKind huv hu, ← eq_of_eqv_of_atomKind huv' hu']
  · refine huv.pairwise (h.distinct hf) fun u v u' v' huv huv' hne => ?_
    rwa [← eqv_left_congr huv, ← eqv_right_congr huv']
  · obtain ⟨i, hi⟩ := List.mem_iff_getElem?.1 hv
    have hvu := huv.flip (S := fun v u => u.eqv v = true) fun _ _ _ h => h
    obtain ⟨u, hu, huv⟩ := hvu.exists_right hi
    rw [← int?_eq_of_eqv huv]
    exact h.zeroOne hf u (List.mem_of_getElem? hu)

end Flags

/-- The flags of the handle, if it is one on an array, hold. -/
def Value.FlagsHold : Value → Prop
  | .array a => a.flags.Hold a.values
  | _ => True

instance : DecidablePred Value.FlagsHold
  | .array a => inferInstanceAs (Decidable (a.flags.Hold a.values))
  | .nil | .int _ | .float _ | .str _ | .builtin _ | .dict .. | .error .. | .lambda .. | .compose ..
  | .project .. => inferInstanceAs (Decidable True)

/-- The flags of all arrays inside hold. -/
abbrev Truthful {α : Type} [HasNodes α] (x : α) : Prop := Everywhere Value.FlagsHold x

instance {α : Type} [HasNodes α] (x : α) : Decidable (Truthful x) :=
  inferInstanceAs (Decidable (∀ u ∈ allNodes x, u.FlagsHold))

theorem truthful_arr {a : Arr Value} :
    Truthful a ↔ a.flags.Hold a.values ∧ Truthful a.cells := everywhere_arr

theorem truthful_dict {s : Site} {d : Dict Value} :
    Truthful (.dict s d : Value) ↔ Truthful d :=
  (everywhere_dict s d).trans ((and_iff_right trivial).trans everywhere_entries.symm)

/-- An array whose flags say nothing. -/
theorem truthful_of_silent {a : Arr Value} (h : a.flags.Silent) (hcells : Truthful a.cells) :
    Truthful a := truthful_arr.2 ⟨h.hold _, hcells⟩

/-- A new list without flags. -/
theorem truthful_newList {s : Site} {vs : List Value} (h : Truthful vs) :
    Truthful (.list (.ofList s vs) : Arr Value) := truthful_of_silent Flags.silent_default h

/-! ## New arrays -/

theorem truthful_pack {s : Site} {vs : List Value} {k : Kind} (h : Truthful vs) :
    Truthful (Arr.pack s vs k) := by
  unfold Arr.pack
  split
  · refine truthful_arr.2 ⟨⟨nofun, nofun, fun hall v hv => ?_⟩, everywhere_empty⟩
    -- The flag is set just if all integers are 0 or 1.
    simp only [Arr.values, Window.items_ofList] at hv
    obtain ⟨n, hn, rfl⟩ := List.mem_map.1 hv
    have hbit : isTruth n = true := List.all_eq_true.1 hall n hn
    simpa [isTruth, Value.int?] using hbit
  · exact truthful_of_silent Flags.silent_default everywhere_empty
  · exact truthful_of_silent Flags.silent_default everywhere_empty
  · exact truthful_newList h

theorem truthful_ofValues {s : Site} {vs : List Value} (h : Truthful vs) :
    Truthful (Arr.ofValues s vs) := truthful_pack h

theorem truthful_empty (s : Site) (k : Kind) : Truthful (Arr.empty s k : Arr Value) := by
  cases k <;> exact truthful_of_silent Flags.silent_default everywhere_empty

/-- The first integers ascend, none of them occurs twice, and up to two of them are 0 and 1. -/
theorem truthful_til (s : Site) (n : Nat) : Truthful (Arr.til s n) := by
  -- The count is taken as a machine integer, so no element wraps.
  have hbound : (Int64.ofNat n).toInt.toNat < 2 ^ 63 := by
    have := (Int64.ofNat n).toInt_lt
    omega
  have hvalue {i : Nat} (hi : i < (Int64.ofNat n).toInt.toNat) : (Int64.ofNat i).toInt = i :=
    Int64.toInt_ofNat_of_lt (by omega)
  have hvalues : (Arr.til s n).values =
      (List.range (Int64.ofNat n).toInt.toNat).map fun i => .int (Int64.ofNat i) := by
    rw [Arr.til, Arr.values, Window.items_ofList, List.map_map]
    rfl
  refine truthful_arr.2 ⟨?_, everywhere_empty⟩
  rw [hvalues]
  generalize hm : (Int64.ofNat n).toInt.toNat = m at *
  have hpairs : (List.range m).Pairwise fun i j => i < j ∧ j < m := by
    refine List.pairwise_lt_range.imp_of_mem fun {i j} _ hj hij => ⟨hij, List.mem_range.1 hj⟩
  refine ⟨fun _ => ?_, fun _ => ?_, fun hzeroOne v hv => ?_⟩
  · refine List.pairwise_map.2 (hpairs.imp fun {i j} h => ?_)
    obtain ⟨hij, hj⟩ := h
    refine decide_eq_true ?_
    rw [Int64.le_iff_toInt_le, hvalue (by omega), hvalue hj]
    omega
  · refine List.pairwise_map.2 (hpairs.imp fun {i j} h => ?_)
    obtain ⟨hij, hj⟩ := h
    refine beq_eq_false_iff_ne.2 fun heq => ?_
    have hint : (Int64.ofNat i).toInt = (Int64.ofNat j).toInt := congrArg Int64.toInt heq
    rw [hvalue (by omega), hvalue hj] at hint
    omega
  · obtain ⟨i, hi, rfl⟩ := List.mem_map.1 hv
    have hn : n ≤ 2 := of_decide_eq_true hzeroOne
    have hi : i < m := List.mem_range.1 hi
    have hmn : m = n := by
      rw [← hm, Int64.toInt_ofNat_of_lt (by omega)]
      rfl
    obtain rfl | rfl : i = 0 ∨ i = 1 := by omega
    · exact .inl rfl
    · exact .inr rfl

/-! ## Handles on the same elements -/

/-- A change of windows that keeps some of the elements, and the facts that it keeps too. -/
theorem truthful_update {f : ∀ {β : Type}, Window β → Window β} {a : Arr Value}
    (hflags : (a.update f).flags.Hold (a.update f).values)
    (hmem : ∀ (w : Window Value) (v : Value), v ∈ (f w).buf → v ∈ w.buf) (h : Truthful a) :
    Truthful (a.update f) := by
  refine truthful_arr.2 ⟨hflags, ?_⟩
  cases a with
  | list w =>
    have hcells := everywhere_iff_forall.1 (truthful_arr.1 h).2
    exact everywhere_iff_forall.2 fun v hv => hcells v (hmem w v hv)
  | _ w => exact everywhere_empty

theorem truthful_slice {a b : Arr Value} {i j : Nat} (h : Truthful a) (hs : a.slice i j = .ok b) :
    Truthful b := by
  have hsub {α : Type} {w : Window α} (hj : j ≤ w.len) : (w.slice i j).items.Sublist w.items := by
    rw [Window.items_slice hj]
    exact (List.take_sublist ..).trans (List.drop_sublist ..)
  unfold Arr.slice at hs
  split at hs
  · cases hs
  split at hs
  · cases hs
  cases hs
  rename_i hj _
  have hj : j ≤ a.len := Nat.le_of_not_lt hj
  have hhold := (truthful_arr.1 h).1
  refine truthful_update ?_ (fun _ _ hv => hv) h
  cases a with
  | list w => exact hhold.sublist (hsub hj)
  | _ w => exact hhold.sublist ((hsub hj).map _)

theorem truthful_copy {s : Site} {a : Arr Value} (h : Truthful a) : Truthful (a.copy s) := by
  have hhold := (truthful_arr.1 h).1
  refine truthful_update ?_ (fun _ _ hv => Window.mem_of_mem_items hv) h
  cases a with
  | _ w =>
    simp only [Arr.update, Arr.values, Window.items_copy]
    exact hhold.withPin false

theorem truthful_setFlags {a : Arr Value} (h : Truthful a) {flags : Flags}
    (hflags : flags.Hold a.values) : Truthful (a.setFlags flags) := by
  refine truthful_update ?_ (fun _ _ hv => hv) h
  cases a <;> exact hflags

theorem truthful_pin {a : Arr Value} (h : Truthful a) : Truthful a.pin :=
  truthful_setFlags h ((truthful_arr.1 h).1.withPin true)

/-! ## Selecting and joining -/

theorem truthful_select {s : Site} {a : Arr Value} {ps : List Nat} (h : Truthful a) :
    Truthful (a.select s ps) := by
  unfold Arr.select
  split
  · exact everywhere_error_of_cause rfl
  · refine truthful_update ?_ (fun _ _ hv => Window.mem_select hv) h
    cases a <;> exact Flags.silent_default.hold _

theorem truthful_asList {s : Site} {a : Arr Value} (h : Truthful a) : Truthful (a.asList s) := by
  cases a with
  | list w => exact h
  | _ => exact truthful_newList (everywhere_values h)

/-- An empty side gives way to the other one with all its flags. -/
theorem truthful_concat {s : Site} {a b : Arr Value} (ha : Truthful a) (hb : Truthful b) :
    Truthful (a.concat s b) := by
  unfold Arr.concat
  split
  · exact truthful_of_silent Flags.silent_default everywhere_empty
  · exact truthful_of_silent Flags.silent_default everywhere_empty
  · exact truthful_of_silent Flags.silent_default everywhere_empty
  · exact truthful_of_silent Flags.silent_default everywhere_empty
  · split
    · exact ha
    split
    · exact hb
    · have hboth : Truthful (a.values ++ b.values) :=
        (everywhere_append ..).2 ⟨everywhere_values ha, everywhere_values hb⟩
      exact truthful_ofValues hboth

/-! ## Writing -/

theorem truthful_makePrivate {c : Scope} {a : Arr Value} (h : Truthful a) :
    Truthful (a.makePrivate c) := by
  have hsilent {β : Type} (w : Window β) : (w.makePrivate c).flags.Silent := by
    rw [Window.flags_makePrivate]
    exact Flags.silent_default
  refine truthful_update (Flags.Silent.hold ?_ _) (fun _ _ hv => Window.mem_makePrivate hv) h
  cases a <;> exact hsilent _

/-- An edit that takes the facts back and adds nothing but the value to be stored. -/
theorem truthful_store {edit : ∀ {β : Type}, Window β → β → Window β} {a b : Arr Value}
    {v : Value} (hflags : ∀ {β : Type} (w : Window β) (x : β), (edit w x).flags = {})
    (hmem : ∀ (w : Window Value) (x y : Value), y ∈ (edit w x).buf → y ∈ w.buf ∨ y = x)
    (ha : Truthful a) (hv : Truthful v) (h : a.store edit v = .ok b) : Truthful b := by
  refine truthful_of_silent (Arr.flags_of_store hflags h ▸ Flags.silent_default) ?_
  unfold Arr.store at h
  split at h
  · split at h <;> cases h
    exact everywhere_empty
  · cases h; exact everywhere_empty
  · cases h; exact everywhere_empty
  · cases h; exact everywhere_empty
  · cases h
    have hcells := everywhere_iff_forall.1 (truthful_arr.1 ha).2
    refine everywhere_iff_forall.2 fun y hy => ?_
    rcases hmem _ _ _ hy with hy | rfl
    · exact hcells y hy
    · exact hv
  · cases h

theorem truthful_set {vs : List Value} {i : Nat} {v : Value} (hvs : Truthful vs)
    (hv : Truthful v) : Truthful (vs.set i v) := by
  refine everywhere_iff_forall.2 fun u hu => ?_
  rcases List.mem_or_eq_of_mem_set hu with hu | rfl
  · exact everywhere_iff_forall.1 hvs u hu
  · exact hv

theorem truthful_put {c : Scope} {a : Arr Value} {i : Nat} {v : Value} (ha : Truthful a)
    (hv : Truthful v) : Truthful (a.put c i v) := by
  unfold Arr.put
  split
  · have hflags {β : Type} (w : Window β) (x : β) : (w.write c i x).flags = {} :=
      w.flags_makePrivate c
    exact truthful_store hflags (fun _ _ _ => Window.mem_write) ha hv ‹_›
  · rename_i w hw
    rw [Arr.eq_of_store_error hw]
    exact truthful_newList (truthful_set (everywhere_values ha) hv)

theorem truthful_push {c : Scope} {a : Arr Value} {v : Value} (ha : Truthful a)
    (hv : Truthful v) : Truthful (a.push c v) := by
  unfold Arr.push
  split
  · refine truthful_store (fun _ _ => rfl) (fun w x y h => ?_) ha hv ‹_›
    simpa using Window.mem_append h
  · rename_i w hw
    rw [Arr.eq_of_store_error hw]
    exact truthful_newList ((everywhere_append ..).2
      ⟨everywhere_values ha, everywhere_singleton.2 hv⟩)

theorem truthful_extend? {c : Scope} {a b : Arr Value} (ha : Truthful a) (hb : Truthful b) :
    Truthful (a.extend? c b) := by
  cases a <;> cases b <;> first | exact everywhere_none | skip
  case list.list v w =>
    refine truthful_of_silent Flags.silent_default (everywhere_iff_forall.2 fun y hy => ?_)
    rcases Window.mem_append hy with hy | hy
    · exact everywhere_iff_forall.1 (truthful_arr.1 ha).2 y hy
    · exact everywhere_iff_forall.1 (everywhere_values hb) y hy
  all_goals exact truthful_of_silent Flags.silent_default everywhere_empty

/-! ## Freezing and canonical storage -/

theorem flags_freeze (c : Scope) (a : Arr Value) :
    (a.freeze c).flags = { a.flags with pinned := true } := by
  cases a with
  | list w => rw [Arr.freeze_list]; rfl
  | _ => rfl

/-- Freezing changes pins only, so that every fact stays true. -/
theorem hold_freeze {a : Arr Value} (h : a.flags.Hold a.values) (c : Scope) :
    (a.freeze c).flags.Hold (a.freeze c).values := by
  -- The elements of a list may be frozen with it, which leaves them equal.
  have halike : Alike a.values (a.freeze c).values := (alike_arrFreeze c a).symm.values
  rw [flags_freeze]
  refine (h.congr ⟨halike.length_eq, fun i u v hu hv => ?_⟩).withPin true
  have huv := halike.getElem? i
  rw [hu, hv] at huv
  exact (alike_some.1 huv).eqv

theorem truthful_freeze {v : Value} (h : Truthful v) (c : Scope) : Truthful (v.freeze c) := by
  induction v using Value.nest_induction generalizing c with
  | leaf v hv => cases v <;> simp_all [Value.freeze, Value.isLeaf]
  | error s v => exact h
  | dict s keys vals ihk ihv =>
    obtain ⟨hk, hv⟩ := everywhere_entries.1 (truthful_dict.1 h)
    simp only [Value.freeze]
    split
    · exact h
    · refine truthful_dict.2 (everywhere_entries.2 ⟨?_, ?_⟩)
      · exact (everywhere_array _).1 (ihk ((everywhere_array _).2 hk) _)
      · exact (everywhere_array _).1 (ihv ((everywhere_array _).2 hv) _)
  | array a ih =>
    obtain ⟨hhold, hcells⟩ := truthful_arr.1 ((everywhere_array a).1 h)
    refine (everywhere_array _).2 (truthful_arr.2 ⟨hold_freeze hhold c, ?_⟩)
    cases a with
    | list w =>
      rw [Arr.freeze_list]
      refine everywhere_iff_forall.2 fun u hu => ?_
      have hcells := everywhere_iff_forall.1 hcells
      simp only [Arr.cells] at hu
      split at hu
      · exact hcells u hu
      · -- A cell is frozen beside the others, or stays as it is.
        obtain ⟨i, hi, rfl⟩ := List.mem_mapIdx.1 hu
        have hcell := hcells _ (List.getElem_mem hi)
        split
        · exact ih _ (List.getElem_mem hi) hcell _
        · exact hcell
    | _ w => exact everywhere_empty

theorem truthful_canonical {c : Scope} {a : Arr Value} (h : Truthful a) :
    Truthful (a.canonical c) := by
  cases a with
  | list w =>
    simp only [Arr.canonical]
    split
    · split
      · exact (everywhere_array _).1 (truthful_freeze ((everywhere_array _).2 h) c)
      · exact h
    · exact truthful_pack (everywhere_values h)
  | _ => exact h

end SharedArrays
