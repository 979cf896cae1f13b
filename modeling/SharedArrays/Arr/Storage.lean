import SharedArrays.Arr.Freeze

/-!
# Canonical storage

A list whose elements are all integers, all floats or all strings is better stored without tags.
Canonical storage is the tightest variant that loses nothing. Integers are never turned into
truth values, even if all of them are 0 or 1; that is noted in a flag. Integers and floats are
not merged, and an empty list stays a list.

## Main definitions

* `tightKind` — the variant that fits all of some values
* `Arr.ofValues` — an array in canonical storage
* `Arr.canonical` — an array moved to canonical storage

## Main results

* `Arr.values_ofValues` — canonical storage loses nothing
-/

namespace SharedArrays

/-- The variant that stores values like `v` without a tag, or lists. -/
def Value.atomKind : Value → Kind
  | .int _ => .ints
  | .float _ => .floats
  | .str _ => .strs
  | _ => .list

/-- The variant that stores all of the values without tags, or lists. -/
def tightKind : List Value → Kind
  | [] => .list
  | v :: vs => if vs.all (·.atomKind == v.atomKind) then v.atomKind else .list

/-- The integer is 0 or 1. -/
def isTruth (n : Int64) : Bool := n == 0 || n == 1

/-- The values on a new buffer, in the given variant. -/
def Arr.pack (s : Site) (vs : List Value) : Kind → Arr Value
  | .ints =>
    let ns := vs.filterMap fun | .int n => some n | _ => none
    .ints (.ofList s ns { zeroOne := ns.all isTruth })
  | .floats => .floats (.ofList s (vs.filterMap fun | .float x => some x | _ => none))
  | .strs => .strs (.ofList s (vs.filterMap fun | .str t => some t | _ => none))
  | _ => .list (.ofList s vs)

/-- The values on a new buffer, in canonical storage. -/
def Arr.ofValues (s : Site) (vs : List Value) : Arr Value := .pack s vs (tightKind vs)

theorem atomKind_of_tightKind {vs : List Value} {k : Kind} (h : tightKind vs = k)
    (hk : k ≠ .list) {v : Value} (hv : v ∈ vs) : v.atomKind = k := by
  cases vs with
  | nil => cases hv
  | cons u us =>
    simp only [tightKind] at h
    split at h
    · rename_i hall
      rcases List.mem_cons.1 hv with rfl | hv
      · exact h
      · exact (eq_of_beq (List.all_eq_true.1 hall v hv)).trans h
    · exact absurd h.symm hk

theorem tightKind_of_forall {vs : List Value} {k : Kind} (hvs : vs ≠ [])
    (h : ∀ v ∈ vs, v.atomKind = k) : tightKind vs = k := by
  obtain ⟨v, vs, rfl⟩ := List.exists_cons_of_ne_nil hvs
  have hv : v.atomKind = k := h v (List.mem_cons_self ..)
  have hall : vs.all (·.atomKind == v.atomKind) = true := by
    refine List.all_eq_true.2 fun u hu => beq_iff_eq.2 ?_
    rw [hv, h u (List.mem_cons_of_mem _ hu)]
  rw [tightKind, if_pos hall, hv]

theorem map_filterMap_of_forall {α β : Type} {f : β → α} {g : α → Option β} {xs : List α}
    (h : ∀ x ∈ xs, (g x).map f = some x) : (xs.filterMap g).map f = xs := by
  induction xs with
  | nil => rfl
  | cons x xs ih =>
    obtain ⟨y, hy, hfy⟩ := Option.map_eq_some_iff.1 (h x (by simp))
    simp [hy, hfy, ih fun x hx => h x (by simp [hx])]

theorem Arr.values_ofValues (s : Site) (vs : List Value) : (Arr.ofValues s vs).values = vs := by
  unfold ofValues pack
  split <;> simp only [values, Window.items_ofList]
  -- The three untagged variants; each element has the form that the variant stores.
  all_goals
    refine map_filterMap_of_forall fun v hv => ?_
    have := atomKind_of_tightKind ‹tightKind vs = _› (by decide) hv
    cases v <;> simp_all [Value.atomKind]

theorem Arr.ofValues_ints (s : Site) {ns : List Int64} (h : ns ≠ []) :
    Arr.ofValues s (ns.map .int) = .ints (.ofList s ns { zeroOne := ns.all isTruth }) := by
  have hkind : tightKind (ns.map Value.int) = .ints :=
    tightKind_of_forall (by simpa using h) fun v hv => by
      obtain ⟨n, -, rfl⟩ := List.mem_map.1 hv
      rfl
  have hback : (ns.map Value.int).filterMap (fun | .int n => some n | _ => none) = ns := by
    rw [List.filterMap_map]
    exact List.filterMap_some
  simp only [Arr.ofValues, hkind, Arr.pack, hback]

/-- The array in canonical storage. An array that is in canonical storage already keeps its
buffer, and a pinned list passes its pin on to its elements. -/
def Arr.canonical (c : Scope) : Arr Value → Arr Value
  | .list w =>
    match tightKind w.items with
    | .list => if w.flags.pinned then (Arr.list w).freeze c else .list w
    | k => .pack c.site w.items k
  | a => a

/-- Canonical storage of the value itself; what is not an array stays as it is. -/
def Value.canonical (c : Scope) : Value → Value
  | .array a => .array (a.canonical c)
  | v => v

end SharedArrays
