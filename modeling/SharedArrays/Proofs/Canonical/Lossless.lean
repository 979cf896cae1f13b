import SharedArrays.Proofs.Canonical.Arrays
import SharedArrays.Proofs.Equality
import SharedArrays.Proofs.Freeze.Twice

/-!
# Canonical storage is lossless and final

Moving an array to canonical storage is a question of tags alone. The array shows the same elements
afterwards, and what it is stored as depends on its elements in one way: a list loses its tags just
if its elements are of one kind that can do without them. Where nothing is to be done, nothing is:
the array stays the same handle on the same stretch of the same buffer. A list that is pinned passes
its pin on to its elements, and does so once.

The variant is chosen by the first element and confirmed by the others, and then the elements are
taken out of their tags one by one, with those of another kind left out. That none of them is left
out is what `values_ofValues` says; here it gives the length as well as the elements.

## Main results

* `kind_canonical_eq_list_iff` — which arrays are lists in canonical storage
* `sameWindow_canonical` — an array that stays a list stays where it is
* `zeroOne_ofValues` — integers are marked as truth values just if all of them are
* `canonical_canonical` — once is enough
* `canonical_exact` — all of this together, for every array
-/

namespace SharedArrays

section Canonical

variable {a b : Arr Value} {w : Window Value} {c c' : Scope}

/-! ## Lists of one kind and other lists -/

/-- A list of elements of one kind is stored anew. -/
theorem canonical_of_uniform (h : Uniform w.items) :
    (Arr.list w).canonical c = .ofValues c.site w.items := by
  have hkind := uniform_iff_tightKind.1 h
  rw [Arr.canonical, Arr.ofValues]
  split
  · contradiction
  · rfl

/-- Another list stays as it is. If it is pinned, its elements are pinned too. -/
theorem canonical_of_not_uniform (h : ¬Uniform w.items) :
    (Arr.list w).canonical c = if w.flags.pinned then (Arr.list w).freeze c else .list w := by
  have hkind : tightKind w.items = .list :=
    Decidable.byContradiction fun hkind => h (uniform_iff_tightKind.2 hkind)
  rw [Arr.canonical, hkind]

/-- Integers that are stored without tags are marked as truth values just if all of them are. -/
theorem zeroOne_ofValues {s : Site} {vs : List Value} (h : (Arr.ofValues s vs).kind = .ints) :
    (Arr.ofValues s vs).flags.zeroOne = true ↔ ∀ v ∈ vs, v = .int 0 ∨ v = .int 1 := by
  obtain ⟨ns, hns⟩ : ∃ ns,
      Arr.ofValues s vs = .ints (.ofList s ns { zeroOne := ns.all isTruth }) := by
    unfold Arr.ofValues Arr.pack at h ⊢
    split at h
    · exact ⟨_, rfl⟩
    all_goals cases h
  -- The mark is set by the integers, and they are the elements.
  have hvs : ns.map Value.int = vs := by
    rw [← Arr.values_ofValues s vs, hns, Arr.values, Window.items_ofList]
  rw [hns, ← hvs]
  simp [Arr.flags, Arr.read, Window.ofList, isTruth]

/-! ## What stays as it is -/

/-- An array that is a list afterwards has been one, on the same stretch of the same buffer and with
the same flags. -/
theorem sameWindow_canonical (h : (a.canonical c).kind = .list) :
    (a.canonical c).sameWindow a = true ∧ (a.canonical c).flags = a.flags := by
  cases a with
  | list w =>
    by_cases huniform : Uniform w.items
    · rw [canonical_of_uniform huniform, kind_ofValues] at h
      exact absurd h (uniform_iff_tightKind.1 huniform)
    · rw [canonical_of_not_uniform huniform]
      split
      · rename_i hpinned
        -- The pin that a freeze sets is there already.
        have hflags : { w.flags with pinned := true } = w.flags := by rw [← hpinned]
        rw [Arr.freeze_list, hflags]
        exact ⟨by simp [Arr.sameWindow, Arr.kind, Arr.storage, Arr.off, Arr.len, Arr.read], rfl⟩
      · exact ⟨by simp [Arr.sameWindow], rfl⟩
  | _ w => cases h

/-- What canonical storage leaves as a list has been a list, of elements that are not of one
kind. -/
theorem kind_canonical_eq_list_iff :
    (a.canonical c).kind = .list ↔ a.kind = .list ∧ ¬Uniform a.values := by
  cases a with
  | list w =>
    rw [show (Arr.list w).values = w.items from rfl]
    by_cases huniform : Uniform w.items
    · rw [canonical_of_uniform huniform, kind_ofValues]
      exact iff_of_false (uniform_iff_tightKind.1 huniform) fun h => h.2 huniform
    · rw [canonical_of_not_uniform huniform]
      refine iff_of_true ?_ ⟨rfl, huniform⟩
      split <;> rfl
  | _ w => exact iff_of_false (by rintro ⟨⟩) (by rintro ⟨⟨⟩, -⟩)

/-- Only truth values are stored as truth values. -/
theorem kind_of_kind_canonical_eq_bools (h : (a.canonical c).kind = .bools) : a.kind = .bools := by
  cases a with
  | list w =>
    by_cases huniform : Uniform w.items
    · rw [canonical_of_uniform huniform, kind_ofValues] at h
      exact absurd h (tightKind_ne_bools w.items)
    · have hlist : ((Arr.list w).canonical c).kind = .list :=
        kind_canonical_eq_list_iff.2 ⟨rfl, huniform⟩
      cases h.symm.trans hlist
  | _ w => exact h

/-- An array that is not pinned stays as it is if its variant does. -/
theorem canonical_eq_self (hpinned : a.flags.pinned = false)
    (hkind : a.kind = .list → (a.canonical c).kind = .list) : a.canonical c = a := by
  cases a with
  | list w =>
    have hpinned : w.flags.pinned = false := hpinned
    rw [canonical_of_not_uniform (kind_canonical_eq_list_iff.1 (hkind rfl)).2, hpinned]
    rfl
  | _ w => rfl

/-! ## Once is enough -/

theorem arrFreeze_freeze (h : c.HoldsAlike c') (a : Arr Value) :
    (a.freeze c).freeze c' = a.freeze c :=
  Value.array.inj (freeze_freeze h (.array a))

/-- Freezing does not make the elements of a list be of one kind. -/
theorem uniform_freeze_iff (c : Scope) (a : Arr Value) :
    Uniform (a.freeze c).values ↔ Uniform a.values :=
  (alike_arrFreeze c a).values.uniform_iff

/-- An array in canonical storage stays as it is in the same surroundings. -/
theorem canonical_canonical (h : c.HoldsAlike c') (a : Arr Value) :
    (a.canonical c).canonical c' = a.canonical c := by
  cases a with
  | list w =>
    by_cases huniform : Uniform w.items
    · refine canonical_of_kind_ne ?_
      rw [canonical_of_uniform huniform, kind_ofValues]
      exact uniform_iff_tightKind.1 huniform
    · rw [canonical_of_not_uniform huniform]
      split
      · rename_i hpinned
        -- The frozen list is pinned and is frozen again, in vain.
        obtain ⟨v, hv⟩ : ∃ v, (Arr.list w).freeze c = .list v := ⟨_, Arr.freeze_list c w⟩
        have hagain : (Arr.list v).freeze c' = .list v := hv ▸ arrFreeze_freeze h (.list w)
        have huniform' : ¬Uniform v.items := by
          intro hv'
          refine huniform ((uniform_freeze_iff c (.list w)).1 ?_)
          rwa [hv]
        rw [hv, canonical_of_not_uniform huniform', hagain, ite_self]
      · rename_i hpinned
        rw [canonical_of_not_uniform huniform, if_neg hpinned]
  | _ w => rfl

end Canonical

/-! ## Every array -/

theorem pointwise_eqv_of_alike {us vs : List Value} (h : Alike us vs) :
    Pointwise (fun u v => u.eqv v = true) us vs := by
  refine ⟨h.length_eq, fun i u v hu hv => ?_⟩
  have huv := h.getElem? i
  rw [hu, hv] at huv
  exact (alike_some.1 huv).eqv

/-- Canonical storage of an array shows as many elements, equal ones at all positions. It is a list
just if the array is a list that has no elements or not all integers, all floats or all strings, and
holds truth values only if the array does. Arrays without tags stay as they are, and lists that stay
lists are still the same handles. Integers from a list are marked as truth values just if all of
them are 0 or 1. Moving the result to canonical storage again changes nothing; should something have
let go of its elements meanwhile, then these may be pinned with it. -/
theorem canonical_exact {a : Arr Value} (ha : WellFormed a) (c : Scope) :
    ((a.canonical c).len = a.len ∧
      Pointwise (fun u v => u.eqv v = true) (a.canonical c).values a.values) ∧
    ((a.canonical c).kind = .list ↔ a.kind = .list ∧ ¬Uniform a.values) ∧
    ((a.canonical c).kind = .bools → a.kind = .bools) ∧
    (a.kind ≠ .list → a.canonical c = a) ∧
    ((a.canonical c).kind = .list →
      (a.canonical c).sameWindow a = true ∧ (a.canonical c).flags = a.flags) ∧
    (a.kind = .list → (a.canonical c).kind = .ints →
      ((a.canonical c).flags.zeroOne = true ↔ ∀ v ∈ a.values, v = .int 0 ∨ v = .int 1)) ∧
    (a.canonical c).canonical c = a.canonical c ∧
    ∀ c', ((a.canonical c).canonical c').sameWindow (a.canonical c) = true ∧
      ((a.canonical c).canonical c').flags = (a.canonical c).flags ∧
      Pointwise (fun u v => u.eqv v = true) ((a.canonical c).canonical c').values
        (a.canonical c).values := by
  have helements (c : Scope) (a : Arr Value) :
      Pointwise (fun u v => u.eqv v = true) (a.canonical c).values a.values :=
    pointwise_eqv_of_alike (alike_values_canonical c a)
  refine ⟨⟨len_canonical ha, helements c a⟩, kind_canonical_eq_list_iff,
    kind_of_kind_canonical_eq_bools, canonical_of_kind_ne, sameWindow_canonical, ?_,
    canonical_canonical (fun _ => rfl) a, fun c' => ?_⟩
  · intro hlist hints
    cases a with
    | list w =>
      by_cases huniform : Uniform w.items
      · rw [canonical_of_uniform huniform] at hints ⊢
        exact zeroOne_ofValues hints
      · cases hints.symm.trans (kind_canonical_eq_list_iff.2 ⟨rfl, huniform⟩)
    | _ w => cases hlist
  · by_cases hlist : (a.canonical c).kind = .list
    · -- What is a list in canonical storage has elements of several kinds, and stays a list.
      have hagain : ((a.canonical c).canonical c').kind = .list := by
        refine kind_canonical_eq_list_iff.2 ⟨hlist, ?_⟩
        rw [(alike_values_canonical c a).uniform_iff]
        exact (kind_canonical_eq_list_iff.1 hlist).2
      exact ⟨(sameWindow_canonical hagain).1, (sameWindow_canonical hagain).2, helements c' _⟩
    · rw [canonical_of_kind_ne hlist]
      exact ⟨by simp [Arr.sameWindow], rfl, pointwise_eqv_of_alike (.refl _)⟩

/-- Two pinned lists on one buffer of which each shows a part. The one shows an array and a string
and passes its pin on to the array, and the other shows integers only. -/
theorem canonical_exact_pinned :
    let inner : Arr Value := .ints (.ofList (.step 1) [7])
    let buf : List Value := [.nil, .array inner, .str "x", .int 1, .int 0]
    let a : Arr Value := .list ⟨.step 0, buf, 1, 2, { pinned := true }⟩
    let b : Arr Value := .list ⟨.step 0, buf, 3, 2, { pinned := true }⟩
    let c : Scope := ⟨[], .step 2⟩
    (WellFormed a ∧ (a.canonical c).at? 0 = some (.array inner.pin) ∧
      (a.canonical c).sameWindow a = true ∧ (a.canonical c).canonical c = a.canonical c) ∧
    (WellFormed b ∧ (b.canonical c).kind = .ints ∧ (b.canonical c).len = 2 ∧
      (b.canonical c).flags.zeroOne = true) := by
  intro inner buf a b c
  have ha : WellFormed a := by decide
  have hb : WellFormed b := by decide
  obtain ⟨-, hlist, -, -, hsame, -, hagain, -⟩ := canonical_exact ha c
  obtain ⟨⟨hlen, -⟩, -, -, -, -, hmark, -⟩ := canonical_exact hb c
  have hmixed : ¬Uniform a.values := not_uniform_of_mem (List.mem_cons_self ..) rfl
  have hbits : ∀ v ∈ b.values, v = .int 0 ∨ v = .int 1 := by
    have hvalues : b.values = [.int 1, .int 0] := rfl
    simp [hvalues]
  exact ⟨⟨ha, rfl, (hsame (hlist.2 ⟨rfl, hmixed⟩)).1, hagain⟩,
    hb, rfl, hlen, (hmark rfl rfl).2 hbits⟩

end SharedArrays
