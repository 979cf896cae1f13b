import SharedArrays.Proofs.Equality

/-!
# Looking up keys

A key is found at the first position that holds an equal value. Three ways lead there: binary
search in ascending integers and strings, a scan that compares stored elements without a tag, and
a scan that compares values. Many keys at once may also go through an index of the dictionary's
keys. All of them give the same answer.

Binary search works on a list that a test splits in two. The search keeps the place of the split
inside the stretch that is still to be searched.

## Main definitions

* `Arr.AscendingHolds` — the flag that calls for binary search is true of the elements
* `Arr.IsFirst` — the least position that holds a value

## Main results

* `lowerBound_eq` — binary search finds the place where the test turns false
* `findSorted?_eq_findIdx?` — in an ascending list it finds the first of equal elements
* `Arr.find?_eq_findIdx?` — every way to look up a key is a scan for an equal value
* `KeyIndex.find?_ofKeys_eq` — an index finds what a scan finds
* `lookups_agree` — all ways to look up keys agree
-/

namespace SharedArrays

/-! ## Binary search -/

section LowerBound

variable {α : Type} {below : α → Bool} {xs : List α} {p : Nat}

/-- The test holds in front of position `p`, and fails from there on. -/
def SplitsAt (below : α → Bool) (xs : List α) (p : Nat) : Prop :=
  p ≤ xs.length ∧ ∀ (i : Nat) (x : α), xs[i]? = some x → (below x = true ↔ i < p)

/-- Reading an element tells on which side of the split it lies. -/
theorem SplitsAt.any_getElem? (h : SplitsAt below xs p) (i : Nat) :
    (xs[i]?).any below = true ↔ i < p := by
  obtain ⟨hp, hsplit⟩ := h
  by_cases hi : i < xs.length
  · rw [List.getElem?_eq_getElem hi]
    exact hsplit i _ (List.getElem?_eq_getElem hi)
  · rw [List.getElem?_eq_none (by omega)]
    simp only [Option.any_none, Bool.false_eq_true, false_iff]
    omega

/-- The rounds of a binary search end next to the split, if the split lies in the stretch that is
searched. -/
theorem SplitsAt.lowerBoundFrom (h : SplitsAt below xs p) {fuel base size : Nat}
    (hfuel : size ≤ fuel) (hbase : base ≤ p) (hsize : p ≤ base + size) :
    SharedArrays.lowerBoundFrom below xs fuel base size ≤ p ∧
      p ≤ SharedArrays.lowerBoundFrom below xs fuel base size + 1 := by
  induction fuel generalizing base size with
  | zero =>
    simp only [SharedArrays.lowerBoundFrom]
    omega
  | succ fuel ih =>
    simp only [SharedArrays.lowerBoundFrom]
    by_cases hone : size ≤ 1
    · rw [if_pos hone]
      omega
    · -- The middle element says in which half the split lies, and that half is searched next.
      rw [if_neg hone]
      have hmid := h.any_getElem? (base + size / 2)
      by_cases hlt : base + size / 2 < p
      · rw [if_pos (hmid.2 hlt)]
        exact ih (by omega) (by omega) (by omega)
      · rw [if_neg fun hany => hlt (hmid.1 hany)]
        exact ih (by omega) hbase (by omega)

theorem lowerBound_eq (h : SplitsAt below xs p) : lowerBound below xs = p := by
  have hp := h.1
  have hfrom := h.lowerBoundFrom (Nat.le_refl xs.length) (Nat.zero_le p) (by omega)
  have hlast := h.any_getElem? (lowerBoundFrom below xs xs.length 0 xs.length)
  simp only [lowerBound]
  by_cases hlt : lowerBoundFrom below xs xs.length 0 xs.length < p
  · rw [if_pos (hlast.2 hlt)]
    omega
  · rw [if_neg fun hany => hlt (hlast.1 hany)]
    omega

end LowerBound

section Sorted

variable {α : Type} [LE α] [Std.IsLinearOrder α]

theorem getElem_le_of_pairwise {xs : List α} (hxs : xs.Pairwise (· ≤ ·)) {i j : Nat}
    (hij : i ≤ j) (hj : j < xs.length) : xs[i] ≤ xs[j] := by
  rcases Nat.lt_or_eq_of_le hij with hlt | rfl
  · exact List.pairwise_iff_getElem.1 hxs i j _ hj hlt
  · exact Std.le_refl _

variable [LT α] [DecidableLT α] [Std.LawfulOrderLT α]

/-- The smaller elements of an ascending list stand in front. -/
theorem splitsAt_of_pairwise {xs : List α} (hxs : xs.Pairwise (· ≤ ·)) (x : α) :
    SplitsAt (fun y => decide (y < x)) xs (xs.findIdx fun y => !decide (y < x)) := by
  refine ⟨List.findIdx_le_length, fun i y hy => ?_⟩
  obtain ⟨hi, rfl⟩ := List.getElem?_eq_some_iff.1 hy
  constructor
  · intro hlt
    refine Nat.lt_of_not_le fun hle => ?_
    -- The first element that is not smaller would be smaller, like those behind it.
    have hp : xs.findIdx (fun y => !decide (y < x)) < xs.length := Nat.lt_of_le_of_lt hle hi
    have hfirst := @List.findIdx_getElem _ (fun y => !decide (y < x)) xs hp
    have hnot : ¬xs[xs.findIdx fun y => !decide (y < x)] < x := by simpa using hfirst
    exact hnot (Std.lt_of_le_of_lt (getElem_le_of_pairwise hxs hle hi) (of_decide_eq_true hlt))
  · intro hlt
    simpa using List.not_of_lt_findIdx hlt

/-- Binary search in an ascending list finds the first of equal elements. -/
theorem findSorted?_eq_findIdx? [BEq α] [LawfulBEq α] {xs : List α}
    (hxs : xs.Pairwise (· ≤ ·)) (x : α) :
    findSorted? (fun y z => decide (y < z)) xs x = xs.findIdx? (· == x) := by
  have hsplit := splitsAt_of_pairwise hxs x
  simp only [findSorted?]
  rw [lowerBound_eq hsplit]
  generalize xs.findIdx (fun y => !decide (y < x)) = p at hsplit
  obtain ⟨hp, hsplit⟩ := hsplit
  symm
  by_cases hat : xs[p]? = some x
  · rw [if_pos (beq_iff_eq.2 hat)]
    obtain ⟨hlen, hget⟩ := List.getElem?_eq_some_iff.1 hat
    refine List.findIdx?_eq_some_iff_getElem.2 ⟨hlen, beq_iff_eq.2 hget, fun j hj => ?_⟩
    have hlt : xs[j] < x := of_decide_eq_true ((hsplit j _ (List.getElem?_eq_getElem _)).2 hj)
    intro heq
    rw [beq_iff_eq.1 heq] at hlt
    exact Std.lt_irrefl hlt
  · rw [if_neg fun h => hat (beq_iff_eq.1 h)]
    refine List.findIdx?_eq_none_iff.2 fun y hy => beq_eq_false_iff_ne.2 ?_
    rintro rfl
    -- An element equal to `y` is not smaller, so it stands behind the split, and those between
    -- the split and it are equal to it, too.
    obtain ⟨i, hi, rfl⟩ := List.getElem_of_mem hy
    have hpi : p ≤ i := by
      refine Nat.le_of_not_lt fun hlt => ?_
      exact Std.lt_irrefl (of_decide_eq_true ((hsplit i _ (List.getElem?_eq_getElem hi)).2 hlt))
    have hget : xs[p]? = some xs[p] := List.getElem?_eq_getElem _
    have hle : xs[p] ≤ xs[i] := getElem_le_of_pairwise hxs hpi hi
    have hge : xs[i] ≤ xs[p] := Std.not_lt.1 fun hlt =>
      Nat.lt_irrefl p ((hsplit p _ hget).1 (decide_eq_true hlt))
    exact hat (hget.trans (congrArg some (Std.le_antisymm hle hge)))

end Sorted

/-! ## Scans -/

/-- Where a look-up goes by the flag that the elements do not decrease, they do not. Truth values,
floats and lists are never searched by halves, whatever their flags say. -/
def Arr.AscendingHolds : Arr Value → Prop
  | .ints w => w.flags.ascending = true → w.items.Pairwise (· ≤ ·)
  | .strs w => w.flags.ascending = true → w.items.Pairwise (· ≤ ·)
  | _ => True

/-- A value that is unequal to every element is not found. -/
theorem findIdx?_map_eqv_eq_none {β : Type} {tag : β → Value} {v : Value} (xs : List β)
    (h : ∀ x, (tag x).eqv v = false) : (xs.map tag).findIdx? (·.eqv v) = none := by
  refine List.findIdx?_eq_none_iff.2 fun u hu => ?_
  obtain ⟨x, -, rfl⟩ := List.mem_map.1 hu
  exact h x

/-- Every way to look up a key is a scan for an equal value. -/
theorem Arr.find?_eq_findIdx? {a : Arr Value} (ha : a.AscendingHolds) (v : Value) :
    a.find? v = a.values.findIdx? (·.eqv v) := by
  cases a with
  | bools w =>
    cases v with
    | int n =>
      -- Truth values count as 0 and 1, so that a whole number can equal one.
      have hscan : (w.items.map fun b => Value.int (if b then 1 else 0)).findIdx?
          (·.eqv (.int n)) = w.items.findIdx? fun b => (if b then 1 else 0) == n :=
        List.findIdx?_map ..
      exact hscan.symm
    | _ => exact (findIdx?_map_eqv_eq_none w.items fun _ => rfl).symm
  | ints w =>
    cases v with
    | int n =>
      have hscan : (w.items.map Value.int).findIdx? (·.eqv (.int n)) = w.items.findIdx? (· == n) :=
        List.findIdx?_map ..
      -- The flag decides between binary search and a scan; both find the first equal element.
      by_cases hflag : w.flags.ascending = true
      · simp only [find?, values, hscan, if_pos hflag]
        exact findSorted?_eq_findIdx? (ha hflag) n
      · simp only [find?, values, hscan, if_neg hflag]
    | _ => exact (findIdx?_map_eqv_eq_none w.items fun _ => rfl).symm
  | floats w =>
    cases v with
    | float x =>
      -- Floats are compared by their bits, as an order of floats would not be total.
      have hscan : (w.items.map Value.float).findIdx? (·.eqv (.float x)) =
          w.items.findIdx? (·.bits == x.bits) := List.findIdx?_map ..
      exact hscan.symm
    | _ => exact (findIdx?_map_eqv_eq_none w.items fun _ => rfl).symm
  | strs w =>
    cases v with
    | str t =>
      have hscan : (w.items.map Value.str).findIdx? (·.eqv (.str t)) = w.items.findIdx? (· == t) :=
        List.findIdx?_map ..
      by_cases hflag : w.flags.ascending = true
      · simp only [find?, values, hscan, if_pos hflag]
        exact findSorted?_eq_findIdx? (ha hflag) t
      · simp only [find?, values, hscan, if_neg hflag]
    | _ => exact (findIdx?_map_eqv_eq_none w.items fun _ => rfl).symm
  | list w => cases v <;> rfl

/-! ## Indices -/

/-- An index finds what a scan finds: an equal key has the same digest, so it is among the keys
that the index compares. -/
theorem KeyIndex.find?_ofKeys_eq (keys : List Value) (k : Value) :
    (KeyIndex.ofKeys keys).find? k = keys.findIdx? (·.eqv k) := by
  have hsame (u : Value) :
      decide ((u.digest == k.digest) = true ∧ u.eqv k = true) = u.eqv k := by
    cases h : u.eqv k with
    | true => simp [digest_eq_of_eqv h]
    | false => simp
  rw [KeyIndex.find?_ofKeys, List.find?_filter]
  simp only [hsame]
  exact (@List.findIdx?_eq_fst_find?_zipIdx _ keys (·.eqv k)).symm

theorem Dict.positions_eq {d : Dict Value} (hd : d.keys.AscendingHolds) (wanted : Arr Value)
    (threshold : Nat) : d.positions wanted threshold = wanted.values.map d.find? := by
  unfold positions
  split
  · rfl
  · refine List.map_congr_left fun k _ => ?_
    rw [KeyIndex.find?_ofKeys_eq]
    exact (Arr.find?_eq_findIdx? hd k).symm

/-! ## Agreement -/

/-- The least position at which the array has an element equal to `v`. -/
def Arr.IsFirst (a : Arr Value) (v : Value) (i : Nat) : Prop :=
  (∃ u, a.at? i = some u ∧ u.eqv v = true) ∧
    ∀ j < i, ∀ u, a.at? j = some u → u.eqv v = false

theorem Arr.find?_eq_some_iff {a : Arr Value} (ha : a.AscendingHolds) {v : Value} {i : Nat} :
    a.find? v = some i ↔ a.IsFirst v i := by
  rw [Arr.find?_eq_findIdx? ha, List.findIdx?_eq_some_iff_getElem]
  constructor
  · rintro ⟨hi, heq, hbefore⟩
    refine ⟨⟨_, List.getElem?_eq_getElem hi, heq⟩, fun j hj u hu => ?_⟩
    obtain ⟨_, rfl⟩ := List.getElem?_eq_some_iff.1 hu
    exact Bool.not_eq_true _ ▸ hbefore j hj
  · rintro ⟨⟨u, hu, heq⟩, hbefore⟩
    obtain ⟨hi, rfl⟩ := List.getElem?_eq_some_iff.1 hu
    refine ⟨hi, heq, fun j hj => ?_⟩
    exact Bool.not_eq_true _ ▸ hbefore j hj _ (List.getElem?_eq_getElem _)

theorem Arr.find?_eq_none_iff {a : Arr Value} (ha : a.AscendingHolds) {v : Value} :
    a.find? v = none ↔ ∀ i u, a.at? i = some u → u.eqv v = false := by
  rw [Arr.find?_eq_findIdx? ha, List.findIdx?_eq_none_iff]
  constructor
  · intro h i u hu
    exact h u (List.mem_of_getElem? hu)
  · intro h u hu
    obtain ⟨i, hi⟩ := List.getElem?_of_mem hu
    exact h i u hi

/-- All ways to look up keys agree. In an array whose ascending flag is true of its elements, a
value is found at the first position that holds an equal one, and is not found if there is no
such position. In a dictionary with such keys, looking up many keys finds what looking up each of
them finds, whatever the number of keys is from which on an index is used. -/
theorem lookups_agree (a : Arr Value) (ha : a.AscendingHolds) :
    (∀ v i, a.find? v = some i ↔ a.IsFirst v i) ∧
      (∀ v, a.find? v = none ↔ ∀ i u, a.at? i = some u → u.eqv v = false) ∧
      ∀ (d : Dict Value), d.keys = a → ∀ (wanted : Arr Value) (s t : Nat),
        d.positions wanted s = wanted.values.map d.keys.find? ∧
          d.positions wanted s = d.positions wanted t := by
  refine ⟨fun v i => Arr.find?_eq_some_iff ha, fun v => Arr.find?_eq_none_iff ha, ?_⟩
  rintro d rfl wanted s t
  have hs := Dict.positions_eq ha wanted s
  exact ⟨hs, hs.trans (Dict.positions_eq ha wanted t).symm⟩

/-- Binary search answers the first of the two equal keys, and an index finds the same. Of several
NaNs the first one with the same bits is found, although the array is said to ascend. -/
theorem lookups_agree_repeated :
    let keys : Arr Value := .ints (.ofList (.step 0) [1, 4, 4, 9] { ascending := true })
    let d : Dict Value := ⟨keys, .strs (.ofList (.step 1) ["a", "b", "c", "d"])⟩
    let wanted : Arr Value := .list (.ofList (.step 2) [.int 4, .str "a", .int 9])
    let nan : Double := .defaultNaN
    let floats : Arr Value :=
      .floats (.ofList (.step 3) [-nan, 0, nan, -0, nan] { ascending := true })
    keys.AscendingHolds ∧ keys.IsFirst (.int 4) 1 ∧
      d.positions wanted 0 = [some 1, none, some 3] ∧
      d.positions wanted 0 = d.positions wanted 9 ∧
      floats.AscendingHolds ∧ floats.IsFirst (.float nan) 2 ∧ floats.IsFirst (.float (-0)) 3 := by
  intro keys d wanted nan floats
  have hkeys : keys.AscendingHolds := fun _ => by decide
  obtain ⟨hfirst, -, hmany⟩ := lookups_agree keys hkeys
  have hwanted := hmany d rfl wanted 0 9
  have hfloats : floats.AscendingHolds := trivial
  have hnan := (lookups_agree floats hfloats).1
  exact ⟨hkeys, (hfirst (.int 4) 1).1 (by decide), hwanted.1.trans (by decide), hwanted.2, hfloats,
    (hnan (.float nan) 2).1 (by decide), (hnan (.float (-0)) 3).1 (by decide)⟩

end SharedArrays
