import SharedArrays.Proofs.WellFormed.Amend

/-!
# Where keys are placed

A position at which a key is found is a position of the dictionary, whichever way the key is
looked up. The positions that an amend of a dictionary works on are positions of the dictionary
that the missing keys have been appended to.

## Main results

* `KeyIndex.getD_ofKeys` — an index sorts the keys by their digests, in order
* `Dict.find?_lt`, `Dict.positions_lt` — keys are found at positions of the dictionary
* `placement_lt`, `len_appendKeys` — an amend works at positions that the dictionary will have
-/

namespace SharedArrays

theorem lt_of_findIdx? {α : Type} {p : α → Bool} {xs : List α} {i : Nat}
    (h : xs.findIdx? p = some i) : i < xs.length :=
  (List.findIdx?_eq_some_iff_getElem.1 h).1

theorem findSorted?_lt {α : Type} [BEq α] {lt : α → α → Bool} {xs : List α} {x : α} {i : Nat}
    (h : findSorted? lt xs x = some i) : i < xs.length := by
  simp only [findSorted?] at h
  split at h
  · rename_i hx
    cases h
    refine Nat.lt_of_not_le fun hlen => ?_
    rw [List.getElem?_eq_none hlen] at hx
    cases hx
  · cases h

theorem Arr.find?_lt {a : Arr Value} {v : Value} {i : Nat} (h : a.find? v = some i) :
    i < a.values.length := by
  unfold Arr.find? at h
  split at h
  · simpa [Arr.values] using lt_of_findIdx? h
  · split at h
    · simpa [Arr.values] using findSorted?_lt h
    · simpa [Arr.values] using lt_of_findIdx? h
  · simpa [Arr.values] using lt_of_findIdx? h
  · split at h
    · simpa [Arr.values] using findSorted?_lt h
    · simpa [Arr.values] using lt_of_findIdx? h
  · exact lt_of_findIdx? h
  · cases h

/-- For each digest, an index holds the keys that have it, in order. -/
theorem KeyIndex.getD_ofKeys (keys : List Value) (digest : List Nat) :
    (KeyIndex.ofKeys keys).getD digest [] =
      keys.zipIdx.filter fun entry => entry.1.digest == digest := by
  unfold KeyIndex.ofKeys
  induction keys.zipIdx with
  | nil => exact Std.HashMap.getD_empty
  | cons entry rest ih =>
    obtain ⟨k, i⟩ := entry
    rw [List.foldr_cons, Std.HashMap.getD_insert]
    by_cases hk : k.digest = digest
    · subst hk
      simp [ih]
    · simp [hk, ih]

theorem KeyIndex.find?_ofKeys (keys : List Value) (k : Value) :
    (KeyIndex.ofKeys keys).find? k = ((keys.zipIdx.filter fun entry =>
      entry.1.digest == k.digest).find? (·.1.eqv k)).map (·.2) := by
  rw [KeyIndex.find?, KeyIndex.getD_ofKeys]

theorem KeyIndex.find?_lt {keys : List Value} {k : Value} {i : Nat}
    (h : (KeyIndex.ofKeys keys).find? k = some i) : i < keys.length := by
  rw [KeyIndex.find?_ofKeys] at h
  obtain ⟨entry, hentry, rfl⟩ := Option.map_eq_some_iff.1 h
  have hmem := (List.mem_filter.1 (List.mem_of_find?_eq_some hentry)).1
  simpa using List.snd_lt_of_mem_zipIdx hmem

section Dict

variable {d : Dict Value}

theorem Dict.find?_lt (hd : WellFormed d.keys) {k : Value} {i : Nat}
    (h : d.find? k = some i) : i < d.len :=
  Nat.lt_of_lt_of_eq (Arr.find?_lt h) hd.length_values

theorem Dict.positions_lt (hd : WellFormed d.keys) {keys : Arr Value} {threshold i : Nat}
    (h : some i ∈ d.positions keys threshold) : i < d.len := by
  unfold Dict.positions at h
  split at h
  · obtain ⟨k, -, hk⟩ := List.mem_map.1 h
    exact Dict.find?_lt hd hk
  · obtain ⟨k, -, hk⟩ := List.mem_map.1 h
    exact Nat.lt_of_lt_of_eq (KeyIndex.find?_lt hk) hd.length_values

/-- A missing key is placed behind the keys of the dictionary, among the missing ones. -/
theorem newPosition_lt (len : Nat) (missing : List Value) (k : Value) :
    (newPosition len missing k).1 < len + (newPosition len missing k).2.length ∧
      missing.length ≤ (newPosition len missing k).2.length := by
  unfold newPosition
  split
  · rename_i i hi
    have := lt_of_findIdx? hi
    exact ⟨by simp only; omega, Nat.le_refl _⟩
  · simp

theorem placeKeys_lt {len : Nat} {found : List (Value × Option Nat)}
    (hfound : ∀ k i, (k, some i) ∈ found → i < len) (missing : List Value) :
    missing.length ≤ (placeKeys len missing found).2.length ∧
      ∀ p ∈ (placeKeys len missing found).1, p < len + (placeKeys len missing found).2.length := by
  induction found generalizing missing with
  | nil => exact ⟨Nat.le_refl _, nofun⟩
  | cons entry rest ih =>
    obtain ⟨k, p⟩ := entry
    have hrest : ∀ k i, (k, some i) ∈ rest → i < len := fun k i h =>
      hfound k i (List.mem_cons_of_mem _ h)
    cases p with
    | some p =>
      obtain ⟨hle, hlt⟩ := ih hrest missing
      refine ⟨hle, List.forall_mem_cons.2 ⟨?_, hlt⟩⟩
      exact Nat.lt_of_lt_of_le (hfound k p (by simp)) (Nat.le_add_right ..)
    | none =>
      obtain ⟨hnew, hgrow⟩ := newPosition_lt len missing k
      obtain ⟨hle, hlt⟩ := ih hrest (newPosition len missing k).2
      refine ⟨Nat.le_trans hgrow hle, List.forall_mem_cons.2 ⟨?_, hlt⟩⟩
      exact Nat.lt_of_lt_of_le hnew (Nat.add_le_add_left hle len)

theorem placement_lt (settings : Settings) (hd : WellFormed d.keys) (y : Value) :
    ∀ p ∈ (d.placement settings y).selection.positions,
      p < d.len + (d.placement settings y).missing.length := by
  have hone {p : Nat} {missing : List Value} (hp : p < d.len + missing.length) :
      ∀ q ∈ (Selection.one p).positions, q < d.len + missing.length := by
    simpa [Selection.positions] using hp
  have hfind {k : Value} {p : Nat} (h : d.find? k = some p) :
      p < d.len + ([] : List Value).length :=
    Dict.find?_lt hd h
  unfold Dict.placement
  split
  · intro p hp
    exact List.mem_range.1 hp
  · rename_i keys
    split
    · rename_i p hp
      split at hp
      · exact hone (hfind hp)
      · cases hp
    · refine (placeKeys_lt (fun k i h => ?_) []).2
      exact Dict.positions_lt hd (List.of_mem_zip h).2
  · unfold Dict.placeOne
    split
    · exact hone (hfind ‹_›)
    · exact hone (Nat.lt_succ_self _)

theorem len_appendKeys {c : Scope} {ks : List Value} (hd : d.Paired) (hks : WellFormed ks) :
    (d.appendKeys c ks).len = d.len + ks.length := by
  rw [Dict.appendKeys_eq]
  generalize 0 = n
  induction ks generalizing n d with
  | nil => rfl
  | cons k ks ih =>
    obtain ⟨hk, hks⟩ := (everywhere_cons ..).1 hks
    have hlen : (d.appendKey (c.sub n) k).len = d.len + 1 :=
      (len_canonical (wellFormed_push hd.2.1 hk)).trans (len_push hd.2.1 hk)
    rw [Dict.appendKeysFrom, ih (paired_appendKey hd hk) hks, hlen, List.length_cons]
    omega

/-- Once the missing keys are appended, there is a value at every position of the placement. -/
theorem placement_lt_appendKeys {settings : Settings} (hd : d.Paired) {y : Value}
    (hy : WellFormed y) (c : Scope) :
    ∀ p ∈ (d.placement settings y).selection.positions,
      p < (d.appendKeys c (d.placement settings y).missing).vals.len := by
  have hmissing := everywhere_missing settings d hy
  have hgrown := paired_appendKeys (c := c) hd hmissing
  intro p hp
  rw [← hgrown.1]
  exact Nat.lt_of_lt_of_eq (placement_lt settings hd.2.1 y p hp) (len_appendKeys hd hmissing).symm

end Dict

end SharedArrays
