import SharedArrays.Proofs.Keyed
import SharedArrays.Proofs.Store.Session

/-!
# Merging is a fold and an append

Merging sorts the entries of the right dictionary by whether their keys occur on the left. It works
on positions, selects values and keys at them, and appends arrays. This file says what comes out in
terms of the entries themselves: the left values are folded over, and the entries with new keys
follow. This holds for any function, with a site for each of its calls, and for a pure function
wherever it is called.

## Main definitions

* `Dict.entries` — the keys of a dictionary, each with its value
* `Dict.combined`, `Dict.added` — the entries of the right dictionary, sorted
* `Dict.mergeFoldAt`, `Dict.mergeFold` — combining the common entries into the left values
* `Dict.MergedAt` — what a key has to have in a merged dictionary

## Main results

* `mergePlan_common_fst`, `mergePlan_common_snd`, `mergePlan_fresh` — the plan sorts the entries
* `combine_eq_foldWrites` — common entries are combined by a fold
* `appendFrom_eq` — new entries follow the old ones
* `mergedAt` — what a look-up in the answer of a merge finds
* `merge_eq_mergeFoldAt` — what a merge answers, and that it changes nothing else
* `merge_eq_mergeFold` — the same for pure functions
-/

namespace SharedArrays

/-! ## Entries -/

namespace Dict

/-- The keys, each with its value. -/
def entries (d : Dict Value) : List (Value × Value) := d.keys.values.zip d.vals.values

/-- The first position that the key of an entry has in `l`, with the value of the entry. -/
def place (l : Dict Value) (e : Value × Value) : Option (Nat × Value) :=
  (l.keys.values.findIdx? (·.eqv e.1)).map (·, e.2)

/-- The entries of `r` whose keys occur in `l`, each with its place there. -/
def combined (l r : Dict Value) : List (Nat × Value) := r.entries.filterMap l.place

/-- The entries of `r` whose keys do not occur in `l`. -/
def added (l r : Dict Value) : List (Value × Value) :=
  r.entries.filter fun e => !l.keys.values.any (·.eqv e.1)

theorem Paired.length_eq {d : Dict Value} (hd : d.Paired) :
    d.keys.values.length = d.vals.values.length := by
  rw [hd.2.1.length_values, hd.2.2.length_values, hd.1]

theorem Paired.map_fst_entries {d : Dict Value} (hd : d.Paired) :
    d.entries.map Prod.fst = d.keys.values :=
  List.map_fst_zip (Nat.le_of_eq hd.length_eq)

theorem Paired.map_snd_entries {d : Dict Value} (hd : d.Paired) :
    d.entries.map Prod.snd = d.vals.values :=
  List.map_snd_zip (Nat.le_of_eq hd.length_eq.symm)

end Dict

/-! ## Selecting -/

/-- What is found for the elements with their numbers, if it depends on the elements only. -/
theorem filterMap_zipIdx {α β : Type} {es : List α} {g : α × Nat → Option β} {h : α → Option β}
    (hgh : ∀ e k, es[k]? = some e → g (e, k) = h e) : es.zipIdx.filterMap g = es.filterMap h := by
  -- The two lists of what is found agree place by place.
  have hmap : es.zipIdx.map g = es.map h := by
    refine List.ext_getElem (by simp) fun k hk _ => ?_
    have hk : k < es.length := by simpa using hk
    rw [List.getElem_map, List.getElem_map, List.getElem_zipIdx, Nat.zero_add]
    exact hgh es[k] k (List.getElem?_eq_getElem hk)
  have hfound := congrArg (List.filterMap id) hmap
  rwa [List.filterMap_map, List.filterMap_map] at hfound

/-! ## The plan -/

section Plan

variable {l r : Dict Value} (hl : l.keys.AscendingHolds) (hr : r.Paired) (threshold : Nat)
include hl hr

/-- The plan sorts the numbers of the right entries. -/
theorem mergePlan_eq :
    l.mergePlan threshold r =
      { common := r.entries.zipIdx.filterMap fun e =>
          (l.keys.values.findIdx? (·.eqv e.1.1)).map (·, e.2)
        fresh := r.entries.zipIdx.filterMap fun e =>
          if (l.keys.values.findIdx? (·.eqv e.1.1)).isNone then some e.2 else none } := by
  have hfound : l.positions r.keys threshold =
      r.entries.map fun e => l.keys.values.findIdx? (·.eqv e.1) := by
    rw [Dict.positions_eq hl, ← hr.map_fst_entries, List.map_map]
    exact List.map_congr_left fun e _ => Arr.find?_eq_findIdx? hl e.1
  rw [Dict.mergePlan, hfound, List.zipIdx_map]
  simp only [List.filterMap_map]
  rfl

/-- The common positions are those of the combined entries. -/
theorem mergePlan_common_fst :
    (l.mergePlan threshold r).common.map (·.1) = (l.combined r).map (·.1) := by
  rw [mergePlan_eq hl hr, Dict.combined]
  simp only [Dict.place, List.map_filterMap, Option.map_map]
  exact filterMap_zipIdx fun e k _ => rfl

/-- At the common positions, the right values are those of the combined entries. -/
theorem mergePlan_common_snd :
    ((l.mergePlan threshold r).common.map (·.2)).filterMap (r.vals.values[·]?) =
      (l.combined r).map (·.2) := by
  rw [mergePlan_eq hl hr, Dict.combined]
  simp only [Dict.place, List.map_filterMap, List.filterMap_filterMap, Option.map_map]
  refine filterMap_zipIdx fun e k hk => ?_
  have hv : r.vals.values[k]? = some e.2 := by
    rw [← hr.map_snd_entries, List.getElem?_map, hk]
    rfl
  cases l.keys.values.findIdx? (·.eqv e.1) with
  | none => rfl
  | some p => exact hv

/-- At the positions that are not common, the right dictionary has the added entries. -/
theorem mergePlan_fresh :
    (l.mergePlan threshold r).fresh.filterMap (r.keys.values[·]?) = (l.added r).map (·.1) ∧
      (l.mergePlan threshold r).fresh.filterMap (r.vals.values[·]?) = (l.added r).map (·.2) := by
  have hselect (val : Value × Value → Value) :
      (l.mergePlan threshold r).fresh.filterMap ((r.entries.map val)[·]?) =
        (l.added r).map val := by
    rw [mergePlan_eq hl hr, Dict.added, ← List.filterMap_eq_filter]
    simp only [List.map_filterMap, List.filterMap_filterMap]
    refine filterMap_zipIdx fun e k hk => ?_
    simp only [Option.guard, any_eqv_eq, List.getElem?_map]
    cases l.keys.values.findIdx? (·.eqv e.1) with
    | none => exact congrArg (Option.map val) hk
    | some p => rfl
  rw [← hr.map_fst_entries, ← hr.map_snd_entries]
  exact ⟨hselect _, hselect _⟩

end Plan

/-! ## Appending -/

theorem ascendingHolds_of_flags {a : Arr Value} (h : a.flags.ascending = false) :
    a.AscendingHolds := by
  cases a with
  | ints w => exact fun hflag => Bool.noConfusion (h.symm.trans hflag)
  | strs w => exact fun hflag => Bool.noConfusion (h.symm.trans hflag)
  | _ w => trivial

theorem ascendingHolds_select {s : Site} {a b : Arr Value} {ps : List Nat}
    (h : a.select s ps = .ok b) : b.AscendingHolds := by
  unfold Arr.select at h
  split at h
  · cases h
  cases h
  refine ascendingHolds_of_flags ?_
  cases a <;> rfl

/-- Two arrays in a row make a new buffer, of which nothing is known, unless one of them is
empty. -/
theorem ascendingHolds_concat {s : Site} {a b : Arr Value} (ha : a.AscendingHolds)
    (hb : b.AscendingHolds) : (a.concat s b).AscendingHolds := by
  have hvalues (vs : List Value) : (Arr.ofValues s vs).AscendingHolds := by
    refine ascendingHolds_of_flags ?_
    unfold Arr.ofValues Arr.pack
    split <;> rfl
  unfold Arr.concat
  split
  · exact ascendingHolds_of_flags rfl
  · exact ascendingHolds_of_flags rfl
  · exact ascendingHolds_of_flags rfl
  · exact ascendingHolds_of_flags rfl
  · split
    · exact ha
    split
    · exact hb
    · exact hvalues _

/-- Selected entries are appended, and nothing goes wrong. -/
theorem appendFrom_eq (s : Site) {d r : Dict Value} {fresh : List Nat}
    {es : List (Value × Value)} (hd : d.keys.AscendingHolds) (hr : r.Paired)
    (hlt : ∀ p ∈ fresh, p < r.len)
    (hkeys : fresh.filterMap (r.keys.values[·]?) = es.map (·.1))
    (hvals : fresh.filterMap (r.vals.values[·]?) = es.map (·.2)) :
    ∃ m, d.appendFrom s r fresh = .ok m ∧ m.keys.values = d.keys.values ++ es.map (·.1) ∧
      m.vals.values = d.vals.values ++ es.map (·.2) ∧ m.keys.AscendingHolds := by
  unfold Dict.appendFrom
  -- Without new entries, the dictionary keeps its arrays and their flags.
  by_cases hnil : fresh = []
  · subst hnil
    obtain rfl : es = [] := List.map_eq_nil_iff.1 hkeys.symm
    exact ⟨d, rfl, (List.append_nil _).symm, (List.append_nil _).symm, hd⟩
  · obtain ⟨ks, hks⟩ := Arr.exists_select (s.sub 0) hlt
    obtain ⟨vs, hvs⟩ := Arr.exists_select (s.sub 1) (hr.1 ▸ hlt : ∀ p ∈ fresh, p < r.vals.len)
    have hlen : ks.len = vs.len := (len_select hr.2.1 hks).trans (len_select hr.2.2 hvs).symm
    have happend : d.append? (s.sub 2) ks vs = .ok ⟨d.keys.concat ((s.sub 2).sub 0) ks,
        d.vals.concat ((s.sub 2).sub 1) vs⟩ := if_pos hlen
    have hnonempty : ¬fresh.isEmpty = true := fun h => hnil (List.isEmpty_iff.1 h)
    rw [if_neg hnonempty, hks, hvs]
    refine ⟨_, happend, ?_, ?_, ascendingHolds_concat hd (ascendingHolds_select hks)⟩
    · rw [Arr.values_concat, Arr.values_select hks, hkeys]
    · rw [Arr.values_concat, Arr.values_select hvs, hvals]

section MergeWith

variable {s : Site} {threshold : Nat}
  {combine : List (Nat × Nat) → Arr Value → Result (Arr Value)} {l r : Dict Value}

/-- If the left values can be combined, the added entries follow them. -/
theorem mergeWith_ok {vals : Arr Value} (hl : l.keys.AscendingHolds) (hr : r.Paired)
    (hcombine : (if (l.mergePlan threshold r).common.isEmpty then .ok l.vals
      else combine (l.mergePlan threshold r).common l.vals) = .ok vals) :
    ∃ m, l.mergeWith s threshold combine r = .ok m ∧
      m.keys.values = l.keys.values ++ (l.added r).map (·.1) ∧
      m.vals.values = vals.values ++ (l.added r).map (·.2) ∧ m.keys.AscendingHolds := by
  obtain ⟨hkeys, hvals⟩ := mergePlan_fresh hl hr threshold
  obtain ⟨m, hm, hresult⟩ := appendFrom_eq s (d := ⟨l.keys, vals⟩) hl hr
    (mergePlan_lt hr threshold).2 hkeys hvals
  refine ⟨m, ?_, hresult⟩
  rw [Dict.mergeWith, hcombine]
  exact hm

theorem mergeWith_error {e : Failure Value}
    (hcombine : (if (l.mergePlan threshold r).common.isEmpty then .ok l.vals
      else combine (l.mergePlan threshold r).common l.vals) = .error e) :
    l.mergeWith s threshold combine r = .error e := by
  rw [Dict.mergeWith, hcombine]
  rfl

end MergeWith

/-! ## Combining -/

/-- An amend with one operand for each position folds over the elements. -/
theorem combine_eq_foldWrites (settings : Settings) {f : Value} (hfun : f.isFunction = true)
    (c : Scope) {a z : Arr Value} {ps : List Nat} {es : List (Nat × Value)} (ha : WellFormed a)
    (hz : WellFormed z) (hps : ps = es.map (·.1)) (hvalues : z.values = es.map (·.2))
    (hlt : ∀ p ∈ ps, p < a.len) :
    let o := a.amendAt settings c (.many ps) (.ofValue settings f) (some (.array z))
    let r := foldWrites (fun k => f.apply settings (c.site.sub (k + 1))) 0
      (es.map fun e => (e.1, some e.2)) a.values
    Alike o.slot.values r.slot ∧ o.failure = r.failure := by
  intro o r
  have hcount : ps.length = es.length := by rw [hps, List.length_map]
  have hlen : z.len = ps.length := by rw [hcount, ← hz.length_values, hvalues, List.length_map]
  have hwf : WellFormed (some (.array z) : Option Value) :=
    (everywhere_some _).2 ((everywhere_array z).2 hz)
  have hop : (Callee.ofValue settings f).operands (some (.array z)) (.many ps) =
      .ok (.each z) := by
    rw [operands_ofValue, if_pos hfun]
    exact if_pos hlen
  have hzip : ps.zip ((Operands.each z).toList ps.length) = es.map fun e => (e.1, some e.2) := by
    refine List.ext_getElem (by simp [Operands.toList, hcount]) fun k hk _ => ?_
    have hk : k < es.length := by simpa [Operands.toList, hcount] using hk
    have hread : z.at? k = some es[k].2 := by
      rw [Arr.at?, hvalues, List.getElem?_map, List.getElem?_eq_getElem hk]
      rfl
    simp [Operands.toList, Operands.at?, hps, hread]
  have hpositions : ∀ p ∈ (Selection.many ps).positions, p < a.len := hlt
  obtain ⟨hshows, hfailure, -⟩ := amendAt_eq_foldWrites settings f c ha hwf hpositions hop
  rw [show (Selection.many ps).positions = ps from rfl, hzip] at hshows hfailure
  exact ⟨hshows.alike, hfailure⟩

/-! ## Looking up -/

/-- The value that stands where the key first occurs. -/
def lookup (ks vs : List Value) (k : Value) : Option Value :=
  (ks.findIdx? (·.eqv k)).bind (vs[·]?)

theorem Dict.get?_eq_lookup {d : Dict Value} (hd : d.keys.AscendingHolds) (k : Value) :
    d.get? k = lookup d.keys.values d.vals.values k := by
  have hfind : d.find? k = d.keys.values.findIdx? (·.eqv k) := Arr.find?_eq_findIdx? hd k
  rw [Dict.get?, hfind]
  rfl

theorem lookup_map (es : List (Value × Value)) (k : Value) :
    lookup (es.map (·.1)) (es.map (·.2)) k = (es.find? (·.1.eqv k)).map (·.2) := by
  rw [lookup, List.findIdx?_map, List.find?_eq_bind_findIdx?_getElem?, Option.map_bind]
  simp only [List.getElem?_map]
  rfl

theorem Dict.get?_eq_find? {d : Dict Value} (hd : d.Paired) (hkeys : d.keys.AscendingHolds)
    (k : Value) : d.get? k = (d.entries.find? (·.1.eqv k)).map (·.2) := by
  rw [Dict.get?_eq_lookup hkeys, ← lookup_map, hd.map_fst_entries, hd.map_snd_entries]

/-- A key that occurs among the first ones is looked up there. -/
theorem lookup_append_of_some {ks vs : List Value} {k : Value} {p : Nat} (hp : p < vs.length)
    (hk : ks.findIdx? (·.eqv k) = some p) (ks' vs' : List Value) :
    lookup (ks ++ ks') (vs ++ vs') k = vs[p]? := by
  rw [lookup, findIdx?_append_of_some hk]
  exact List.getElem?_append_left hp

/-- Other keys are looked up behind them. -/
theorem lookup_append_of_none {ks vs : List Value} {k : Value} (hlen : ks.length = vs.length)
    (hk : ks.findIdx? (·.eqv k) = none) (ks' vs' : List Value) :
    lookup (ks ++ ks') (vs ++ vs') k = lookup ks' vs' k := by
  rw [lookup, List.findIdx?_append, hk, Option.none_or, lookup]
  cases ks'.findIdx? (·.eqv k) with
  | none => rfl
  | some i =>
    show (vs ++ vs')[i + ks.length]? = vs'[i]?
    rw [hlen, List.getElem?_append_right (Nat.le_add_left ..), Nat.add_sub_cancel]

theorem alike_lookup {vs vs' : List Value} (h : Alike vs vs') (ks : List Value) (k : Value) :
    Alike (lookup ks vs k) (lookup ks vs' k) := by
  unfold lookup
  cases ks.findIdx? (·.eqv k) with
  | none => exact .refl none
  | some p => exact h.getElem? p

/-! ## Values after a fold -/

section Fold

variable {call : Nat → List Value → Result Value} {p : Nat}

theorem length_foldWrites (k : Nat) (es : List (Nat × Option Value)) (vs : List Value) :
    (foldWrites call k es vs).slot.length = vs.length := by
  induction es generalizing k vs with
  | nil => rfl
  | cons e es ih =>
    obtain ⟨i, z⟩ := e
    simp only [foldWrites]
    cases call k (vs[i]?.getD .nil :: z.toList) with
    | error e => rfl
    | ok v => exact (ih (k + 1) (vs.set i v)).trans List.length_set

/-- What is not written stays. -/
theorem foldWrites_getElem? {es : List (Nat × Option Value)} (hes : ∀ e ∈ es, e.1 ≠ p) (k : Nat)
    (vs : List Value) : (foldWrites call k es vs).slot[p]? = vs[p]? := by
  induction es generalizing k vs with
  | nil => rfl
  | cons e es ih =>
    obtain ⟨i, z⟩ := e
    obtain ⟨hi, hes⟩ := List.forall_mem_cons.1 hes
    simp only [foldWrites]
    cases call k (vs[i]?.getD .nil :: z.toList) with
    | error e => rfl
    | ok v => exact (ih hes (k + 1) (vs.set i v)).trans (List.getElem?_set_ne hi)

/-- What is written once is the answer of one call, on what was there at first. -/
theorem foldWrites_getElem?_once {pre post : List (Nat × Option Value)} {z : Option Value}
    {u : Value} (hpre : ∀ e ∈ pre, e.1 ≠ p) (hpost : ∀ e ∈ post, e.1 ≠ p) (k : Nat)
    {vs : List Value} (hu : vs[p]? = some u)
    (hok : (foldWrites call k (pre ++ (p, z) :: post) vs).failure = none) :
    ∃ j w, call j (u :: z.toList) = .ok w ∧
      (foldWrites call k (pre ++ (p, z) :: post) vs).slot[p]? = some w := by
  induction pre generalizing k vs with
  | nil =>
    have hp : p < vs.length := (List.getElem?_eq_some_iff.1 hu).1
    simp only [List.nil_append, foldWrites, hu, Option.getD_some] at hok ⊢
    cases hw : call k (u :: z.toList) with
    | error e =>
      rw [hw] at hok
      cases hok
    | ok w =>
      exact ⟨k, w, hw, (foldWrites_getElem? hpost (k + 1) _).trans (List.getElem?_set_self hp)⟩
  | cons e pre ih =>
    obtain ⟨i, y⟩ := e
    obtain ⟨hi, hpre⟩ := List.forall_mem_cons.1 hpre
    simp only [List.cons_append, foldWrites] at hok ⊢
    cases hv : call k (vs[i]?.getD .nil :: y.toList) with
    | error e =>
      rw [hv] at hok
      cases hok
    | ok v =>
      rw [hv] at hok
      exact ih hpre (k + 1) ((List.getElem?_set_ne hi).trans hu) hok

end Fold

/-! ## Merging -/

namespace Dict

/-- The left values, with the values of the common entries combined into them one after the other,
each by a call of its own. -/
def mergeFoldAt (l r : Dict Value) (call : Nat → List Value → Result Value) :
    Outcome (List Value) :=
  foldWrites call 0 ((l.combined r).map fun e => (e.1, some e.2)) l.vals.values

/-- The left values, with the values of the common entries combined into them one after the
other. -/
def mergeFold (l r : Dict Value) (call : List Value → Result Value) : Outcome (List Value) :=
  foldWrites (fun _ => call) 0 ((l.combined r).map fun e => (e.1, some e.2)) l.vals.values

/-- How merging updates the left values at common positions. -/
def combineValues (settings : Settings) (c : Scope) (l r : Dict Value) (f : Value)
    (common : List (Nat × Nat)) (vals : Arr Value) : Result (Arr Value) := do
  let z ← r.vals.select (c.site.sub 1) (common.map (·.2))
  (vals.amendAt settings ((c.sub 2).beside [.array l.vals]) (.many (common.map (·.1)))
    (.ofValue settings f) (some (.array z))).toResult

end Dict

section Lookup

variable {l r : Dict Value} {k : Value} {p : Nat} {call : Nat → List Value → Result Value}

/-- An added entry is found by its key, if the key does not occur on the left. -/
theorem lookup_added (hr : r.Paired) (hrkeys : r.keys.AscendingHolds)
    (hk : l.keys.values.findIdx? (·.eqv k) = none) :
    lookup ((l.added r).map (·.1)) ((l.added r).map (·.2)) k = r.get? k := by
  have hany : l.keys.values.any (·.eqv k) = false := any_eqv_of_none hk
  have htest (e : Value × Value) :
      decide ((!l.keys.values.any (·.eqv e.1)) = true ∧ e.1.eqv k = true) = e.1.eqv k := by
    cases he : e.1.eqv k with
    | false => simp
    | true =>
      -- The key of the entry equals `k`, so it does not occur on the left either.
      have hsame : (fun u : Value => u.eqv e.1) = (·.eqv k) := funext (eqv_right_congr he)
      simp [hsame, hany]
  rw [lookup_map, Dict.get?_eq_find? hr hrkeys, Dict.added, List.find?_filter]
  simp only [htest]

/-- Entries with other keys are not combined at the first position of `k`. -/
theorem combined_ne (hp : l.keys.values.findIdx? (·.eqv k) = some p)
    {es : List (Value × Value)} (hes : ∀ e ∈ es, e.1.eqv k = false) :
    ∀ q ∈ (es.filterMap l.place).map fun e => (e.1, some e.2), q.1 ≠ p := by
  intro q hq
  obtain ⟨found, hfound, rfl⟩ := List.mem_map.1 hq
  obtain ⟨e, he, hfirst⟩ := List.mem_filterMap.1 hfound
  obtain ⟨i, hi, rfl⟩ := Option.map_eq_some_iff.1 hfirst
  rintro rfl
  -- One element of the left keys would equal both keys.
  obtain ⟨_, heq, -⟩ := List.findIdx?_eq_some_iff_getElem.1 hp
  obtain ⟨_, heq', -⟩ := List.findIdx?_eq_some_iff_getElem.1 hi
  have hsame : e.1.eqv k = true := eqv_trans (eqv_symm heq') heq
  rw [hes e he] at hsame
  cases hsame

/-- With distinct keys, just one entry has a key that equals `k`. -/
theorem exists_entries_eq (hr : r.Paired) (hrkeys : r.keys.AscendingHolds)
    (hdistinct : Distinct r.keys.values) {v : Value} (hv : r.get? k = some v) :
    ∃ pre j post, r.entries = pre ++ (j, v) :: post ∧ j.eqv k = true ∧
      (∀ e ∈ pre, e.1.eqv k = false) ∧ ∀ e ∈ post, e.1.eqv k = false := by
  rw [Dict.get?_eq_find? hr hrkeys] at hv
  obtain ⟨⟨j, v⟩, hfind, rfl⟩ := Option.map_eq_some_iff.1 hv
  obtain ⟨hj, pre, post, hentries, hpre⟩ := List.find?_eq_some_iff_append.1 hfind
  rw [← hr.map_fst_entries, hentries] at hdistinct
  -- The keys behind the first equal one differ from it, and so from `k`.
  have hpost :=
    (List.pairwise_cons.1 (List.pairwise_append.1 (List.pairwise_map.1 hdistinct)).2.1).1
  refine ⟨pre, j, post, hentries, hj, fun e he => by simpa using hpre e he, fun e he => ?_⟩
  rw [← eqv_right_congr hj e.1, eqv_comm]
  exact hpost e he

/-- If the right side has no such key, the left value is as it was. -/
theorem mergeFoldAt_getElem?_of_none (hr : r.Paired) (hrkeys : r.keys.AscendingHolds)
    (hp : l.keys.values.findIdx? (·.eqv k) = some p) (hv : r.get? k = none) :
    (l.mergeFoldAt r call).slot[p]? = l.vals.values[p]? := by
  rw [Dict.get?_eq_find? hr hrkeys, Option.map_eq_none_iff, List.find?_eq_none] at hv
  exact foldWrites_getElem? (combined_ne hp fun e he => Bool.not_eq_true _ ▸ hv e he) 0 _

/-- If both sides have the key, the left value is the answer for the two. -/
theorem mergeFoldAt_getElem?_of_some (hr : r.Paired) (hrkeys : r.keys.AscendingHolds)
    (hdistinct : Distinct r.keys.values) (hp : l.keys.values.findIdx? (·.eqv k) = some p)
    {u v : Value} (hu : l.vals.values[p]? = some u) (hv : r.get? k = some v)
    (hok : (l.mergeFoldAt r call).failure = none) :
    ∃ j w, call j [u, v] = .ok w ∧ (l.mergeFoldAt r call).slot[p]? = some w := by
  obtain ⟨pre, j, post, hentries, hj, hpre, hpost⟩ :=
    exists_entries_eq hr hrkeys hdistinct hv
  have hsame : (fun w : Value => w.eqv j) = (·.eqv k) := funext (eqv_right_congr hj)
  have hplace : l.place (j, v) = some (p, v) := by
    rw [Dict.place, hsame, hp]
    rfl
  -- The fold writes at `p` once, for this entry.
  unfold Dict.mergeFoldAt Dict.combined at hok ⊢
  rw [hentries, List.filterMap_append, List.filterMap_cons_some hplace, List.map_append,
    List.map_cons] at hok ⊢
  exact foldWrites_getElem?_once (combined_ne hp hpre) (combined_ne hp hpost) 0 hu hok

end Lookup

section Merging

variable {settings : Settings} {c : Scope} {l r : Dict Value} {f : Value}

variable (settings c) in
/-- What becomes of the left values fails with the fold or shows what the fold leaves. -/
theorem combined_cases (hl : l.Paired) (hr : r.Paired) (hkeys : l.keys.AscendingHolds)
    (hfun : f.isFunction = true) :
    let common := (l.mergePlan settings.indexThreshold r).common
    let vals := if common.isEmpty then .ok l.vals else l.combineValues settings c r f common l.vals
    let fold := l.mergeFoldAt r fun k => f.apply settings ((c.site.sub 2).sub (k + 1))
    (∃ a, vals = .ok a ∧ fold.failure = none ∧ Alike a.values fold.slot) ∨
      ∃ e, vals = .error e ∧ fold.failure = some e := by
  intro common vals fold
  have hfst := mergePlan_common_fst hkeys hr settings.indexThreshold
  have hsnd := mergePlan_common_snd hkeys hr settings.indexThreshold
  by_cases hnil : common = []
  · -- Nothing is common, and the fold has nothing to do.
    have hcombined : l.combined r = [] := by
      refine List.map_eq_nil_iff.1 (hfst.symm.trans ?_)
      exact congrArg _ hnil
    have hfold : fold = .done l.vals.values := by
      show foldWrites _ 0 ((l.combined r).map _) _ = _
      rw [hcombined]
      rfl
    refine .inl ⟨l.vals, if_pos (List.isEmpty_iff.2 hnil), ?_, ?_⟩
    · rw [hfold]
      rfl
    · rw [hfold]
      exact .refl _
  · have hvals : vals = l.combineValues settings c r f common l.vals :=
      if_neg fun h => hnil (List.isEmpty_iff.1 h)
    have hlt : ∀ p ∈ common.map (·.2), p < r.vals.len := by
      rw [← hr.1]
      exact (mergePlan_lt hr settings.indexThreshold).1
    obtain ⟨z, hz⟩ := Arr.exists_select (c.site.sub 1) hlt
    obtain ⟨hslot, hfailure⟩ := combine_eq_foldWrites settings hfun
      ((c.sub 2).beside [.array l.vals]) hl.2.2 (wellFormed_select hr.2.2 hz) hfst
      ((Arr.values_select hz).trans hsnd) (mergePlan_common_lt hl settings.indexThreshold)
    rw [hvals, Dict.combineValues, hz]
    show (∃ a, Outcome.toResult _ = .ok a ∧ _) ∨ ∃ e, Outcome.toResult _ = .error e ∧ _
    generalize Arr.amendAt settings _ l.vals (.many (common.map (·.1))) _ _ = o at hslot hfailure
    obtain ⟨a, failure⟩ := o
    cases failure with
    | none => exact .inl ⟨a, rfl, hfailure.symm, hslot⟩
    | some e => exact .inr ⟨e, rfl, hfailure.symm⟩

/-- What a merge finds by a key: both values combined if both sides have it, and otherwise the value
of the one side. -/
structure Dict.MergedAt (m l r : Dict Value) (call : List Value → Result Value) (k : Value) :
    Prop where
  right : l.get? k = none → Alike (m.get? k) (r.get? k)
  left : r.get? k = none → Alike (m.get? k) (l.get? k)
  both : ∀ u v, l.get? k = some u → r.get? k = some v →
    ∃ w, call [u, v] = .ok w ∧ Alike (m.get? k) (some w)

theorem mergedAt (hl : l.Paired) (hr : r.Paired) (hlkeys : l.keys.AscendingHolds)
    (hrkeys : r.keys.AscendingHolds) (hdistinct : Distinct r.keys.values)
    {call : Nat → List Value → Result Value} (hok : (l.mergeFoldAt r call).failure = none)
    {m : Dict Value} (hmkeys : m.keys.AscendingHolds)
    (hkeys : m.keys.values = l.keys.values ++ (l.added r).map (·.1))
    (hvals : Alike m.vals.values ((l.mergeFoldAt r call).slot ++ (l.added r).map (·.2)))
    (k : Value) : ∃ j, m.MergedAt l r (call j) k := by
  have hlen : l.keys.values.length = (l.mergeFoldAt r call).slot.length :=
    hl.length_eq.trans (length_foldWrites ..).symm
  have hm : Alike (m.get? k) (lookup (l.keys.values ++ (l.added r).map (·.1))
      ((l.mergeFoldAt r call).slot ++ (l.added r).map (·.2)) k) := by
    rw [Dict.get?_eq_lookup hmkeys, hkeys]
    exact alike_lookup hvals _ k
  -- The left keys are in front, so a key that occurs among them is found there.
  have hget : l.get? k = (l.keys.values.findIdx? (·.eqv k)).bind (l.vals.values[·]?) :=
    Dict.get?_eq_lookup hlkeys k
  cases hp : l.keys.values.findIdx? (·.eqv k) with
  | none =>
    rw [lookup_append_of_none hlen hp, lookup_added hr hrkeys hp] at hm
    rw [hp] at hget
    refine ⟨0, fun _ => hm, fun hnone => ?_, fun u v hu _ => ?_⟩
    · rw [hget, Option.bind_none, ← hnone]
      exact hm
    · cases hget.symm.trans hu
  | some p =>
    have hlt : p < l.keys.values.length := (List.findIdx?_eq_some_iff_getElem.1 hp).1
    obtain ⟨u, hu⟩ : ∃ u, l.vals.values[p]? = some u :=
      ⟨_, List.getElem?_eq_getElem (hl.length_eq ▸ hlt)⟩
    rw [lookup_append_of_some (hlen ▸ hlt) hp] at hm
    rw [hp, Option.bind_some, hu] at hget
    cases hv : r.get? k with
    | none =>
      refine ⟨0, fun hnone => ?_, fun _ => ?_, fun _ _ _ hsome => ?_⟩
      · cases hget.symm.trans hnone
      · rw [hget, ← hu, ← mergeFoldAt_getElem?_of_none hr hrkeys hp hv]
        exact hm
      · cases hv.symm.trans hsome
    | some v =>
      obtain ⟨j, w, hw, hslot⟩ := mergeFoldAt_getElem?_of_some hr hrkeys hdistinct hp hu hv hok
      refine ⟨j, fun hnone => ?_, fun hnone => ?_, fun u' v' hu' hv' => ?_⟩
      · cases hget.symm.trans hnone
      · cases hv.symm.trans hnone
      · cases hget.symm.trans hu'
        cases hv.symm.trans hv'
        exact ⟨w, hw, hslot ▸ hm⟩

/-- Merging dictionaries goes through the entries of the right one in order. Each entry whose key
occurs on the left replaces the value at the key's first position by the function of the two values,
called at a site of its own. The merge fails just when one of these calls fails, and otherwise
answers the left keys and values, with the entries of the new keys behind them. A look-up in the
answer finds both values combined, or the one that there is. The answer shows through neither of the
two dictionaries, nor through anything else that is held. -/
theorem merge_eq_mergeFoldAt (settings : Settings) (c : Scope) (l r : Dict Value) (f : Value)
    (hl : l.Paired) (hr : r.Paired) (hlkeys : l.keys.AscendingHolds)
    (hrkeys : r.keys.AscendingHolds) (hfun : f.isFunction = true) :
    let merged := l.merge settings c r f
    let call := fun k => f.apply settings ((c.site.sub 2).sub (k + 1))
    let fold := l.mergeFoldAt r call
    (∀ e, fold.failure = some e → merged = .error e) ∧
      (fold.failure = none → ∃ m, merged = .ok m ∧
        m.keys.values = l.keys.values ++ (l.added r).map (·.1) ∧
        Alike m.vals.values (fold.slot ++ (l.added r).map (·.2)) ∧
        (Distinct r.keys.values → ∀ k, ∃ j, m.MergedAt l r (call j) k)) ∧
      (c.Keeps l → c.Keeps r → c.Keeps f → ∀ st : Store, (∀ t, c.site.Below t → st t = none) →
        LiesIn st c.held → st.Spares c.held merged ∧
          LiesIn (st.writeBack merged) l ∧ LiesIn (st.writeBack merged) r) := by
  intro merged call fold
  refine ⟨fun e he => ?_, fun hok => ?_, fun hkl hkr hkf st hfree hheld => ?_⟩
  · rcases combined_cases settings c hl hr hlkeys hfun with ⟨a, -, hnone, -⟩ | ⟨e', hvals, hsome⟩
    · cases hnone.symm.trans he
    · cases hsome.symm.trans he
      exact mergeWith_error hvals
  · rcases combined_cases settings c hl hr hlkeys hfun with ⟨a, hvals, -, halike⟩ | ⟨_, -, hsome⟩
    · obtain ⟨m, hm, hkeys, hvalues, hmkeys⟩ := mergeWith_ok hlkeys hr hvals
      have hvalues : Alike m.vals.values (fold.slot ++ (l.added r).map (·.2)) := by
        rw [hvalues]
        exact halike.append (.refl _)
      exact ⟨m, hm, hkeys, hvalues, fun hdistinct =>
        mergedAt hl hr hlkeys hrkeys hdistinct hok hmkeys hkeys hvalues⟩
    · cases hok.symm.trans hsome
  · have hmade : Made c.site.Below c.held merged := made_merge hkl hkr hkf
    have hturns : c.Turns c.site.Below c.held merged := hmade.turns_of_input
    have hspares := hturns.spares hfree hheld hheld
    exact ⟨hspares, hkl _ (hspares.liesIn hheld), hkr _ (hspares.liesIn hheld)⟩

/-! ## Pure functions -/

/-- A pure function may be called at one site for all common entries. -/
theorem alike_mergeFoldAt (hl : l.Paired) (hr : r.Paired) (hf : WellFormed f)
    (hpure : f.IsPure settings 2) (s t : Site) :
    Alike (l.mergeFoldAt r fun k => f.apply settings (t.sub (k + 1)))
      (l.mergeFold r (f.apply settings s)) := by
  have hpure : f.IsPure settings (updateArity true) := hpure
  refine alike_foldWrites hf hpure s t (fun e he => ?_) (everywhere_values hl.2.2)
  obtain ⟨q, hq, rfl⟩ := List.mem_map.1 he
  obtain ⟨⟨k, v⟩, hmem, hplace⟩ := List.mem_filterMap.1 hq
  obtain ⟨i, -, rfl⟩ := Option.map_eq_some_iff.1 hplace
  exact ⟨everywhere_iff_forall.1 (everywhere_values hr.2.2) v (List.of_mem_zip hmem).2, rfl⟩

/-- What a merge finds by a key, with a call that answers alike. -/
theorem Dict.MergedAt.congr {m : Dict Value} {k : Value} {call call' : List Value → Result Value}
    (h : m.MergedAt l r call k)
    (hcall : ∀ u v, l.get? k = some u → r.get? k = some v →
      Alike (call [u, v]) (call' [u, v])) : m.MergedAt l r call' k := by
  refine ⟨h.right, h.left, fun u v hu hv => ?_⟩
  obtain ⟨w, hw, hget⟩ := h.both u v hu hv
  have hsame := hcall u v hu hv
  rw [hw] at hsame
  rcases alike_result_cases hsame with ⟨_, w', hok, hw', hww⟩ | ⟨_, _, herror, -, -⟩
  · cases hok
    exact ⟨w', hw', hget.trans (alike_some.2 hww)⟩
  · cases herror

theorem wellFormed_get? {d : Dict Value} (hd : d.Paired) {k v : Value} (hv : d.get? k = some v) :
    WellFormed v := by
  obtain ⟨p, -, hp⟩ := Option.bind_eq_some_iff.1 hv
  exact everywhere_of_at? hd.2.2 hp

/-- Merging dictionaries with a pure function goes through the entries of the right one in order.
Each entry whose key occurs on the left replaces the value at the key's first position by the
function of the two values. The merge fails just when one of these calls fails, and otherwise
answers the left keys and values, with the entries of the new keys behind them. A look-up in the
answer finds both values combined, or the one that there is. The answer shows through neither of the
two dictionaries, nor through anything else that is held. -/
theorem merge_eq_mergeFold (settings : Settings) (c : Scope) (l r : Dict Value) (f : Value)
    (s : Site) (hl : l.Paired) (hr : r.Paired) (hf : WellFormed f)
    (hlkeys : l.keys.AscendingHolds) (hrkeys : r.keys.AscendingHolds)
    (hfun : f.isFunction = true) (hpure : f.IsPure settings 2) :
    let merged := l.merge settings c r f
    let call := f.apply settings s
    let fold := l.mergeFold r call
    (∀ e, fold.failure = some e → ∃ e', merged = .error e' ∧ Alike e' e) ∧
      (fold.failure = none → ∃ m, merged = .ok m ∧
        m.keys.values = l.keys.values ++ (l.added r).map (·.1) ∧
        Alike m.vals.values (fold.slot ++ (l.added r).map (·.2)) ∧
        (Distinct r.keys.values → ∀ k, m.MergedAt l r call k)) ∧
      (c.Keeps l → c.Keeps r → c.Keeps f → ∀ st : Store, (∀ t, c.site.Below t → st t = none) →
        LiesIn st c.held → st.Spares c.held merged ∧
          LiesIn (st.writeBack merged) l ∧ LiesIn (st.writeBack merged) r) := by
  intro merged call fold
  obtain ⟨hfails, hworks, hspares⟩ :=
    merge_eq_mergeFoldAt settings c l r f hl hr hlkeys hrkeys hfun
  obtain ⟨hslot, hfailure⟩ := alike_outcome.1 <|
    alike_mergeFoldAt hl hr hf hpure s (c.site.sub 2)
  refine ⟨fun e he => ?_, fun hok => ?_, hspares⟩
  · rw [show (l.mergeFold r (f.apply settings s)).failure = some e from he] at hfailure
    rcases alike_option_cases hfailure with ⟨-, hnone⟩ | ⟨e', _, hsome, h, hsame⟩
    · cases hnone
    · cases h
      exact ⟨e', hfails e' hsome, hsame⟩
  · obtain ⟨m, hm, hkeys, hvalues, hmerged⟩ := hworks ((alike_eq_none_iff hfailure).2 hok)
    refine ⟨m, hm, hkeys, hvalues.trans (hslot.append (.refl _)), fun hdistinct k => ?_⟩
    obtain ⟨j, hj⟩ := hmerged hdistinct k
    refine hj.congr fun u v hu hv => ?_
    have hargs : WellFormed [u, v] :=
      (everywhere_cons ..).2 ⟨wellFormed_get? hl hu, everywhere_singleton.2 (wellFormed_get? hr hv)⟩
    exact hpure _ s [u, v] [u, v] rfl hargs hargs (.refl _)

end Merging

/-- The left key occurs twice, and its first value is replaced. The other right entry is
appended. -/
theorem merge_eq_mergeFold_repeated :
    let l : Dict Value := ⟨.strs (.ofList ⟨[1]⟩ ["a", "b", "a"]), .ints (.ofList ⟨[2]⟩ [1, 2, 3])⟩
    let r : Dict Value := ⟨.strs (.ofList ⟨[3]⟩ ["c", "a"]), .ints (.ofList ⟨[4]⟩ [20, 10])⟩
    let f : Value := .builtin .right
    let call := f.apply {} ⟨[5]⟩
    (l.Paired ∧ r.Paired ∧ WellFormed f ∧ l.keys.AscendingHolds ∧ r.keys.AscendingHolds ∧
        f.isFunction = true ∧ f.IsPure {} 2 ∧ Distinct r.keys.values) ∧
      ∃ m, l.merge {} ⟨[], ⟨[0]⟩⟩ r f = .ok m ∧
        m.keys.values = [.str "a", .str "b", .str "a", .str "c"] ∧
        Alike m.vals.values [.int 10, .int 2, .int 3, .int 20] ∧
        m.MergedAt l r call (.str "a") := by
  intro l r f call
  have hl : l.Paired := ⟨rfl, by decide, by decide⟩
  have hr : r.Paired := ⟨rfl, by decide, by decide⟩
  have hlkeys : l.keys.AscendingHolds := ascendingHolds_of_flags rfl
  have hrkeys : r.keys.AscendingHolds := ascendingHolds_of_flags rfl
  have hpure : f.IsPure {} 2 := isPure_right {}
  have hdistinct : Distinct r.keys.values := by
    refine List.pairwise_cons.2 ⟨fun k hk => ?_, List.pairwise_singleton ..⟩
    cases List.mem_singleton.1 hk
    rfl
  obtain ⟨-, hok, -⟩ := merge_eq_mergeFold {} ⟨[], ⟨[0]⟩⟩ l r f ⟨[5]⟩ hl hr (by decide) hlkeys
    hrkeys rfl hpure
  obtain ⟨m, hm, hkeys, hvals, hmerged⟩ := hok rfl
  exact ⟨⟨hl, hr, by decide, hlkeys, hrkeys, rfl, hpure, hdistinct⟩, m, hm, hkeys, hvals,
    hmerged hdistinct (.str "a")⟩

end SharedArrays
