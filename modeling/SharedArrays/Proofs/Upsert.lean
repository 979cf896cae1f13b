import SharedArrays.Proofs.Merge

/-!
# Upserting by a merge and by an amend

Merging with `:` and amending with `:` at the keys of a dictionary both write the values of the
right dictionary over those of the left one. They treat a new key that is given more than once
differently: an amend appends it once and leaves the value given last, a merge appends it each time.

## Main definitions

* `overwrite` — writing values at places of a list
* `written` — the places of entries among keys
* `Dict.last?` — the value given last for a key
* `Dict.Upserts` — new keys appended once, with the values given last

## Main results

* `foldWrites_right` — folding with `:` overwrites
* `getElem?_overwrite_written` — what is read at the place of a key is what was given last for it
* `merge_right` — a merge overwrites the left values, and appends all entries with new keys
* `amended_right` — an amend appends the new keys once, and overwrites
* `upsert` — when the two agree, and what each of them leaves
-/

namespace SharedArrays

/-! ## Overwriting -/

/-- The list with values written at the given places, one after the other. -/
def overwrite (es : List (Nat × Value)) (vs : List Value) : List Value :=
  es.foldl (fun vs e => vs.set e.1 e.2) vs

@[simp] theorem length_overwrite (es : List (Nat × Value)) (vs : List Value) :
    (overwrite es vs).length = vs.length := by
  induction es generalizing vs with
  | nil => rfl
  | cons e es ih => exact (ih _).trans List.length_set

/-- What was written last at a place is read there. -/
theorem getElem?_overwrite (es : List (Nat × Value)) {vs : List Value} {p : Nat}
    (hp : p < vs.length) :
    (overwrite es vs)[p]? = ((es.reverse.find? (·.1 == p)).map (·.2)).or vs[p]? := by
  induction es generalizing vs with
  | nil => rfl
  | cons e es ih =>
    obtain ⟨i, v⟩ := e
    have hrest := @ih (vs.set i v) (by simpa using hp)
    refine hrest.trans ?_
    rw [List.reverse_cons, List.find?_append, Option.map_or, Option.or_assoc]
    refine congrArg (Option.or _) ?_
    by_cases hi : i = p
    · subst hi
      simp [hp]
    · simp [hi]

theorem apply_right (settings : Settings) (s : Site) (u : Value) {v : Value}
    (hv : v.isError = false) :
    (Value.builtin .right).apply settings s [u, v] = .ok v := by
  cases v <;> first | rfl | cases hv

/-- Folding with `:` overwrites. -/
theorem foldWrites_right (settings : Settings) (site : Nat → Site) (k : Nat)
    {es : List (Nat × Value)} (hes : ∀ e ∈ es, e.2.isError = false) (vs : List Value) :
    foldWrites (fun k => (Value.builtin .right).apply settings (site k)) k
      (es.map fun e => (e.1, some e.2)) vs = .done (overwrite es vs) := by
  induction es generalizing k vs with
  | nil => rfl
  | cons e es ih =>
    obtain ⟨he, hes⟩ := List.forall_mem_cons.1 hes
    have hcall := apply_right settings (site k) (vs[e.1]?.getD .nil) he
    simp only [List.map_cons, foldWrites, Option.toList, hcall]
    exact ih (k + 1) hes _

/-! ## Entries at the places of their keys -/

/-- The entries whose keys occur among `ks`, each with the first place of its key. -/
def written (ks : List Value) (es : List (Value × Value)) : List (Nat × Value) :=
  es.filterMap fun e => (ks.findIdx? (·.eqv e.1)).map (·, e.2)

theorem combined_eq_written (l r : Dict Value) : l.combined r = written l.keys.values r.entries :=
  rfl

theorem snd_mem_of_mem_written {ks : List Value} {es : List (Value × Value)} {e : Nat × Value}
    (he : e ∈ written ks es) : ∃ k, (k, e.2) ∈ es := by
  obtain ⟨⟨k, v⟩, hmem, hplace⟩ := List.mem_filterMap.1 he
  obtain ⟨p, -, rfl⟩ := Option.map_eq_some_iff.1 hplace
  exact ⟨k, hmem⟩

/-- The last entry that is written at a place, in terms of the keys. -/
theorem find?_reverse_written (ks : List Value) (es : List (Value × Value)) (p : Nat) :
    ((written ks es).reverse.find? (·.1 == p)).map (·.2) =
      (es.reverse.find? fun e => ks.findIdx? (·.eqv e.1) == some p).map (·.2) := by
  rw [written, ← List.filterMap_reverse, List.find?_filterMap, Option.map_bind]
  have htest (e : Value × Value) :
      Option.any (fun q : Nat × Value => q.1 == p)
          ((ks.findIdx? (·.eqv e.1)).map (·, e.2)) =
        (ks.findIdx? (·.eqv e.1) == some p) := by
    cases ks.findIdx? (·.eqv e.1) <;> rfl
  simp only [htest]
  cases hfind : es.reverse.find? fun e => ks.findIdx? (·.eqv e.1) == some p with
  | none => rfl
  | some e =>
    have hplace : ks.findIdx? (·.eqv e.1) = some p := by
      simpa using List.find?_some hfind
    simp [hplace]

/-- Keys with the same first place are equal. -/
theorem findIdx?_beq_eq_eqv {ks : List Value} {k : Value} {p : Nat}
    (hp : ks.findIdx? (·.eqv k) = some p) (j : Value) :
    (ks.findIdx? (·.eqv j) == some p) = j.eqv k := by
  cases hj : j.eqv k with
  | true =>
    have hsame : (fun u : Value => u.eqv j) = (·.eqv k) := funext (eqv_right_congr hj)
    rw [hsame, hp]
    exact beq_self_eq_true _
  | false =>
    refine beq_eq_false_iff_ne.2 fun hq => ?_
    obtain ⟨_, heq, -⟩ := List.findIdx?_eq_some_iff_getElem.1 hp
    obtain ⟨_, heq', -⟩ := List.findIdx?_eq_some_iff_getElem.1 hq
    exact Bool.noConfusion (hj.symm.trans (eqv_trans (eqv_symm heq') heq))

/-- The value given last for a key, in a list of entries. -/
def lastGiven (es : List (Value × Value)) (k : Value) : Option Value :=
  (es.reverse.find? (·.1.eqv k)).map (·.2)

/-- The value given last for a key. -/
def Dict.last? (d : Dict Value) (k : Value) : Option Value := lastGiven d.entries k

/-- What is read at the first place of a key is what was given last for it. -/
theorem getElem?_overwrite_written {ks vs : List Value} {k : Value} {p : Nat}
    (hp : ks.findIdx? (·.eqv k) = some p) (hlt : p < vs.length) (es : List (Value × Value)) :
    (overwrite (written ks es) vs)[p]? = (lastGiven es k).or vs[p]? := by
  rw [getElem?_overwrite _ hlt, find?_reverse_written, lastGiven]
  simp only [findIdx?_beq_eq_eqv hp]

/-- Keys behind the others change nothing at the places of the others. -/
theorem getElem?_overwrite_append {ks vs : List Value} (hlen : ks.length = vs.length) {p : Nat}
    (hp : p < vs.length) (ks' vs' : List Value) (es : List (Value × Value)) :
    (overwrite (written (ks ++ ks') es) (vs ++ vs'))[p]? = (overwrite (written ks es) vs)[p]? := by
  have htest (e : Value × Value) : ((ks ++ ks').findIdx? (·.eqv e.1) == some p) =
      (ks.findIdx? (·.eqv e.1) == some p) := by
    rw [List.findIdx?_append]
    cases ks.findIdx? (·.eqv e.1) with
    | some q => rfl
    | none =>
      refine beq_eq_false_iff_ne.2 fun hq => ?_
      obtain ⟨i, -, hi⟩ := Option.map_eq_some_iff.1 hq
      omega
  rw [getElem?_overwrite _ (by simp; omega), getElem?_overwrite _ hp, find?_reverse_written,
    find?_reverse_written, List.getElem?_append_left hp]
  simp only [htest]

/-- Entries with equal keys are one entry, where no key is given twice. -/
theorem eq_of_distinct {es : List (Value × Value)} (hes : Distinct (es.map (·.1)))
    {e e' : Value × Value} (he : e ∈ es) (he' : e' ∈ es) (heq : e.1.eqv e'.1 = true) : e = e' := by
  have hapart := List.pairwise_iff_getElem.1 (List.pairwise_map.1 hes)
  obtain ⟨i, hi, rfl⟩ := List.getElem_of_mem he
  obtain ⟨j, hj, rfl⟩ := List.getElem_of_mem he'
  rcases Nat.lt_trichotomy i j with hlt | rfl | hlt
  · cases heq.symm.trans (hapart i j hi hj hlt)
  · rfl
  · cases (eqv_symm heq).symm.trans (hapart j i hj hi hlt)

/-- Where no key is given twice, every entry is the last one of its key. -/
theorem lastGiven_of_distinct {es : List (Value × Value)} (hes : Distinct (es.map (·.1)))
    {e : Value × Value} (he : e ∈ es) : lastGiven es e.1 = some e.2 := by
  have he' := List.mem_reverse.2 he
  cases hfind : es.reverse.find? (·.1.eqv e.1) with
  | none => exact absurd (eqv_refl e.1) (List.find?_eq_none.1 hfind e he')
  | some e' =>
    have hkey : e'.1.eqv e.1 = true :=
      List.find?_some (p := fun e' : Value × Value => e'.1.eqv e.1) hfind
    have hmem := List.mem_reverse.1 (List.mem_of_find?_eq_some hfind)
    rw [lastGiven, hfind, eq_of_distinct hes hmem he hkey]
    rfl

theorem lastGiven_eq_none_iff {es : List (Value × Value)} {k : Value} :
    lastGiven es k = none ↔ (es.map (·.1)).any (·.eqv k) = false := by
  simp [lastGiven, List.find?_eq_none]

/-- What was given last for a key that is new, in terms of the entries with new keys. -/
theorem lastGiven_added {l r : Dict Value} {k : Value}
    (hk : l.keys.values.any (·.eqv k) = false) :
    lastGiven (l.added r) k = lastGiven r.entries k := by
  have htest (e : Value × Value) :
      decide ((!l.keys.values.any (·.eqv e.1)) = true ∧ e.1.eqv k = true) = e.1.eqv k := by
    cases he : e.1.eqv k with
    | false => simp
    | true =>
      have hsame : (fun u : Value => u.eqv e.1) = (·.eqv k) := funext (eqv_right_congr he)
      simp [hsame, hk]
  rw [lastGiven, Dict.added, ← List.filter_reverse, List.find?_filter, lastGiven]
  simp only [htest]

/-- Keys at known first places, with their values. -/
theorem zip_places {ks : List Value} {ps : List Nat} {keys vals : List Value}
    (h : ps.map some = keys.map fun k => ks.findIdx? (·.eqv k)) :
    ps.zip vals = written ks (keys.zip vals) := by
  induction keys generalizing ps vals with
  | nil =>
    rw [List.map_eq_nil_iff.1 h]
    rfl
  | cons k keys ih =>
    obtain ⟨p, ps, rfl⟩ : ∃ p ps', ps = p :: ps' := by
      cases ps with
      | nil => cases h
      | cons p ps => exact ⟨p, ps, rfl⟩
    obtain ⟨hp, h⟩ := List.cons.inj h
    cases vals with
    | nil => rfl
    | cons v vals =>
      have hplace : (ks.findIdx? (·.eqv k)).map (·, v) = some (p, v) :=
        congrArg (Option.map (·, v)) hp.symm
      rw [List.zip_cons_cons, List.zip_cons_cons, ih h, written, written, List.filterMap_cons,
        hplace]

/-! ## New keys, once and each time -/

theorem newKeys_eq_newKeys_filter (old wanted : List Value) :
    newKeys old wanted = newKeys [] (wanted.filter fun k => !old.any (·.eqv k)) := by
  simp [newKeys]

theorem newKeys_sublist (old wanted : List Value) : (newKeys old wanted).Sublist wanted := by
  induction wanted generalizing old with
  | nil => exact .slnil
  | cons k ks ih =>
    cases hk : old.any (·.eqv k) with
    | true =>
      rw [newKeys_cons_of_mem hk]
      exact (ih old).cons k
    | false =>
      rw [newKeys_cons_of_not_mem hk]
      exact (ih _).cons_cons k

/-- Keys that differ from each other and from the old ones are all kept. -/
theorem newKeys_eq_self {old ks : List Value} (h : Distinct (old ++ ks)) : newKeys old ks = ks := by
  induction ks generalizing old with
  | nil => rfl
  | cons k ks ih =>
    have hk : old.any (·.eqv k) = false := by
      refine List.any_eq_false.2 fun u hu => ?_
      simpa using (List.pairwise_append.1 h).2.2 u hu k List.mem_cons_self
    rw [newKeys_cons_of_not_mem hk, ih (by simpa using h)]

/-- New keys are as many as the wanted ones just if nothing is wanted twice. -/
theorem length_newKeys_eq_iff {ks : List Value} :
    (newKeys [] ks).length = ks.length ↔ Distinct ks := by
  refine ⟨fun hlen => ?_, fun h => congrArg _ (newKeys_eq_self h)⟩
  have hall : newKeys [] ks = ks := (newKeys_sublist [] ks).eq_of_length hlen
  have hdistinct : Distinct ([] ++ newKeys [] ks) := pairwise_append_newKeys .nil ks
  rwa [List.nil_append, hall] at hdistinct

theorem any_append_newKeys (old wanted : List Value) (k : Value) :
    (old ++ newKeys old wanted).any (·.eqv k) = (old ++ wanted).any (·.eqv k) := by
  induction wanted generalizing old with
  | nil => rfl
  | cons j ks ih =>
    cases hj : old.any (·.eqv j) with
    | true =>
      rw [newKeys_cons_of_mem hj, ih]
      simp only [List.any_append, List.any_cons]
      cases hjk : j.eqv k with
      | false => rw [Bool.false_or]
      | true =>
        have hsame : (fun u : Value => u.eqv j) = (·.eqv k) := funext (eqv_right_congr hjk)
        rw [hsame] at hj
        rw [hj]
        rfl
    | false =>
      rw [newKeys_cons_of_not_mem hj, List.append_cons, ih, List.append_assoc]
      rfl

theorem newKeys_eq_newKeys_added {l r : Dict Value} (hr : r.Paired) :
    newKeys l.keys.values r.keys.values = newKeys [] ((l.added r).map (·.1)) := by
  rw [newKeys_eq_newKeys_filter, ← hr.map_fst_entries, List.filter_map]
  rfl

/-! ## A merge -/

section Merge

variable {settings : Settings} {l r : Dict Value}

/-- A merge with `:` overwrites the left values, and appends all entries with new keys. -/
theorem merge_right (c : Scope) (hl : l.Paired) (hr : r.Paired) (hlkeys : l.keys.AscendingHolds)
    (hvals : ∀ v ∈ r.vals.values, v.isError = false) :
    ∃ m, l.merge settings c r (.builtin .right) = .ok m ∧
      m.keys.values = l.keys.values ++ (l.added r).map (·.1) ∧
      Alike m.vals.values
        (overwrite (l.combined r) l.vals.values ++ (l.added r).map (·.2)) ∧
      m.keys.AscendingHolds := by
  have hentries : ∀ e ∈ l.combined r, e.2.isError = false := by
    intro e he
    obtain ⟨k, hk⟩ := snd_mem_of_mem_written he
    exact hvals _ (List.of_mem_zip hk).2
  have hfold := foldWrites_right settings (fun k => (c.site.sub 2).sub (k + 1)) 0 hentries
    l.vals.values
  have hcases := combined_cases settings c hl hr (f := .builtin .right) hlkeys rfl
  simp only [Dict.mergeFoldAt, hfold] at hcases
  obtain ⟨a, hcombine, -, halike⟩ | ⟨e, -, hfail⟩ := hcases
  · obtain ⟨m, hm, hkeys, hvalues, hmkeys⟩ := mergeWith_ok (s := c.site.sub 0) hlkeys hr hcombine
    refine ⟨m, hm, hkeys, ?_, hmkeys⟩
    rw [hvalues]
    exact halike.append (.refl _)
  · cases hfail

end Merge

/-! ## An amend -/

theorem ascendingHolds_canonical {a : Arr Value} (h : a.AscendingHolds) (c : Scope) :
    (a.canonical c).AscendingHolds := by
  cases a with
  | list w =>
    -- What moves to a new buffer has no flags, and what stays is a list.
    simp only [Arr.canonical]
    split
    · split
      · rw [Arr.freeze_list]
        trivial
      · exact h
    · refine ascendingHolds_of_flags ?_
      unfold Arr.pack
      split <;> rfl
  | _ w => exact h

theorem ascendingHolds_appendKeys {d : Dict Value} (h : d.keys.AscendingHolds) (c : Scope)
    (ks : List Value) : (d.appendKeys c ks).keys.AscendingHolds := by
  rw [Dict.appendKeys_eq]
  generalize 0 = n
  induction ks generalizing n d with
  | nil => exact h
  | cons k ks ih =>
    refine ih (d := d.appendKey (c.sub n) k) ?_ (n + 1)
    refine ascendingHolds_canonical (ascendingHolds_of_flags ?_) _
    rw [Arr.flags_push]

section Amend

variable {settings : Settings} {l r : Dict Value}

/-- An amend with `:` at the keys of a dictionary appends the new keys once, and overwrites. -/
theorem amended_right (c : Scope) (s : Site) (hl : l.Paired) (hr : r.Paired)
    (hlkeys : l.keys.AscendingHolds) (hvals : ∀ v ∈ r.vals.values, v.isError = false)
    (hkey : l.keys.values.any (·.eqv (.array r.keys)) = false) :
    let ks := l.keys.values ++ newKeys l.keys.values r.keys.values
    ∃ e pads, (Value.dict s l).amended settings .flat c (.array r.keys) (.builtin .right)
        (some (.array r.vals)) = .ok (.dict (c.own s) e) ∧
      Alike e.keys.values ks ∧ (l.vals.values ++ pads).length = ks.length ∧
      Alike e.vals.values (overwrite (written ks r.entries) (l.vals.values ++ pads)) ∧
      e.keys.AscendingHolds := by
  intro ks
  have hnamed : l.named (.array r.keys) = .many r.keys.values :=
    if_neg fun h => Bool.noConfusion (hkey.symm.trans h.2)
  have hy : WellFormed (Value.array r.keys) := (everywhere_array _).2 hr.2.1
  have hz : WellFormed (some (Value.array r.vals)) :=
    (everywhere_some _).2 ((everywhere_array _).2 hr.2.2)
  have hplan := placement_named hl.2.1 hlkeys settings (.array r.keys)
  rw [hnamed] at hplan
  -- There is one value for each key.
  have hzs : (Named.many r.keys.values).operands l.keys.values.length (some (.array r.vals)) =
      .ok (r.vals.values.map some) :=
    if_pos (hr.1.symm.trans hr.2.1.length_values.symm)
  obtain ⟨operands, hop, htoList⟩ := hplan.exists_operands hz hzs
  have hcallee : (Callee.ofValue settings (.builtin .right)).operands (some (.array r.vals))
      (l.placement settings (.array r.keys)).selection = .ok operands := by
    rw [operands_ofValue, hop]
    rfl
  -- The keys are appended, and the values are amended with room for them.
  let plan := l.placement settings (.array r.keys)
  let grown := l.appendKeys (c.sub 0) plan.missing
  have hwfmissing := everywhere_missing settings l hy
  have hgrown : grown.Paired := paired_appendKeys hl hwfmissing
  have hlen : grown.vals.len = l.len + plan.missing.length :=
    hgrown.1.symm.trans (len_appendKeys hl hwfmissing)
  have hlt := placement_lt settings hl.2.1 (.array r.keys)
  rw [← hlen] at hlt
  obtain ⟨⟨hslot, -⟩, hfailure, -⟩ := amendAt_eq_foldWrites settings (.builtin .right)
    ((c.sub 1).beside [.array grown.keys]) hgrown.2.2 hz hlt hcallee
  obtain ⟨pads, hgrownVals, hcount, -⟩ := exists_pads s (c.sub 0) l plan.missing
  have hmissing : plan.missing = newKeys l.keys.values r.keys.values := hplan.missing
  have hkeys : Alike grown.keys.values ks := by
    rw [← show l.keys.values ++ plan.missing = ks from congrArg _ hmissing]
    exact alike_keys_appendKeys (c.sub 0) l plan.missing
  -- The places of the keys, with the values.
  have hzip : plan.selection.positions.zip (operands.toList plan.selection.positions.length) =
      (written ks r.entries).map fun e => (e.1, some e.2) := by
    have hpositions : plan.selection.positions.map some =
        r.keys.values.map fun k => ks.findIdx? (·.eqv k) := hplan.places
    rw [show operands.toList _ = _ from htoList, List.zip_map_right, zip_places hpositions]
    rfl
  have hentries : ∀ e ∈ written ks r.entries, e.2.isError = false := by
    intro e he
    obtain ⟨k, hk⟩ := snd_mem_of_mem_written he
    exact hvals _ (List.of_mem_zip hk).2
  rw [show plan.selection.positions.zip _ = _ from hzip, foldWrites_right settings _ 0 hentries,
    show grown.vals.values = _ from hgrownVals] at hslot hfailure
  let o := grown.vals.amendAt settings ((c.sub 1).beside [.array grown.keys]) plan.selection
    (.ofValue settings (.builtin .right)) (some (.array r.vals))
  have hamend : l.amend settings c (.array r.keys) (.ofValue settings (.builtin .right))
      (some (.array r.vals)) = .done ⟨grown.keys, o.slot⟩ := by
    rw [dictAmend_eq_amendAt hcallee]
    exact congrArg (Outcome.mk (⟨grown.keys, o.slot⟩ : Dict Value)) hfailure
  refine ⟨⟨grown.keys, o.slot⟩, pads, ?_, hkeys, ?_, hslot,
    ascendingHolds_appendKeys hlkeys (c.sub 0) plan.missing⟩
  · rw [Value.amended, Value.amendSlot, Value.amendBy]
    simp only [Value.amend, hamend]
    rfl
  · rw [List.length_append, List.length_append, hl.length_eq, hcount, hmissing]

end Amend

/-! ## Comparing the two -/

/-- The dictionary has the keys of `l` and, once each, the new ones of `r`. A key has the value that
`r` gives last for it, or else its value in `l`. -/
structure Dict.Upserts (e l r : Dict Value) : Prop where
  keys : Alike e.keys.values (l.keys.values ++ newKeys l.keys.values r.keys.values)
  get? : ∀ k, Alike (e.get? k) ((r.last? k).or (l.get? k))

section Upsert

variable {l r : Dict Value} {pads : List Value}

/-- Appending the new keys once and overwriting upserts. -/
theorem upserts_of_written (hl : l.Paired) (hr : r.Paired) (hlkeys : l.keys.AscendingHolds)
    {e : Dict Value} (hekeys : e.keys.AscendingHolds)
    (hkeys : Alike e.keys.values (l.keys.values ++ newKeys l.keys.values r.keys.values))
    (hlen : (l.vals.values ++ pads).length =
      (l.keys.values ++ newKeys l.keys.values r.keys.values).length)
    (hvals : Alike e.vals.values
      (overwrite (written (l.keys.values ++ newKeys l.keys.values r.keys.values) r.entries)
        (l.vals.values ++ pads))) : e.Upserts l r := by
  refine ⟨hkeys, fun k => ?_⟩
  have hany := any_append_newKeys l.keys.values r.keys.values k
  generalize hks : l.keys.values ++ newKeys l.keys.values r.keys.values = ks at *
  have hlast : r.last? k = none ↔ r.keys.values.any (·.eqv k) = false := by
    rw [← hr.map_fst_entries]
    exact lastGiven_eq_none_iff
  have hget : e.get? k = (ks.findIdx? (·.eqv k)).bind (e.vals.values[·]?) := by
    rw [Dict.get?_eq_lookup hekeys, lookup, findIdx?_eqv_congr hkeys (.refl k)]
  have hlget : l.get? k = (l.keys.values.findIdx? (·.eqv k)).bind (l.vals.values[·]?) :=
    Dict.get?_eq_lookup hlkeys k
  rw [List.any_append] at hany
  cases hp : ks.findIdx? (·.eqv k) with
  | none =>
    -- Neither side has the key.
    rw [any_eqv_of_none hp] at hany
    obtain ⟨hnotl, hnotr⟩ := Bool.or_eq_false_iff.1 hany.symm
    rw [any_eqv_eq, Option.isSome_eq_false_iff, Option.isNone_iff_eq_none] at hnotl
    rw [hget, hp, hlget, hnotl, hlast.2 hnotr]
    exact .refl none
  | some p =>
    have hlt : p < (l.vals.values ++ pads).length :=
      hlen ▸ (List.findIdx?_eq_some_iff_getElem.1 hp).1
    have hread := hvals.getElem? p
    rw [getElem?_overwrite_written hp hlt] at hread
    rw [hget, hp, Option.bind_some]
    refine hread.trans ?_
    show Alike ((r.last? k).or _) _
    cases hv : r.last? k with
    | some v => exact .refl _
    | none =>
      -- The right side does not have the key, so the left one does, at the same place.
      rw [any_eqv_of_some hp, hlast.1 hv, Bool.or_false] at hany
      obtain ⟨q, hq⟩ : ∃ q, l.keys.values.findIdx? (·.eqv k) = some q :=
        Option.isSome_iff_exists.1 ((any_eqv_eq ..).symm.trans hany.symm)
      have hpq : some p = some q := hp.symm.trans (hks ▸ findIdx?_append_of_some hq _)
      cases hpq
      have hqlt := (List.findIdx?_eq_some_iff_getElem.1 hq).1
      rw [hlget, hq, Option.none_or, Option.none_or, Option.bind_some,
        List.getElem?_append_left (hl.length_eq ▸ hqlt)]
      exact .refl _

theorem added_ne {e : Value × Value} (he : e ∈ l.added r) :
    l.keys.values.findIdx? (·.eqv e.1) = none := by
  have hnot := (List.mem_filter.1 he).2
  rwa [any_eqv_eq, Bool.not_eq_true', Option.isSome_eq_false_iff, Option.isNone_iff_eq_none] at hnot

/-- Where no new key is given twice, each is overwritten with the value that a merge appends. -/
theorem overwrite_written_append (hl : l.Paired)
    (hdistinct : Distinct ((l.added r).map (·.1))) (hcount : pads.length = (l.added r).length) :
    overwrite (written (l.keys.values ++ (l.added r).map (·.1)) r.entries) (l.vals.values ++ pads) =
      overwrite (l.combined r) l.vals.values ++ (l.added r).map (·.2) := by
  refine List.ext_getElem (by simp [hcount]) fun p hp hp' => Option.some.inj ?_
  rw [← List.getElem?_eq_getElem hp, ← List.getElem?_eq_getElem hp']
  rw [length_overwrite] at hp
  by_cases hold : p < l.vals.values.length
  · rw [getElem?_overwrite_append hl.length_eq hold,
      List.getElem?_append_left (by simpa using hold)]
    rfl
  · obtain ⟨i, rfl⟩ := Nat.exists_eq_add_of_le (Nat.le_of_not_lt hold)
    have hi : i < (l.added r).length := by
      rw [List.length_append, hcount] at hp
      omega
    have hmem := List.getElem_mem hi
    have hnot := added_ne hmem
    -- The key stands where the entry stands among the new ones.
    have hplace : (l.keys.values ++ (l.added r).map (·.1)).findIdx? (·.eqv (l.added r)[i].1) =
        some (l.vals.values.length + i) := by
      have hfirst : ((l.added r).map (·.1)).findIdx? (·.eqv (l.added r)[i].1) = some i := by
        refine List.findIdx?_eq_some_iff_getElem.2 ⟨by simpa using hi, ?_, fun j hj => ?_⟩
        · rw [List.getElem_map]
          exact eqv_refl _
        · have hapart := List.pairwise_iff_getElem.1 (List.pairwise_map.1 hdistinct) j i
            (Nat.lt_trans hj hi) hi hj
          simpa using hapart
      rw [List.findIdx?_append, hnot, hfirst, hl.length_eq, Nat.add_comm]
      rfl
    rw [getElem?_overwrite_written hplace hp, ← lastGiven_added (any_eqv_of_none hnot),
      lastGiven_of_distinct hdistinct hmem, List.getElem?_append_right (by simp)]
    simp [hi]

/-- What a merge with `:` leaves at a key. -/
theorem get?_of_merge_right (hl : l.Paired) (hr : r.Paired) (hlkeys : l.keys.AscendingHolds)
    (hrkeys : r.keys.AscendingHolds) {m : Dict Value} (hmkeys : m.keys.AscendingHolds)
    (hkeys : m.keys.values = l.keys.values ++ (l.added r).map (·.1))
    (hvals : Alike m.vals.values
      (overwrite (l.combined r) l.vals.values ++ (l.added r).map (·.2))) (k : Value) :
    Alike (m.get? k) (if (l.find? k).isSome then (r.last? k).or (l.get? k) else r.get? k) := by
  have hlen : l.keys.values.length = (overwrite (l.combined r) l.vals.values).length := by
    rw [length_overwrite, hl.length_eq]
  have hread := alike_lookup hvals m.keys.values k
  rw [← Dict.get?_eq_lookup hmkeys, hkeys] at hread
  have hfind : l.find? k = l.keys.values.findIdx? (·.eqv k) := Arr.find?_eq_findIdx? hlkeys k
  rw [hfind]
  cases hp : l.keys.values.findIdx? (·.eqv k) with
  | none =>
    rw [lookup_append_of_none hlen hp, lookup_added hr hrkeys hp] at hread
    exact hread
  | some p =>
    have hlt := (List.findIdx?_eq_some_iff_getElem.1 hp).1
    rw [lookup_append_of_some (hlen ▸ hlt) hp, combined_eq_written,
      getElem?_overwrite_written hp (hl.length_eq ▸ hlt)] at hread
    rw [Dict.get?_eq_lookup hlkeys, lookup, hp]
    exact hread

end Upsert

/-- A merge with `:` and an amend with `:` at the right keys both answer, and their answers are
equal just if the right side gives no new key twice. The amend always upserts. The merge leaves the
same values at the keys of the left side; new keys it appends as often as they are given, and a
look-up of one finds what was given for it first. -/
theorem upsert (settings : Settings) (c c' : Scope) (s t : Site) (l r : Dict Value)
    (hl : WellFormed (.dict s l : Value)) (hr : WellFormed (.dict t r : Value))
    (hlkeys : l.keys.AscendingHolds) (hrkeys : r.keys.AscendingHolds)
    (hvals : ∀ v ∈ r.vals.values, v.isError = false)
    (hkey : l.keys.values.any (·.eqv (.array r.keys)) = false) :
    let fresh := (l.added r).map (·.1)
    ∃ m e, l.merge settings c r (.builtin .right) = .ok m ∧
      (Value.dict s l).amended settings .flat c' (.array r.keys) (.builtin .right)
        (some (.array r.vals)) = .ok (.dict (c'.own s) e) ∧
      ((Value.dict t m).eqv (.dict (c'.own s) e) = true ↔ Distinct fresh) ∧
      e.Upserts l r ∧ (Distinct fresh → m.Upserts l r) ∧
      m.keys.values = l.keys.values ++ fresh ∧
      ∀ k, Alike (m.get? k)
        (if (l.find? k).isSome then (r.last? k).or (l.get? k) else r.get? k) := by
  intro fresh
  have hl : l.Paired := wellFormed_dict.1 hl
  have hr : r.Paired := wellFormed_dict.1 hr
  obtain ⟨m, hm, hmkeys, hmvals, hmasc⟩ :=
    @merge_right settings l r c hl hr hlkeys hvals
  obtain ⟨e, pads, he, hekeys, hlen, hevals, heasc⟩ :=
    @amended_right settings l r c' s hl hr hlkeys hvals hkey
  have hupserts := upserts_of_written hl hr hlkeys heasc hekeys hlen hevals
  -- Without repeated new keys, the two leave the same keys and the same values.
  have hsame (hdistinct : Distinct fresh) :
      Alike m.keys.values e.keys.values ∧ Alike m.vals.values e.vals.values := by
    have hnew : newKeys l.keys.values r.keys.values = fresh := by
      rw [newKeys_eq_newKeys_added hr]
      exact newKeys_eq_self hdistinct
    rw [hnew] at hekeys hlen hevals
    have hcount : pads.length = (l.added r).length := by
      have hlen := hlen
      rw [List.length_append, List.length_append, hl.length_eq, List.length_map] at hlen
      omega
    rw [overwrite_written_append hl hdistinct hcount] at hevals
    exact ⟨hmkeys ▸ hekeys.symm, hmvals.trans hevals.symm⟩
  refine ⟨m, e, hm, he, ⟨fun heq => ?_, fun hdistinct => ?_⟩, hupserts, fun hdistinct => ?_, hmkeys,
    get?_of_merge_right hl hr hlkeys hrkeys hmasc hmkeys hmvals⟩
  · -- Equal dictionaries have equally many keys.
    have hcount : m.keys.values.length = e.keys.values.length :=
      (Arr.eqv_iff.1 (dictEqv_iff.1 heq).1).1
    rw [hekeys.length_eq, hmkeys, List.length_append, List.length_append,
      newKeys_eq_newKeys_added hr] at hcount
    exact length_newKeys_eq_iff.1 (Nat.add_left_cancel hcount).symm
  · obtain ⟨hk, hv⟩ := hsame hdistinct
    exact dictEqv_of_values hk hv
  · obtain ⟨hk, hv⟩ := hsame hdistinct
    refine ⟨hk.trans hupserts.keys, fun k => ?_⟩
    have hget : Alike (m.get? k) (e.get? k) := by
      rw [Dict.get?_eq_lookup hmasc, Dict.get?_eq_lookup heasc, lookup,
        findIdx?_eqv_congr hk (.refl k)]
      exact alike_lookup hv _ k
    exact hget.trans (hupserts.get? k)

/-- A key of the left side is given twice, and the new key once. -/
theorem upsert_repeated_old_key :
    let l : Dict Value := ⟨.strs (.ofList ⟨[1]⟩ ["a", "b"]), .ints (.ofList ⟨[2]⟩ [1, 2])⟩
    let r : Dict Value :=
      ⟨.strs (.ofList ⟨[3]⟩ ["b", "c", "b"]), .ints (.ofList ⟨[4]⟩ [10, 20, 30])⟩
    (WellFormed (.dict ⟨[5]⟩ l : Value) ∧ WellFormed (.dict ⟨[6]⟩ r : Value) ∧
        l.keys.AscendingHolds ∧ r.keys.AscendingHolds ∧
        (∀ v ∈ r.vals.values, v.isError = false) ∧
        l.keys.values.any (·.eqv (.array r.keys)) = false) ∧
      ∃ m e, l.merge {} ⟨[], ⟨[0]⟩⟩ r (.builtin .right) = .ok m ∧
        (Value.dict ⟨[5]⟩ l).amended {} .flat ⟨[], ⟨[7]⟩⟩ (.array r.keys) (.builtin .right)
          (some (.array r.vals)) = .ok (.dict ⟨[5]⟩ e) ∧
        (Value.dict ⟨[6]⟩ m).eqv (.dict ⟨[5]⟩ e) = true ∧ e.Upserts l r ∧ m.Upserts l r := by
  intro l r
  have hlkeys : l.keys.AscendingHolds := ascendingHolds_of_flags rfl
  have hrkeys : r.keys.AscendingHolds := ascendingHolds_of_flags rfl
  have hdistinct : Distinct ((l.added r).map (·.1)) := List.pairwise_singleton ..
  obtain ⟨m, e, hm, he, hiff, hupserts, hmerge, -, -⟩ :=
    upsert {} ⟨[], ⟨[0]⟩⟩ ⟨[], ⟨[7]⟩⟩ ⟨[5]⟩ ⟨[6]⟩ l r (by decide) (by decide) hlkeys hrkeys
      (by decide) rfl
  exact ⟨⟨by decide, by decide, hlkeys, hrkeys, by decide, rfl⟩, m, e, hm, he, hiff.2 hdistinct,
    hupserts, hmerge hdistinct⟩

/-- The new key is given twice. The merge appends it twice, and a look-up finds the first value. -/
theorem merge_repeated_new_key :
    let l : Dict Value := ⟨.strs (.ofList ⟨[1]⟩ ["a"]), .ints (.ofList ⟨[2]⟩ [1])⟩
    let r : Dict Value := ⟨.strs (.ofList ⟨[3]⟩ ["b", "b"]), .ints (.ofList ⟨[4]⟩ [2, 3])⟩
    (l.keys.AscendingHolds ∧ r.keys.AscendingHolds ∧ (∀ v ∈ r.vals.values, v.isError = false) ∧
        l.keys.values.any (·.eqv (.array r.keys)) = false) ∧
      ∃ m e, l.merge {} ⟨[], ⟨[0]⟩⟩ r (.builtin .right) = .ok m ∧
        (Value.dict ⟨[5]⟩ l).amended {} .flat ⟨[], ⟨[7]⟩⟩ (.array r.keys) (.builtin .right)
          (some (.array r.vals)) = .ok (.dict ⟨[5]⟩ e) ∧
        (Value.dict ⟨[6]⟩ m).eqv (.dict ⟨[5]⟩ e) = false ∧
        m.get? (.str "b") = some (.int 2) ∧ e.get? (.str "b") = some (.int 3) := by
  intro l r
  refine ⟨⟨ascendingHolds_of_flags rfl, ascendingHolds_of_flags rfl, by decide, rfl⟩, _, _, rfl,
    rfl, ?_, ?_, ?_⟩
  · decide +kernel
  · rfl
  · rfl

end SharedArrays
