import SharedArrays.Proofs.Keys

/-!
# An amend of a dictionary is a fold over its values

An amend of a dictionary first appends the keys that its index names and that are missing. Then it
goes through what the index names, and replaces the value at the place of each key. What it leaves
are the keys that it started from with the new ones behind them, and the values that a fold over
the padded values leaves, also if a call of the function fails on the way.

The function may be any function. Its calls make their objects at sites of their own, so the fold
has one call for each place.

## Main results

* `amendSlot_keyed` — an amend of a dictionary appends keys and folds over the values
-/

namespace SharedArrays

/-- Operands that fit what an index names fit the positions of the amend. -/
theorem Placement.Follows.exists_operands {plan : Placement} {old : List Value} {named : Named}
    (h : plan.Follows old named) {z : Option Value} (hz : WellFormed z)
    {zs : List (Option Value)} (hzs : named.operands old.length z = .ok zs) :
    ∃ operands, Operands.ofSelection z plan.selection = .ok operands ∧
      operands.toList plan.selection.positions.length = zs := by
  have h := h.operands z hz
  rw [hzs] at h
  cases hop : Operands.ofSelection z plan.selection with
  | error e =>
    rw [hop] at h
    cases h
  | ok operands =>
    rw [hop] at h
    exact ⟨operands, rfl, Except.ok.inj h⟩

/-- An amend of a dictionary that is not rejected appends the missing keys, and then amends the
values at the positions of its plan. -/
theorem dictAmend_eq_amendAt {settings : Settings} {c : Scope} {d : Dict Value} {y : Value}
    {f : Callee} {z : Option Value} {operands : Operands}
    (hop : f.operands z (d.placement settings y).selection = .ok operands) :
    let grown := d.appendKeys (c.sub 0) (d.placement settings y).missing
    d.amend settings c y f z =
      (grown.vals.amendAt settings ((c.sub 1).beside [.array grown.keys])
        (d.placement settings y).selection f z).map (⟨grown.keys, ·⟩) := by
  simp only [Dict.amend, hop]

/-- An amend of a dictionary that is not rejected appends the keys that are named and missing, and
folds over the padded values, at the places where what is named first occurs among the keys. The
keys stay, whether or not a call of the function fails. -/
theorem amendSlot_keyed (settings : Settings) (c : Scope) (s : Site) (d : Dict Value) (y f : Value)
    (z : Option Value) (zs : List (Option Value)) (hd : WellFormed (.dict s d : Value))
    (hy : WellFormed y) (hf : WellFormed f) (hz : WellFormed z) (hkeys : d.keys.AscendingHolds)
    (hfun : f.isFunction = true) (hzs : (d.named y).operands d.len z = .ok zs) :
    let o := (Value.dict s d).amendSlot settings .flat c y f z
    let fresh := (d.named y).fresh d.keys.values
    ∃ (e : Dict Value) (ps : List Nat) (pads : List Value),
      let r := foldWrites (fun k => f.apply settings ((c.site.sub 1).sub (k + 1))) 0 (ps.zip zs)
        (d.vals.values ++ pads)
      o.slot = .dict (c.own s) e ∧ Alike e.keys.values (d.keys.values ++ fresh) ∧
        ps.map some = (d.named y).places (d.keys.values ++ fresh) ∧
        pads.length = fresh.length ∧ (∀ pad ∈ pads, Alike pad (d.vals.padding s)) ∧
        Alike e.vals.values r.slot ∧
        o.failure = r.failure.map (·.during (amendText "@" f z.isSome)) ∧
        (Distinct d.keys.values → Distinct e.keys.values) ∧ e.keys.len = e.vals.len := by
  intro o fresh
  have hpaired : d.Paired := wellFormed_dict.1 hd
  have hlength : d.keys.values.length = d.len := hpaired.2.1.length_values
  have hplan := placement_named hpaired.2.1 hkeys settings y
  obtain ⟨operands, hop, rfl⟩ := hplan.exists_operands hz (hlength ▸ hzs)
  have hcallee : (Callee.ofValue settings f).operands z (d.placement settings y).selection =
      .ok operands := by rw [operands_ofValue, if_pos hfun, hop]
  -- The keys are appended, and the values are amended with room for them.
  let grown := d.appendKeys (c.sub 0) (d.placement settings y).missing
  have hwfmissing := everywhere_missing settings d hy
  have hgrown : grown.Paired := paired_appendKeys hpaired hwfmissing
  have hlen : grown.vals.len = d.len + (d.placement settings y).missing.length :=
    hgrown.1.symm.trans (len_appendKeys hpaired hwfmissing)
  have hlt := placement_lt settings hpaired.2.1 y
  rw [← hlen] at hlt
  obtain ⟨⟨hslot, -⟩, hfailure, -⟩ := amendAt_eq_foldWrites settings f
    ((c.sub 1).beside [.array grown.keys]) hgrown.2.2 hz hlt hcallee
  obtain ⟨pads, hvals, hcount, hpads⟩ := exists_pads s (c.sub 0) d (d.placement settings y).missing
  have hafter : Alike grown.keys.values (d.keys.values ++ fresh) := by
    rw [← show _ = fresh from hplan.missing]
    exact alike_keys_appendKeys (c.sub 0) d _
  have hleaves : (d.amend settings c y (.ofValue settings f) z).Leaves Dict.Paired :=
    leaves_dictAmend (safe_ofValue hf) hpaired hy hz
  have hamend := dictAmend_eq_amendAt (c := c) hcallee
  have ho : o = ⟨.dict (c.own s) (d.amend settings c y (.ofValue settings f) z).slot,
      (d.amend settings c y (.ofValue settings f) z).failure.map
        (·.during (amendText "@" f z.isSome))⟩ := rfl
  rw [hvals] at hslot hfailure
  refine ⟨(d.amend settings c y (.ofValue settings f) z).slot,
    (d.placement settings y).selection.positions, pads, rfl, ?_, hplan.places,
    hcount.trans (congrArg _ hplan.missing), hpads, ?_, ?_, fun hdistinct => ?_, hleaves.1.1⟩
  · rw [hamend]
    exact hafter
  · rw [hamend]
    exact hslot
  · rw [ho, hamend]
    exact congrArg (Option.map (·.during (amendText "@" f z.isSome))) hfailure
  · rw [hamend]
    exact distinct_congr hafter.symm (Named.distinct_append_fresh hdistinct _)

/-- The key that is missing is named twice and appended once. The second call fails, and what was
appended and written before stays. -/
theorem amendSlot_keyed_stops :
    let d : Dict Value := ⟨.strs (.ofList ⟨[2]⟩ ["a"]), .ints (.ofList ⟨[3]⟩ [1])⟩
    let y : Value := .array (.strs (.ofList ⟨[4]⟩ ["z", "a", "z"]))
    let f : Value := .builtin .add
    let z : Option Value := some (.array (.list (.ofList ⟨[5]⟩ [.int 5, .str "s", .int 2])))
    let zs : List (Option Value) := [some (.int 5), some (.str "s"), some (.int 2)]
    let o := (Value.dict ⟨[1]⟩ d).amendSlot {} .flat ⟨[], ⟨[0]⟩⟩ y f z
    (WellFormed (.dict ⟨[1]⟩ d : Value) ∧ WellFormed y ∧ WellFormed f ∧ WellFormed z ∧
        d.keys.AscendingHolds ∧ f.isFunction = true ∧
        (d.named y).operands d.len z = .ok zs ∧ Distinct d.keys.values) ∧
      o.failure ≠ none ∧
      ∃ e, o.slot = .dict ⟨[1]⟩ e ∧ Alike e.keys.values [.str "a", .str "z"] ∧
        Alike e.vals.values [.int 1, .int 5] ∧ Distinct e.keys.values := by
  intro d y f z zs o
  have hkeys : d.keys.AscendingHolds := fun _ => by decide
  have hdistinct : Distinct d.keys.values := List.pairwise_singleton ..
  obtain ⟨e, ps, pads, hslot, hafter, hplaces, hcount, hpads, hvals, hfailure, hdistinct', -⟩ :=
    amendSlot_keyed {} ⟨[], ⟨[0]⟩⟩ ⟨[1]⟩ d y f z zs (by decide) (by decide) (by decide) (by decide)
      hkeys rfl rfl
  have hps : ps = [1, 0, 1] :=
    List.map_inj_right (fun _ _ => Option.some.inj) |>.1 (hplaces.trans rfl)
  have hpad : pads = [.int 0] := by
    obtain ⟨pad, rfl⟩ := List.length_eq_one_iff.1 hcount
    have halike := hpads pad (List.mem_singleton_self pad)
    rw [halike.symm.eq_of_isLeaf rfl]
    rfl
  subst hps hpad
  refine ⟨⟨by decide, by decide, by decide, by decide, hkeys, rfl, rfl, hdistinct⟩, ?_,
    e, hslot, hafter, hvals, hdistinct' hdistinct⟩
  rw [hfailure]
  exact Option.some_ne_none _

end SharedArrays
