import SharedArrays.Proofs.Descent
import SharedArrays.Proofs.FlatFold
import SharedArrays.Proofs.Lookup

/-!
# Where new keys go

An amend of a dictionary works out the positions of keys before it appends the ones that are
missing. This file says in terms of lists which keys are appended, and that each key then stands
where it was said to stand.

## Main definitions

* `newKeys` — the wanted keys that are not there yet, each once
* `Named` — what an index names in a dictionary

## Main results

* `pairwise_append_newKeys` — new keys differ from the old ones and from each other
* `placeKeys_eq` — keys are placed where they first occur among the old and the new keys
* `placement_named` — the positions that an amend of a dictionary works on
* `alike_keys_appendKeys` — appended keys stand behind the old ones
-/

namespace SharedArrays

/-! ## New keys -/

/-- The wanted keys that are equal to none of the old ones, each once, in the order in which they
first occur. -/
def newKeys (old wanted : List Value) : List Value :=
  (wanted.filter fun k => !old.any (·.eqv k)).eraseDups

theorem newKeys_nil (old : List Value) : newKeys old [] = [] := rfl

theorem newKeys_cons_of_mem {old : List Value} {k : Value} (h : old.any (·.eqv k) = true)
    (ks : List Value) : newKeys old (k :: ks) = newKeys old ks := by
  rw [newKeys, List.filter_cons_of_neg (by simp [h])]
  rfl

/-- A key that is not there yet counts as an old one for the keys behind it. -/
theorem newKeys_cons_of_not_mem {old : List Value} {k : Value} (h : old.any (·.eqv k) = false)
    (ks : List Value) : newKeys old (k :: ks) = k :: newKeys (old ++ [k]) ks := by
  rw [newKeys, List.filter_cons_of_pos (by simp [h]), List.eraseDups_cons, List.filter_filter]
  have htest (l : Value) :
      (!l == k && !old.any (·.eqv l)) = !(old ++ [k]).any (·.eqv l) := by
    show (!l.eqv k && !old.any (·.eqv l)) = _
    rw [List.any_append, List.any_cons, List.any_nil, Bool.or_false, eqv_comm l k, Bool.not_or,
      Bool.and_comm]
  simp only [htest]
  rfl

/-- No two of the keys are equal. -/
def Distinct (ks : List Value) : Prop := ks.Pairwise fun k l => k.eqv l = false

theorem distinct_concat {ks : List Value} {k : Value} (hks : Distinct ks)
    (hk : ks.any (·.eqv k) = false) : Distinct (ks ++ [k]) := by
  refine List.pairwise_append.2 ⟨hks, List.pairwise_singleton .., fun l hl k' hk' => ?_⟩
  cases List.mem_singleton.1 hk'
  exact Bool.not_eq_true _ ▸ List.any_eq_false.1 hk l hl

/-- New keys differ from the old ones and from each other. -/
theorem pairwise_append_newKeys {old : List Value} (h : Distinct old) (wanted : List Value) :
    Distinct (old ++ newKeys old wanted) := by
  -- Each wanted key is an old one or becomes one, and the old keys stay distinct.
  induction wanted generalizing old with
  | nil => rwa [newKeys_nil, List.append_nil]
  | cons k ks ih =>
    cases hk : old.any (·.eqv k) with
    | true =>
      rw [newKeys_cons_of_mem hk]
      exact ih h
    | false =>
      rw [newKeys_cons_of_not_mem hk]
      simpa using ih (distinct_concat h hk)

theorem distinct_congr {ks ls : List Value} (h : Alike ks ls) (hks : Distinct ks) :
    Distinct ls := by
  have hbare (us : List Value) : Distinct us ↔ Distinct (us.map Value.bare) := by
    simp only [Distinct, List.pairwise_map, eqv_bare]
  have h : ks.map Value.bare = ls.map Value.bare := h
  rw [hbare ls, ← h]
  exact (hbare ks).1 hks

/-! ## Positions -/

theorem findIdx?_append_of_some {α : Type} {p : α → Bool} {us : List α} {i : Nat}
    (h : us.findIdx? p = some i) (vs : List α) : (us ++ vs).findIdx? p = some i := by
  rw [List.findIdx?_append, h]
  rfl

theorem any_eqv_eq (ks : List Value) (k : Value) :
    ks.any (·.eqv k) = (ks.findIdx? (·.eqv k)).isSome := List.findIdx?_isSome.symm

theorem any_eqv_of_some {ks : List Value} {k : Value} {p : Nat}
    (h : ks.findIdx? (·.eqv k) = some p) : ks.any (·.eqv k) = true :=
  (any_eqv_eq ks k).trans (congrArg Option.isSome h)

theorem any_eqv_of_none {ks : List Value} {k : Value} (h : ks.findIdx? (·.eqv k) = none) :
    ks.any (·.eqv k) = false :=
  (any_eqv_eq ks k).trans (congrArg Option.isSome h)

/-- A missing key takes the position at which it first occurs among the old keys and the keys
known to be missing. -/
theorem newPosition_eq {old : List Value} {k : Value} (hk : old.findIdx? (·.eqv k) = none)
    (missing : List Value) :
    (newPosition old.length missing k).2 = missing ++ newKeys (old ++ missing) [k] ∧
      (old ++ (newPosition old.length missing k).2).findIdx? (·.eqv k) =
        some (newPosition old.length missing k).1 := by
  have hsearch (ks : List Value) : (old ++ ks).findIdx? (·.eqv k) =
      (ks.findIdx? (·.eqv k)).map (· + old.length) := by
    rw [List.findIdx?_append, hk, Option.none_or]
  unfold newPosition
  cases hi : missing.findIdx? (·.eqv k) with
  | some i =>
    have hmem : (old ++ missing).any (·.eqv k) = true :=
      any_eqv_of_some ((hsearch missing).trans (congrArg _ hi))
    rw [newKeys_cons_of_mem hmem, newKeys_nil, List.append_nil]
    refine ⟨rfl, ?_⟩
    rw [hsearch, hi]
    exact congrArg some (Nat.add_comm ..)
  | none =>
    have hnot : (old ++ missing).any (·.eqv k) = false :=
      any_eqv_of_none ((hsearch missing).trans (congrArg _ hi))
    rw [newKeys_cons_of_not_mem hnot, newKeys_nil]
    refine ⟨rfl, ?_⟩
    have hself : [k].findIdx? (·.eqv k) = some 0 := by
      rw [List.findIdx?_cons, if_pos (eqv_refl k)]
    rw [hsearch, List.findIdx?_append, hi, hself]
    exact congrArg some
      (show 0 + missing.length + old.length = old.length + missing.length by omega)

theorem newKeys_cons (old : List Value) (k : Value) (ks : List Value) :
    newKeys old (k :: ks) = newKeys old [k] ++ newKeys (old ++ newKeys old [k]) ks := by
  cases hk : old.any (·.eqv k) with
  | true => rw [newKeys_cons_of_mem hk, newKeys_cons_of_mem hk, newKeys_nil, List.append_nil,
      List.nil_append]
  | false => rw [newKeys_cons_of_not_mem hk, newKeys_cons_of_not_mem hk, newKeys_nil,
      List.singleton_append]

/-- Keys are placed where they first occur among the old and the new keys. The induction is on the
wanted keys; each one that is missing joins those known to be missing. -/
theorem placeKeys_eq (old ks missing : List Value) :
    let placed := placeKeys old.length missing (ks.zip (ks.map fun k => old.findIdx? (·.eqv k)))
    placed.2 = missing ++ newKeys (old ++ missing) ks ∧
      placed.1.map some = ks.map fun k => (old ++ placed.2).findIdx? (·.eqv k) := by
  induction ks generalizing missing with
  | nil => exact ⟨by rw [newKeys_nil, List.append_nil]; rfl, rfl⟩
  | cons k ks ih =>
    simp only [List.map_cons, List.zip_cons_cons]
    cases hk : old.findIdx? (·.eqv k) with
    | some p =>
      have hmem : (old ++ missing).any (·.eqv k) = true :=
        any_eqv_of_some (findIdx?_append_of_some hk missing)
      obtain ⟨hmissing, hplaces⟩ := ih missing
      simp only [placeKeys, List.map_cons]
      refine ⟨?_, ?_⟩
      · rw [hmissing, newKeys_cons_of_mem hmem]
      · rw [hplaces, findIdx?_append_of_some hk]
    | none =>
      obtain ⟨hnew, hplace⟩ := newPosition_eq hk missing
      obtain ⟨hmissing, hplaces⟩ := ih (newPosition old.length missing k).2
      simp only [placeKeys, List.map_cons]
      refine ⟨?_, ?_⟩
      · rw [hmissing, newKeys_cons (old ++ missing) k ks, hnew]
        simp only [List.append_assoc]
      · rw [hplaces, hmissing, ← List.append_assoc, findIdx?_append_of_some hplace]

/-! ## What an index names -/

/-- What an index names in a dictionary. -/
inductive Named where
  /-- every entry -/
  | all
  | one (k : Value)
  | many (ks : List Value)

/-- What an index names. An array names its elements, unless it is itself a key of a list of
keys. -/
def Dict.named (d : Dict Value) : Value → Named
  | .nil => .all
  | .array a =>
    if d.keys.kind = .list ∧ d.keys.values.any (·.eqv (.array a)) then .one (.array a)
    else .many a.values
  | k => .one k

namespace Named

/-- The keys that are named but are not there yet. -/
def fresh (old : List Value) : Named → List Value
  | all => []
  | one k => newKeys old [k]
  | many ks => newKeys old ks

theorem distinct_append_fresh {old : List Value} (h : Distinct old) (named : Named) :
    Distinct (old ++ named.fresh old) := by
  cases named with
  | all => rwa [fresh, List.append_nil]
  | one k => exact pairwise_append_newKeys h [k]
  | many ks => exact pairwise_append_newKeys h ks

/-- The first positions of what is named. -/
def places (keys : List Value) : Named → List (Option Nat)
  | all => (List.range keys.length).map some
  | one k => [keys.findIdx? (·.eqv k)]
  | many ks => ks.map fun k => keys.findIdx? (·.eqv k)

/-- The right operands of what is named, in a dictionary of `count` entries. A single key takes
all of `z`. -/
def operands (count : Nat) (z : Option Value) : Named → Result (List (Option Value))
  | all => spread count z
  | one _ => .ok [z]
  | many ks => spread ks.length z

end Named

/-- The plan works at the places of what is named, and appends the keys that are not there yet. -/
structure Placement.Follows (plan : Placement) (old : List Value) (named : Named) : Prop where
  missing : plan.missing = named.fresh old
  places : plan.selection.positions.map some = named.places (old ++ named.fresh old)
  operands : ∀ z, WellFormed z →
    (Operands.ofSelection z plan.selection).map
      (Operands.toList plan.selection.positions.length) = named.operands old.length z

section Placement

variable {d : Dict Value} (hd : WellFormed d.keys) (hkeys : d.keys.AscendingHolds)
include hd hkeys

theorem placeOne_follows (k : Value) : (d.placeOne k).Follows d.keys.values (.one k) := by
  have hoperands (p : Nat) (z : Option Value) :
      (Operands.ofSelection z (.one p)).map (Operands.toList 1) = .ok [z] := by
    cases z <;> rfl
  have hfind : d.find? k = d.keys.values.findIdx? (·.eqv k) := Arr.find?_eq_findIdx? hkeys k
  unfold Dict.placeOne
  rw [hfind]
  cases hk : d.keys.values.findIdx? (·.eqv k) with
  | some p =>
    have hfresh : (Named.one k).fresh d.keys.values = [] :=
      newKeys_cons_of_mem (any_eqv_of_some hk) []
    refine ⟨hfresh.symm, ?_, fun z _ => hoperands p z⟩
    rw [hfresh, List.append_nil]
    exact congrArg (fun q => [q]) hk.symm
  | none =>
    obtain ⟨hnew, hplace⟩ := newPosition_eq hk []
    have hlen : d.keys.values.length = d.len := hd.length_values
    rw [List.append_nil, List.nil_append] at hnew
    have hfresh : (Named.one k).fresh d.keys.values = [k] := hnew.symm
    refine ⟨hfresh.symm, ?_, fun z _ => hoperands _ z⟩
    rw [hfresh]
    refine congrArg (fun q => [q]) (Eq.trans ?_ hplace.symm)
    exact congrArg some hlen.symm

theorem placement_many_follows (settings : Settings) (a : Arr Value) :
    let placed :=
      placeKeys d.len [] (a.values.zip (d.positions a settings.indexThreshold))
    Placement.Follows ⟨.many placed.1, placed.2⟩ d.keys.values (.many a.values) := by
  intro placed
  have hlen : d.keys.values.length = d.len := hd.length_values
  have hfound : d.positions a settings.indexThreshold =
      a.values.map fun k => d.keys.values.findIdx? (·.eqv k) :=
    (Dict.positions_eq hkeys a _).trans
      (List.map_congr_left fun k _ => Arr.find?_eq_findIdx? hkeys k)
  obtain ⟨hmissing, hplaces⟩ := placeKeys_eq d.keys.values a.values []
  have hplaced : placed = placeKeys d.keys.values.length []
      (a.values.zip (a.values.map fun k => d.keys.values.findIdx? (·.eqv k))) := by
    rw [hlen, ← hfound]
  rw [← hplaced, List.append_nil, List.nil_append] at hmissing
  rw [← hplaced, hmissing] at hplaces
  refine ⟨hmissing, hplaces, fun z hz => ?_⟩
  have hcount : placed.1.length = a.values.length := by
    simpa using congrArg List.length hplaces
  exact (congrArg (fun n => (Operands.forMany n z).map (Operands.toList n)) hcount).trans
    (spread_eq _ hz).symm

/-- An amend of a dictionary works at the first places of the keys that its index names, once the
missing ones are appended. -/
theorem placement_named (settings : Settings) (y : Value) :
    (d.placement settings y).Follows d.keys.values (d.named y) := by
  have hlen : d.keys.values.length = d.len := hd.length_values
  cases y with
  | nil =>
    -- Every position is named, and nothing is missing.
    refine ⟨rfl, ?_, fun z hz => ?_⟩
    · show (List.range d.len).map some =
        (List.range (d.keys.values ++ []).length).map some
      rw [List.append_nil, hlen]
    · show (Operands.forMany _ z).map (Operands.toList (List.range d.len).length) = spread _ z
      rw [List.length_range, hlen, spread_eq _ hz]
  | array a =>
    have hfind := Arr.find?_eq_findIdx? hkeys (.array a)
    have hone := placeOne_follows hd hkeys (.array a)
    have hmany := placement_many_follows hd hkeys settings a
    simp only [Dict.placement, Dict.named, any_eqv_eq, ← hfind]
    -- Only in a list of keys can the array itself be a key.
    by_cases hkind : d.keys.kind = .list
    · simp only [hkind, if_true, true_and]
      cases hp : d.find? (.array a) with
      | some p =>
        have hp' : d.keys.find? (.array a) = some p := hp
        simp only [Dict.placeOne, hp] at hone
        rw [hp']
        exact hone
      | none =>
        have hp' : d.keys.find? (.array a) = none := hp
        rw [hp']
        exact hmany
    · simp only [hkind, if_false, false_and]
      exact hmany
  | _ => exact placeOne_follows hd hkeys _

end Placement

/-! ## Appending -/

/-- Appended keys stand behind the old ones. -/
theorem alike_keys_appendKeys (c : Scope) (d : Dict Value) (ks : List Value) :
    Alike (d.appendKeys c ks).keys.values (d.keys.values ++ ks) := by
  rw [Dict.appendKeys_eq]
  -- The keys are numbered for their sites only.
  generalize 0 = n
  induction ks generalizing n d with
  | nil =>
    rw [List.append_nil]
    exact .refl _
  | cons k ks ih =>
    refine (ih (d.appendKey (c.sub n) k) (n + 1)).trans ?_
    have hkey : Alike (d.appendKey (c.sub n) k).keys.values (d.keys.values ++ [k]) := by
      rw [← Arr.values_push (((c.sub n).sub 0).beside [.array d.vals])]
      exact alike_values_canonical _ _
    rw [List.append_cons]
    exact hkey.append (.refl ks)

end SharedArrays
