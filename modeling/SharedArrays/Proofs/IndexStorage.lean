import SharedArrays.Proofs.Renaming.Sites
import SharedArrays.Proofs.Keyed
import SharedArrays.Proofs.Places

/-!
# How an index vector is stored

An index that is stored as integers or as truth values is resolved as a whole, and one run of steps
goes through its positions. If the same elements are stored as a list, each of them is an amend of
its own, which checks its index and its function, and restores canonical storage. The two leave the
same elements: each run is a fold over the elements of the array, and the folds differ only in where
the calls make their objects.

A list without elements is an exception. No amend is made for it, so nothing looks at the function,
while an empty vector rejects what cannot be called.

## Main definitions

* `Site.toTurns` — moves what the calls of one amend make to where amends in turn make it
* `SameButNew` — the same elements, but for the names of new objects

## Main results

* `foldWrites_rename`, `foldWrites_toTurns` — a fold under other names
* `amendInTurn_eq_foldWrites` — amends in turn at single positions are a fold
* `amended_list_iff_vector` — an amend at a list and at a vector with the same elements
-/

namespace SharedArrays

/-! ## Where the calls make their objects -/

namespace Site

/-- Below the site of an amend, moves the `k`-th call of one run of steps to the only call of the
`k`-th of several amends. -/
def inTurn : List Nat → List Nat
  | [] => []
  | 0 :: way => 0 :: 0 :: way
  | (k + 1) :: way => k :: 1 :: way

theorem inTurn_injective : Function.Injective inTurn := by
  intro p q h
  rcases p with _ | ⟨_ | j, p⟩ <;> rcases q with _ | ⟨_ | k, q⟩ <;> cases h <;> rfl

/-- Moves what the calls of an amend at `s` make to where amends in turn at `s'` make it. To keep
names different, what lies below `s'` already makes room. -/
def toTurns (s s' t : Site) : Site :=
  if s.Covers t then s'.follow (inTurn (s.wayTo t))
  else if s'.Covers t then s'.follow (0 :: 2 :: s'.wayTo t)
  else t

section ToTurns

variable (s s' : Site)

theorem toTurns_follow (way : List Nat) :
    toTurns s s' (s.follow way) = s'.follow (inTurn way) := by
  rw [toTurns, if_pos (covers_iff.2 ⟨way, rfl⟩), wayTo_follow]

theorem toTurns_of_not_covers {t : Site} (h : ¬s.Covers t) (h' : ¬s'.Covers t) :
    toTurns s s' t = t := by
  rw [toTurns, if_neg h, if_neg h']

theorem toTurns_injective : Function.Injective (toTurns s s') := by
  -- What is moved goes below `s'`, and there the two kinds stay apart.
  have hcases (t : Site) : (∃ way, t = s.follow way ∧ toTurns s s' t = s'.follow (inTurn way)) ∨
      (∃ way, t = s'.follow way ∧ toTurns s s' t = s'.follow (0 :: 2 :: way)) ∨
      ¬s'.Covers t ∧ toTurns s s' t = t := by
    by_cases h : s.Covers t
    · obtain ⟨way, rfl⟩ := covers_iff.1 h
      exact .inl ⟨way, rfl, toTurns_follow s s' way⟩
    by_cases h' : s'.Covers t
    · obtain ⟨way, rfl⟩ := covers_iff.1 h'
      exact .inr (.inl ⟨way, rfl, by rw [toTurns, if_neg h, if_pos h', wayTo_follow]⟩)
    · exact .inr (.inr ⟨h', toTurns_of_not_covers s s' h h'⟩)
  have hroom (p q : List Nat) : inTurn p ≠ 0 :: 2 :: q := by
    rcases p with _ | ⟨_ | k, p⟩ <;> exact nofun
  intro t u h
  rcases hcases t with ⟨p, rfl, hp⟩ | ⟨p, rfl, hp⟩ | ⟨ht, hp⟩ <;>
    rcases hcases u with ⟨q, rfl, hq⟩ | ⟨q, rfl, hq⟩ | ⟨hu, hq⟩ <;>
    rw [hp, hq] at h
  · rw [inTurn_injective (follow_inj.1 h)]
  · exact absurd (follow_inj.1 h) (hroom p q)
  · exact absurd (covers_iff.2 ⟨_, h.symm⟩) hu
  · exact absurd (follow_inj.1 h).symm (hroom q p)
  · cases follow_inj.1 h
    rfl
  · exact absurd (covers_iff.2 ⟨_, h.symm⟩) hu
  · exact absurd (covers_iff.2 ⟨_, h⟩) ht
  · exact absurd (covers_iff.2 ⟨_, h⟩) ht
  · exact h

theorem toTurns_sub (k : Nat) : toTurns s s' (s.sub (k + 1)) = (s'.sub k).sub 1 :=
  toTurns_follow s s' [k + 1]

theorem carries_toTurns (k : Nat) : Carries (toTurns s s') (s.sub k) := by
  intro t ht j
  obtain ⟨way, rfl⟩ := covers_iff.1 ht
  have hbelow (way : List Nat) : (s.sub k).follow way = s.follow (k :: way) := by
    simp [follow, sub]
  have hturn (way : List Nat) : inTurn (k :: (way ++ [j])) = inTurn (k :: way) ++ [j] := by
    cases k <;> rfl
  rw [sub_follow, hbelow, hbelow, toTurns_follow, toTurns_follow, hturn, ← sub_follow]

end ToTurns

end Site

/-! ## Folds under other names -/

theorem foldWrites_rename {ρ : Site → Site} {call call' : Nat → List Value → Result Value}
    (hcall : ∀ k args, call' k (rename ρ args) = rename ρ (call k args))
    {es : List (Nat × Option Value)} (hes : ∀ e ∈ es, rename ρ e.2 = e.2) (k : Nat)
    (vs : List Value) :
    foldWrites call' k es (rename ρ vs) = rename ρ (foldWrites call k es vs) := by
  induction es generalizing k vs with
  | nil => rfl
  | cons e es ih =>
    obtain ⟨i, z⟩ := e
    obtain ⟨hz, hes⟩ := List.forall_mem_cons.1 hes
    have hargs : (rename ρ vs)[i]?.getD .nil :: z.toList =
        rename ρ (vs[i]?.getD .nil :: z.toList) := by
      have hz : rename ρ z = z := hz
      rw [rename_cons, rename_list_eq_map, List.getElem?_map]
      congr 1
      · cases vs[i]? <;> rfl
      · cases z with
        | none => rfl
        | some z => exact congrArg (fun z => [z]) (Option.some.inj hz).symm
    simp only [foldWrites, hargs, hcall k]
    cases call k (vs[i]?.getD .nil :: z.toList) with
    | error e => rfl
    | ok v =>
      have hset : (rename ρ vs).set i (rename ρ v) = rename ρ (vs.set i v) := List.map_set.symm
      simp only [rename_ok, hset]
      exact ih hes (k + 1) _

/-! ## Amends in turn at single positions -/

section Turns

variable (settings : Settings) {f : Value} (c : Scope) {a : Arr Value}

/-- The amend of arrays at a single position. -/
abbrev amendAtOne (settings : Settings) (f : Value) (i : Int64) : ArrUpdate :=
  amendFn settings (.ofValue settings f) (.int i)

/-- An amend at a single position fails as its only call does, or writes the answer. -/
theorem amendAtOne_follows (hfun : f.isFunction = true) {i : Int64} {p : Nat} {z : Option Value}
    (ha : WellFormed a) (hz : WellFormed z) (hp : position a.len i = .ok p) :
    let o := amendAtOne settings f i c a z
    let r := f.apply settings (c.site.sub 1) (a.values[p]?.getD .nil :: z.toList)
    (∀ e, r = .error e → o.failure = some e) ∧
      ∀ v, r = .ok v → o.failure = none ∧ o.slot.values = a.values.set p v := by
  intro o r
  have hlt : p < a.values.length := ha.length_values.symm ▸ position_lt hp
  have hold : a.at? p = some a.values[p] := List.getElem?_eq_getElem hlt
  have hget : a.values[p]?.getD .nil = a.values[p] := by rw [List.getElem?_eq_getElem hlt]; rfl
  have hsel : Selection.ofIndex a.len (.int i) = .ok (.one p) := by
    show (do return Selection.one (← position a.len i) : Result Selection) = _
    rw [hp]
    rfl
  have ho : o = a.amendAt settings c (.one p) (.ofValue settings f) z := by
    show amendAtIndex settings (.ofValue settings f) (.int i) c a z = _
    simp only [amendAtIndex, hsel]
  have hr : f.apply settings (c.site.sub 1) (a.values[p] :: z.toList) = r := by rw [← hget]
  rw [ho]
  rcases amendAt_one settings (real_ofValue settings f) hfun c ha hz hold with
    ⟨v, b, hv, hb, hvalues⟩ | ⟨e, b, he, hb⟩
  · rw [hb, ← hr, show f.apply settings (c.site.sub 1) (a.values[p] :: z.toList) = .ok v from hv]
    refine ⟨fun _ h => (by cases h), fun _ h => ?_⟩
    cases h
    exact ⟨rfl, hvalues⟩
  · rw [hb, ← hr, show f.apply settings (c.site.sub 1) (a.values[p] :: z.toList) = .error e from he]
    refine ⟨fun _ h => ?_, fun _ h => by cases h⟩
    cases h
    rfl

theorem sound_amendAtOne (hf : WellFormed f) (ha : WellFormed a) {z : Option Value}
    (hz : WellFormed z) (i : Int64) :
    (amendAtOne settings f i c a z).Leaves (Arr.Sound a.len) :=
  safe_amendFn (safe_ofValue hf) (everywhere_int i) c a a.len _ ⟨ha, rfl⟩ hz

variable {z : Operands} (k : Nat) {is : List Int64}

/-- Amends in turn at single positions are a fold. What the fold leaves, they leave if they go
through. -/
theorem amendInTurn_eq_foldWrites (hf : WellFormed f) (hfun : f.isFunction = true)
    (ha : WellFormed a) (hz : WellFormed z) {ps : List Nat}
    (hps : is.mapM (position a.len) = .ok ps) :
    let o := amendInTurn z c k (is.map (amendAtOne settings f)) a
    let r := foldWrites (fun k => f.apply settings ((c.site.sub k).sub 1)) k
      (ps.zip ((List.range' k ps.length).map z.at?)) a.values
    o.failure = r.failure ∧ (o.failure = none → o.slot.values = r.slot) := by
  induction is generalizing k a ps with
  | nil =>
    cases hps
    exact ⟨rfl, fun _ => rfl⟩
  | cons i is ih =>
    rw [List.mapM_cons] at hps
    obtain ⟨p, hp, hps⟩ := bind_eq_ok.1 hps
    obtain ⟨ps', hps', hps⟩ := bind_eq_ok.1 hps
    cases hps
    have hzk := Operands.everywhere_at? hz k
    have hsound := sound_amendAtOne settings (c.sub k) hf ha hzk i
    have hstep := amendAtOne_follows settings (c.sub k) hfun ha hzk hp
    simp only [List.map_cons, amendInTurn, List.length_cons, List.range'_succ, List.zip_cons_cons,
      foldWrites]
    generalize amendAtOne settings f i (c.sub k) a (z.at? k) = o at hstep hsound ⊢
    obtain ⟨b, failure⟩ := o
    obtain ⟨hfails, hwrites⟩ := hstep
    cases hcall : f.apply settings ((c.site.sub k).sub 1)
      (a.values[p]?.getD .nil :: (z.at? k).toList) with
    | error e =>
      obtain rfl : failure = some e := hfails e hcall
      exact ⟨rfl, fun h => absurd h (Option.some_ne_none e)⟩
    | ok v =>
      obtain ⟨rfl, hvalues⟩ : failure = none ∧ b.values = a.values.set p v := hwrites v hcall
      obtain ⟨hb, hlen⟩ := hsound.1
      -- The length stays, so that the indices behind resolve to the positions that they had.
      have hrest := ih (k + 1) hb (hlen.symm ▸ hps')
      rw [hvalues] at hrest
      exact hrest

/-- Amends in turn do not go through if a position is out of range, or if the function cannot be
called and there is anything to amend. -/
theorem failure_amendInTurn (hf : WellFormed f) (ha : WellFormed a) (hz : WellFormed z)
    (h : (∃ e, is.mapM (position a.len) = .error e) ∨ f.isFunction = false ∧ is ≠ []) :
    (amendInTurn z c k (is.map (amendAtOne settings f)) a).failure ≠ none := by
  induction is generalizing k a with
  | nil =>
    rcases h with ⟨e, h⟩ | ⟨-, h⟩
    · cases h
    · exact absurd rfl h
  | cons i is ih =>
    have hzk := Operands.everywhere_at? hz k
    have hsound := sound_amendAtOne settings (c.sub k) hf ha hzk i
    -- Either the first amend is rejected, or the others do not go through.
    have hfirst : (amendAtOne settings f i (c.sub k) a (z.at? k)).failure ≠ none ∨
        ∃ e, is.mapM (position a.len) = .error e := by
      have hindex : Selection.ofIndex a.len (.int i) =
        (do return .one (← position a.len i) : Result Selection) := rfl
      rw [List.mapM_cons] at h
      show (amendAtIndex _ _ _ _ _ _).failure ≠ none ∨ _
      simp only [amendAtIndex, hindex]
      cases hp : position a.len i with
      | error e => exact .inl (Option.some_ne_none e)
      | ok p =>
        rcases h with ⟨e, h⟩ | ⟨hfun, -⟩
        · rw [hp] at h
          refine .inr ?_
          cases hps : is.mapM (position a.len) with
          | error e => exact ⟨e, rfl⟩
          | ok ps =>
            rw [hps] at h
            cases h
        · refine .inl ?_
          show (Arr.amendAt settings (c.sub k) a (.one p) _ _).failure ≠ none
          rw [Arr.amendAt, operands_ofValue, if_neg (by simp [hfun])]
          exact Option.some_ne_none _
    simp only [List.map_cons, amendInTurn]
    generalize amendAtOne settings f i (c.sub k) a (z.at? k) = o at hsound hfirst ⊢
    obtain ⟨b, failure⟩ := o
    cases failure with
    | some e => exact Option.some_ne_none e
    | none =>
      obtain ⟨e, hrest⟩ := hfirst.resolve_left fun hne => hne rfl
      obtain ⟨hb, hlen⟩ := hsound.1
      exact ih (k + 1) hb (.inl ⟨e, hlen.symm ▸ hrest⟩)

end Turns

/-! ## Amends at a vector and at a list -/

/-- The elements of an array stored as integers or as truth values, and what they mean as an
index. -/
theorem exists_indices {b : Arr Value} (hkind : b.kind = .ints ∨ b.kind = .bools) :
    ∃ is : List Int64, b.values = is.map Value.int ∧ ∀ n, Selection.ofIndex n (.array b) =
      (do return .many (← is.mapM (position n)) : Result Selection) := by
  cases b with
  | ints w => exact ⟨w.items, rfl, fun n => rfl⟩
  | bools w =>
    refine ⟨w.items.map fun b => if b then 1 else 0, ?_, fun n => ?_⟩
    · rw [List.map_map]
      exact List.map_congr_left fun b _ => by cases b <;> rfl
    · rw [List.mapM_map]
      rfl
  | _ => rcases hkind with h | h <;> cases h

theorem toTurns_of_unused {α : Type} [HasNodes α] {s s' t : Site} {x : α} (h : s.Unused x)
    (h' : s'.Unused x) (ht : Names t x) : s.toTurns s' t = t := by
  obtain ⟨u, hu, hname⟩ := ht
  exact Site.toTurns_of_not_covers s s' (h u hu t hname) (h' u hu t hname)

/-- The arrays have the same elements but for sharing, once the objects that are not in `x` have
other names. -/
def SameButNew {α : Type} [HasNodes α] (x : α) (a b : Arr Value) : Prop :=
  ∃ ρ : Site → Site, Function.Injective ρ ∧ (∀ t, Names t x → ρ t = t) ∧
    Alike (rename ρ a).values b.values

/-- Such arrays are equal if there are no new functions. -/
theorem SameButNew.eqv {α : Type} [HasNodes α] {x : α} {a b : Arr Value} (h : SameButNew x a b)
    (hold : ∀ u ∈ allNodes a, u.isFunction = true → ∀ t, u.name? = some t → Names t x) :
    a.eqv b = true := by
  obtain ⟨ρ, -, hkeeps, halike⟩ := h
  have hself : (Value.array a).eqv (rename ρ (Value.array a)) = true :=
    eqv_rename_self fun u hu hfun t ht => hkeeps t (hold u hu hfun t ht)
  have halike : (Value.array (rename ρ a)).eqv (.array b) = true := arrEqv_of_values halike
  exact eqv_trans hself halike

theorem everywhere_of_forMany {P : Value → Prop} {z : Option Value} {n : Nat} {zs : Operands}
    (hz : Everywhere P z) (hzs : Operands.forMany n z = .ok zs) : Everywhere P zs := by
  have hmany := everywhere_forMany n hz
  rwa [hzs] at hmany

/-- The fold of one run of steps is the fold of amends in turn, with new objects elsewhere. -/
theorem foldWrites_toTurns (settings : Settings) {s s' : Site} {a : Arr Value} {f : Value}
    {z : Option Value} (hnew : s.Unused (Value.array a, f, z))
    (hnew' : s'.Unused (Value.array a, f, z)) {zs : Operands} (ps : List Nat)
    (hzs : Operands.forMany ps.length z = .ok zs) :
    foldWrites (fun k => f.apply settings ((s'.sub k).sub 1)) 0 (ps.zip (zs.toList ps.length))
        a.values =
      rename (s.toTurns s') (foldWrites (fun k => f.apply settings (s.sub (k + 1))) 0
        (ps.zip (zs.toList ps.length)) a.values) := by
  have hparts {s : Site} (h : s.Unused (Value.array a, f, z)) :
      s.Unused a.values ∧ s.Unused f ∧ s.Unused zs := by
    obtain ⟨ha, hfz⟩ := (everywhere_pair ..).1 h
    obtain ⟨hf, hz⟩ := (everywhere_pair ..).1 hfz
    exact ⟨everywhere_values ((everywhere_array a).1 ha), hf, everywhere_of_forMany hz hzs⟩
  obtain ⟨hvs, hf, hz⟩ := hparts hnew
  obtain ⟨hvs', hf', hz'⟩ := hparts hnew'
  have hself {v : Value} (h : s.Unused v) (h' : s'.Unused v) : rename (s.toTurns s') v = v :=
    rename_eq_self fun t => toTurns_of_unused h h'
  have hsame : rename (s.toTurns s') a.values = a.values :=
    (List.map_congr_left fun v hv => hself (everywhere_iff_forall.1 hvs v hv)
      (everywhere_iff_forall.1 hvs' v hv)).trans (List.map_id _)
  have hoperands : ∀ e ∈ ps.zip (zs.toList ps.length), rename (s.toTurns s') e.2 = e.2 := by
    intro e he
    obtain ⟨k, -, hk⟩ := List.mem_map.1 (List.of_mem_zip he).2
    have hzk : s.Unused (zs.at? k) := Operands.everywhere_at? hz k
    have hzk' : s'.Unused (zs.at? k) := Operands.everywhere_at? hz' k
    rw [← hk]
    cases hat : zs.at? k with
    | none => rfl
    | some v =>
      rw [hat] at hzk hzk'
      exact congrArg some (hself ((everywhere_some v).1 hzk) ((everywhere_some v).1 hzk'))
  -- A call that is made in turn has its site one level further down.
  have hcalls (k : Nat) (args : List Value) :
      f.apply settings ((s'.sub k).sub 1) (rename (s.toTurns s') args) =
        rename (s.toTurns s') (f.apply settings (s.sub (k + 1)) args) := by
    rw [← apply_rename (Site.toTurns_injective s s') settings f (s.carries_toTurns s' (k + 1)),
      hself hf hf', Site.toTurns_sub]
  have hfold := foldWrites_rename hcalls hoperands 0 a.values
  rwa [hsame] at hfold

section Storage

variable {settings : Settings} {c c' : Scope} {a b : Arr Value} {w : Window Value}
  {f : Value} {z : Option Value} {is : List Int64}

theorem amended_array_eq_ok {y v : Value} :
    (Value.array a).amended settings .flat c y f z = .ok v ↔
      ∃ e, amendFn settings (.ofValue settings f) y c a z = .done e ∧ v = .array e := by
  have hamend : (Value.array a).amend settings c y (.ofValue settings f) z =
      (amendFn settings (.ofValue settings f) y c a z).map Value.array := rfl
  rw [amended_flat, hamend]
  obtain ⟨e, failure⟩ := amendFn settings (.ofValue settings f) y c a z
  cases failure with
  | some failure =>
    constructor
    · rintro ⟨⟩
    · rintro ⟨e', h, -⟩
      cases h
  | none =>
    constructor
    · rintro ⟨⟩
      exact ⟨e, rfl, rfl⟩
    · rintro ⟨e', h, rfl⟩
      cases h
      rfl

theorem exists_amended_array {y : Value} :
    (∃ v, (Value.array a).amended settings .flat c y f z = .ok v) ↔
      (amendFn settings (.ofValue settings f) y c a z).failure = none := by
  simp only [amended_array_eq_ok]
  constructor
  · rintro ⟨v, e, he, -⟩
    rw [he]
    rfl
  · intro h
    refine ⟨_, (amendFn settings (.ofValue settings f) y c a z).slot, ?_, rfl⟩
    exact congrArg (Outcome.mk _) h

theorem forMany_zero : (∃ zs, Operands.forMany 0 z = .ok zs) ↔
    ∀ e, z = some (.array e) → e.len = 0 := by
  constructor
  · rintro ⟨zs, hzs⟩ e rfl
    simp only [Operands.forMany] at hzs
    split at hzs
    · assumption
    · cases hzs
  · intro h
    cases z with
    | none => exact ⟨_, rfl⟩
    | some z =>
      cases z with
      | array e => exact ⟨.each e, if_pos (h e rfl)⟩
      | _ => exact ⟨_, rfl⟩

/-- An amend at a vector resolves all of its elements first. -/
theorem amendFn_vector (hkind : b.kind = .ints ∨ b.kind = .bools)
    (hindex : Selection.ofIndex a.len (.array b) =
      (do return .many (← is.mapM (position a.len)) : Result Selection)) :
    amendFn settings (.ofValue settings f) (.array b) c a z =
      match is.mapM (position a.len) with
      | .error e => .failed a e
      | .ok ps => a.amendAt settings c (.many ps) (.ofValue settings f) z := by
  have hnot : ∀ w, Value.array b ≠ .array (.list w) := by
    rintro w ⟨⟩
    rcases hkind with h | h <;> cases h
  rw [amendFn_of_not_list settings _ hnot, amendAtIndex, hindex]
  cases is.mapM (position a.len) <;> rfl

/-- An amend at a list of single positions is one amend after the other. -/
theorem amendFn_turns (hlen : w.len = is.length) (hitems : w.items = is.map Value.int) :
    amendFn settings (.ofValue settings f) (.array (.list w)) c a z =
      match Operands.forMany is.length z with
      | .error e => .failed a e
      | .ok zs => amendInTurn zs c 0 (is.map (amendAtOne settings f)) a := by
  rw [amendFn_list, hlen, hitems, List.map_map]
  rfl

/-- Where the function can be called, the index is in range and the operand fits, both amends are
the same fold, but for where the calls make their objects. -/
theorem sameButNew_of_fold (ha : WellFormed a) (hf : WellFormed f) (hz : WellFormed z)
    (hfun : f.isFunction = true) {ps : List Nat} {zs : Operands}
    (hps : is.mapM (position a.len) = .ok ps) (hzs : Operands.forMany ps.length z = .ok zs)
    (hnew : c.site.Unused (Value.array a, f, z)) (hnew' : c'.site.Unused (Value.array a, f, z)) :
    let o := a.amendAt settings c (.many ps) (.ofValue settings f) z
    let o' := amendInTurn zs c' 0 (is.map (amendAtOne settings f)) a
    (o'.failure = none ↔ o.failure = none) ∧
      (o.failure = none → SameButNew (Value.array a, f, z) o.slot o'.slot) := by
  intro o o'
  have hops : (Callee.ofValue settings f).operands z (.many ps) = .ok zs := by
    rw [operands_ofValue, if_pos hfun]
    exact hzs
  have hlt : ∀ p ∈ (Selection.many ps).positions, p < a.len := fun p hp => by
    obtain ⟨i, -, hi⟩ := exists_of_mapM_ok hps hp
    exact position_lt hi
  have hwfzs : WellFormed zs := everywhere_of_forMany hz hzs
  obtain ⟨⟨hslot, -⟩, hfailure, -⟩ := amendAt_eq_foldWrites settings f c ha hz hlt hops
  obtain ⟨hfailure', hslot'⟩ := amendInTurn_eq_foldWrites settings c' 0 hf hfun ha hwfzs hps
  -- The fold of the list is the fold of the vector under other names.
  have hfold := foldWrites_toTurns settings hnew hnew' ps hzs
  rw [← List.range_eq_range'] at hfailure' hslot'
  change o'.failure = (foldWrites _ 0 (ps.zip (zs.toList ps.length)) a.values).failure at hfailure'
  change _ → _ = (foldWrites _ 0 (ps.zip (zs.toList ps.length)) a.values).slot at hslot'
  rw [hfold] at hfailure' hslot'
  have hboth : o'.failure = none ↔ o.failure = none := by
    rw [hfailure', hfailure]
    exact Option.map_eq_none_iff
  refine ⟨hboth, fun hnone => ⟨c.site.toTurns c'.site, Site.toTurns_injective .., ?_, ?_⟩⟩
  · exact fun t => toTurns_of_unused hnew hnew'
  · rw [values_rename, hslot' (hboth.2 hnone)]
    exact hslot.map fun _ _ => alike_rename

theorem length_of_mapM_ok {α β : Type} {g : α → Result β} {xs : List α} {ys : List β}
    (h : xs.mapM g = .ok ys) : ys.length = xs.length := by
  induction xs generalizing ys with
  | nil =>
    cases h
    rfl
  | cons x xs ih =>
    rw [List.mapM_cons] at h
    obtain ⟨y, -, h⟩ := bind_eq_ok.1 h
    obtain ⟨ys', hys', h⟩ := bind_eq_ok.1 h
    cases h
    exact congrArg (· + 1) (ih hys')

/-- An amend at a vector that goes through has resolved its index and its operand, and its function
can be called. -/
theorem resolved_of_vector (hkind : b.kind = .ints ∨ b.kind = .bools)
    (hindex : Selection.ofIndex a.len (.array b) =
      (do return .many (← is.mapM (position a.len)) : Result Selection))
    (h : (amendFn settings (.ofValue settings f) (.array b) c a z).failure = none) :
    f.isFunction = true ∧ ∃ ps zs, is.mapM (position a.len) = .ok ps ∧
      Operands.forMany ps.length z = .ok zs := by
  rw [amendFn_vector hkind hindex] at h
  cases hps : is.mapM (position a.len) with
  | error e =>
    rw [hps] at h
    cases h
  | ok ps =>
    rw [hps] at h
    cases hop : (Callee.ofValue settings f).operands z (.many ps) with
    | error e =>
      simp only [Arr.amendAt, hop] at h
      cases h
    | ok zs =>
      rw [operands_ofValue] at hop
      split at hop
      · exact ⟨‹_›, ps, zs, rfl, hop⟩
      · cases hop

/-- An amend at a list that goes through resolves the same. The function can be called, or there is
nothing to amend. -/
theorem resolved_of_list (ha : WellFormed a) (hf : WellFormed f) (hz : WellFormed z)
    (hlen : w.len = is.length) (hitems : w.items = is.map Value.int)
    (h : (amendFn settings (.ofValue settings f) (.array (.list w)) c a z).failure = none) :
    (f.isFunction = true ∨ is = []) ∧ ∃ ps zs, is.mapM (position a.len) = .ok ps ∧
      Operands.forMany ps.length z = .ok zs := by
  rw [amendFn_turns hlen hitems] at h
  cases hzs : Operands.forMany is.length z with
  | error e =>
    rw [hzs] at h
    cases h
  | ok zs =>
    rw [hzs] at h
    have hwfzs : WellFormed zs := everywhere_of_forMany hz hzs
    have hrejected := mt (failure_amendInTurn settings c 0 hf ha hwfzs) (not_not_intro h)
    obtain ⟨hrange, hfun⟩ := not_or.1 hrejected
    refine ⟨?_, ?_⟩
    · cases hcall : f.isFunction with
      | true => exact .inl rfl
      | false => exact .inr (Classical.not_not.1 fun hne => hfun ⟨hcall, hne⟩)
    · cases hps : is.mapM (position a.len) with
      | error e => exact absurd ⟨e, hps⟩ hrange
      | ok ps => exact ⟨ps, zs, rfl, length_of_mapM_ok hps ▸ hzs⟩

/-- Both amends come to an end in the same way, or the list is empty and the function is not looked
at. -/
theorem ends_of_vector_of_list (ha : WellFormed a) (hf : WellFormed f) (hz : WellFormed z)
    (hkind : b.kind = .ints ∨ b.kind = .bools) (hlen : w.len = is.length)
    (hitems : w.items = is.map Value.int)
    (hindex : Selection.ofIndex a.len (.array b) =
      (do return .many (← is.mapM (position a.len)) : Result Selection))
    (hnew : c.site.Unused (Value.array a, f, z)) (hnew' : c'.site.Unused (Value.array a, f, z)) :
    let o := amendFn settings (.ofValue settings f) (.array b) c a z
    let o' := amendFn settings (.ofValue settings f) (.array (.list w)) c' a z
    (o'.failure = none ↔ o.failure = none ∨
      is = [] ∧ f.isFunction = false ∧ ∃ zs, Operands.forMany 0 z = .ok zs) ∧
    (o.failure = none → SameButNew (Value.array a, f, z) o.slot o'.slot) := by
  intro o o'
  -- What is resolved for both of them is the same.
  have hfold (hfun : f.isFunction = true) {ps : List Nat} {zs : Operands}
      (hps : is.mapM (position a.len) = .ok ps) (hzs : Operands.forMany ps.length z = .ok zs) :
      (o'.failure = none ↔ o.failure = none) ∧
        (o.failure = none → SameButNew (Value.array a, f, z) o.slot o'.slot) := by
    have ho : o = a.amendAt settings c (.many ps) (.ofValue settings f) z := by
      rw [show o = _ from amendFn_vector hkind hindex, hps]
    have ho' : o' = amendInTurn zs c' 0 (is.map (amendAtOne settings f)) a := by
      rw [show o' = _ from amendFn_turns hlen hitems, ← length_of_mapM_ok hps, hzs]
    rw [ho, ho']
    exact sameButNew_of_fold ha hf hz hfun hps hzs hnew hnew'
  refine ⟨⟨fun h' => ?_, fun h => ?_⟩, fun h => ?_⟩
  · obtain ⟨hcall, ps, zs, hps, hzs⟩ := resolved_of_list ha hf hz hlen hitems h'
    cases hfun : f.isFunction with
    | true => exact .inl ((hfold hfun hps hzs).1.1 h')
    | false =>
      obtain rfl := hcall.resolve_left (by simp [hfun])
      cases hps
      exact .inr ⟨rfl, rfl, zs, hzs⟩
  · rcases h with h | ⟨rfl, -, zs, hzs⟩
    · obtain ⟨hfun, ps, zs, hps, hzs⟩ := resolved_of_vector hkind hindex h
      exact (hfold hfun hps hzs).1.2 h
    · show (amendFn settings (.ofValue settings f) (.array (.list w)) c' a z).failure = none
      rw [amendFn_turns hlen hitems, show Operands.forMany [].length z = _ from hzs]
      rfl
  · obtain ⟨hfun, ps, zs, hps, hzs⟩ := resolved_of_vector hkind hindex h
    exact (hfold hfun hps hzs).2 h

/-- For an index of truth values or integers, it does not matter whether its elements are stored as
such or as a list, for any array, operand and settings: one amend goes through if the other does,
and they leave the same elements, new functions being the same up to their names. The exception is
an empty list, for which nothing checks that the function can be called. -/
theorem amended_list_iff_vector (hx : WellFormed (.array a : Value)) (hb : WellFormed b)
    (hw : WellFormed (Arr.list w)) (hf : WellFormed f) (hz : WellFormed z)
    (hkind : b.kind = .ints ∨ b.kind = .bools) (hitems : w.items = b.values)
    (hnew : c.site.Unused (Value.array a, f, z)) (hnew' : c'.site.Unused (Value.array a, f, z)) :
    let vector := (Value.array a).amended settings .flat c (.array b) f z
    let list := (Value.array a).amended settings .flat c' (.array (.list w)) f z
    ((∃ v', list = .ok v') ↔ (∃ v, vector = .ok v) ∨
      b.len = 0 ∧ f.isFunction = false ∧ ∀ e, z = some (.array e) → e.len = 0) ∧
    ∀ v v', vector = .ok v → list = .ok v' → ∃ e e', v = .array e ∧ v' = .array e' ∧
      SameButNew (Value.array a, f, z) e e' ∧
      ((∀ u ∈ allNodes v, u.isFunction = true → ∀ t, u.name? = some t →
        Names t (Value.array a, f, z)) → v.eqv v' = true) := by
  intro vector list
  obtain ⟨is, hvalues, hindex⟩ := exists_indices hkind
  have ha : WellFormed a := (everywhere_array a).1 hx
  have hwlen : w.len = is.length := by
    rw [← show (Arr.list w).values.length = w.len from hw.length_values]
    show w.items.length = is.length
    rw [hitems, hvalues, List.length_map]
  have hblen : b.len = is.length := by rw [← hb.length_values, hvalues, List.length_map]
  have hnil : b.len = 0 ↔ is = [] := by rw [hblen, List.length_eq_zero_iff]
  obtain ⟨hends, hsame⟩ := @ends_of_vector_of_list settings c c' a b w f z is ha hf hz hkind
    hwlen (hitems.trans hvalues) (hindex a.len) hnew hnew'
  refine ⟨?_, fun v v' hv hv' => ?_⟩
  · rw [exists_amended_array, exists_amended_array, hends, hnil, forMany_zero]
  · obtain ⟨e, he, rfl⟩ := amended_array_eq_ok.1 hv
    obtain ⟨e', he', rfl⟩ := amended_array_eq_ok.1 hv'
    rw [he, he'] at hsame
    exact ⟨e, e', rfl, rfl, hsame rfl, (hsame rfl).eqv⟩

end Storage

/-- The first position is amended twice, and each time with an operand of its own. A function that
waits for a second argument leaves new functions, which are the same but for their names. -/
theorem amended_list_iff_vector_repeated :
    let x : Arr Value := .ints (.ofList (.step 2) [1, 2, 3])
    let y : Arr Value := .ints (.ofList (.step 3) [0, 2, 0])
    let w : Window Value := .ofList (.step 4) [.int 0, .int 2, .int 0]
    let z : Option Value := some (.array (.ints (.ofList (.step 5) [10, 20, 30])))
    let g : Value := .project (.step 6) (.builtin .add) [none, none]
    let amended (n : Nat) (y : Arr Value) (f : Value) (z : Option Value) :=
      (Value.array x).amended {} .flat ⟨[], .step n⟩ (.array y) f z
    (WellFormed (.array x : Value) ∧ WellFormed y ∧ WellFormed (Arr.list w) ∧ WellFormed z ∧
      WellFormed g ∧ y.kind = .ints ∧ w.items = y.values) ∧
    (∃ v v', amended 0 y (.builtin .add) z = .ok v ∧
      amended 1 (.list w) (.builtin .add) z = .ok v' ∧ v.eqv v' = true) ∧
    ∃ e e', amended 0 y g none = .ok (.array e) ∧ amended 1 (.list w) g none = .ok (.array e') ∧
      e.eqv e' = false ∧ SameButNew (Value.array x, g, (none : Option Value)) e e' := by
  intro x y w z g amended
  have hwf : WellFormed (.array x : Value) ∧ WellFormed y ∧ WellFormed (Arr.list w) ∧
      WellFormed z ∧ WellFormed g ∧ y.kind = .ints ∧ w.items = y.values :=
    ⟨by decide, by decide, by decide, by decide, by decide, rfl, rfl⟩
  obtain ⟨hx, hy, hw, hz, hg, hkind, hitems⟩ := hwf
  refine ⟨⟨hx, hy, hw, hz, hg, hkind, hitems⟩, ?_, ?_⟩
  · obtain ⟨hends, hsame⟩ := @amended_list_iff_vector {} ⟨[], .step 0⟩ ⟨[], .step 1⟩ x y w
      (.builtin .add) z hx hy hw (by decide) hz (.inl hkind) hitems (by decide) (by decide)
    obtain ⟨u, hu⟩ : ∃ u, amended 0 y (.builtin .add) z = .ok (.array (.ints u)) := ⟨_, rfl⟩
    obtain ⟨v', hv'⟩ := hends.2 (.inl ⟨_, hu⟩)
    obtain ⟨e, e', he, -, -, heqv⟩ := hsame _ _ hu hv'
    refine ⟨_, v', hu, hv', heqv fun u hu hfun => ?_⟩
    cases List.mem_singleton.1 hu
    cases hfun
  · obtain ⟨-, hsame⟩ := @amended_list_iff_vector {} ⟨[], .step 0⟩ ⟨[], .step 1⟩ x y w g none
      hx hy hw hg (by decide) (.inl hkind) hitems (by decide) (by decide)
    obtain ⟨e, he⟩ : ∃ e, amended 0 y g none = .ok (.array (.list e)) := ⟨_, rfl⟩
    obtain ⟨e', he'⟩ : ∃ e', amended 1 (.list w) g none = .ok (.array (.list e')) := ⟨_, rfl⟩
    obtain ⟨_, _, ⟨⟩, ⟨⟩, hnew, -⟩ := hsame _ _ he he'
    refine ⟨.list e, .list e', he, he', ?_, hnew⟩
    cases he
    cases he'
    rfl

/-- An empty vector of indices checks that the function can be called, and an empty list does
not. -/
theorem empty_list_takes_no_function :
    let x : Value := .array (.ints (.ofList (.step 2) [1]))
    let amended (n : Nat) (y : Arr Value) :=
      x.amended {} .flat ⟨[], .step n⟩ (.array y) (.int 3) none
    amended 0 (.ints (.ofList (.step 3) [])) =
        .error ⟨.type "function" "int", some "@[x;y;f]", none⟩ ∧
      amended 1 (.list (.ofList (.step 3) [])) = .ok x :=
  ⟨rfl, rfl⟩

end SharedArrays
