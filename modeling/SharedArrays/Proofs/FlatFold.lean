import SharedArrays.Proofs.Events

/-!
# An amend of an array is a fold over a list

What an amend of an array does can be told without storage variants, windows and loops. It plays the
events of its index over the list of its elements. What the amend leaves in its slot are the
elements that the play leaves, also when it fails.

## Main definitions

* `Outcome.Plays`, `ArrUpdate.Plays` — updates that play events

## Main results

* `amendSlot_flat_eq_playAt` — an amend of an array plays the events of its index
* `alike_playAt` — a pure function may be called at one site for all events
* `amendSlot_flat_eq_play` — an amend by a pure function, wherever it is called
-/

namespace SharedArrays

/-! ## Playing along -/

/-- The update of the array plays the events over its elements. The elements of a pinned array may
be frozen before the first write, and not after it. -/
structure Outcome.Plays (call : Site → List Value → Result Value) (es : List (Site × Event))
    (a : Arr Value) (o : Outcome (Arr Value)) : Prop where
  exists_list : ∃ vs, WellFormed vs ∧ a.Shows vs ∧ o.slot.Shows (playAt call es vs).slot ∧
    o.failure = (playAt call es vs).failure
  pinned : es ≠ [] ∨ a.flags.pinned = false → o.failure = none → o.slot.flags.pinned = false

section Plays

variable {call : Site → List Value → Result Value} {es es' : List (Site × Event)} {a b : Arr Value}

theorem Outcome.Plays.reject (s : Site) (ha : WellFormed a) (e : Failure Value) :
    (Outcome.failed a e).Plays call [(s, .reject e)] a :=
  ⟨⟨a.values, everywhere_values ha, shows_values a, shows_values a, rfl⟩, fun _ h => by cases h⟩

theorem Outcome.Plays.append_failed {e : Failure Value}
    (h : (Outcome.failed b e).Plays call es a) : (Outcome.failed b e).Plays call (es ++ es') a := by
  obtain ⟨⟨vs, hvs, ha, hb, hfailure⟩, -⟩ := h
  refine ⟨⟨vs, hvs, ha, ?_⟩, fun _ h => by cases h⟩
  rw [playAt_append_of_failed hfailure.symm]
  exact ⟨hb, hfailure⟩

/-- An update that goes on where another one has gone through plays the events of both. -/
theorem Outcome.Plays.append_done {o : Outcome (Arr Value)} (h : (Outcome.done b).Plays call es a)
    (ho : o.Plays call es' b) : o.Plays call (es ++ es') a := by
  obtain ⟨⟨vs, hvs, ha, hb, hnone⟩, hpinned⟩ := h
  obtain ⟨⟨us, hwf, hus, hslot, hfailure⟩, hpinned'⟩ := ho
  have hunpinned (hes : es ≠ [] ∨ a.flags.pinned = false) : b.flags.pinned = false :=
    hpinned hes rfl
  refine ⟨?_, fun hes => hpinned' ?_⟩
  · by_cases hes : es = []
    · -- Nothing has been written so far, so the other list is as good.
      subst hes
      refine ⟨us, hwf, ⟨ha.alike.trans (hb.alike.symm.trans hus.alike), fun hfree => ?_⟩, hslot,
        hfailure⟩
      rw [ha.values_eq hfree, ← hus.values_eq (hunpinned (.inr hfree))]
      exact (hb.values_eq (hunpinned (.inr hfree))).symm
    · refine ⟨vs, hvs, ha, ?_⟩
      have hfree := hunpinned (.inl hes)
      have hstart : (playAt call es vs).slot = us :=
        (hb.values_eq hfree).symm.trans (hus.values_eq hfree)
      rw [playAt_append_of_done hnone.symm, hstart]
      exact ⟨hslot, hfailure⟩
  · by_cases hes' : es' = []
    · rw [hes', List.append_nil] at hes
      exact .inr (hunpinned hes)
    · exact .inl hes'

variable {settings : Settings} {f : Value}

/-- An amend at resolved positions plays a write for each of them. -/
theorem amendAt_plays (c : Scope) (ha : WellFormed a) {sel : Selection} {z : Option Value}
    {operands : Operands} (hz : WellFormed z) (hlt : ∀ p ∈ sel.positions, p < a.len)
    (hop : (Callee.ofValue settings f).operands z sel = .ok operands) :
    (a.amendAt settings c sel (.ofValue settings f) z).Plays (f.apply settings)
      (numbered c.site 1 ((sel.positions.zip (operands.toList sel.positions.length)).map fun e =>
        .write e.1 e.2)) a := by
  obtain ⟨hshows, hfailure, hpinned⟩ := amendAt_eq_foldWrites settings f c ha hz hlt hop
  refine ⟨⟨a.values, everywhere_values ha, shows_values a, ?_⟩,
    fun h => hpinned (h.imp_left fun hne hnil => ?_)⟩
  · rw [playAt_numbered (f.apply settings) c.site 0]
    exact ⟨hshows, hfailure⟩
  · rw [hnil] at hne
    exact hne rfl

/-- An amend at an index that is no list plays the events of a leaf. -/
theorem amendAtIndex_plays (c : Scope) (ha : WellFormed a) {y : Value} {z : Option Value}
    (hz : WellFormed z) :
    (amendAtIndex settings (.ofValue settings f) y c a z).Plays (f.apply settings)
      (numbered c.site 1 (leafEvents a.len f y z)) a := by
  have hindex := ofIndex_eq a.len y
  rw [amendAtIndex, leafEvents]
  cases hleaf : leafIndices a.len y with
  | none =>
    simp only [hleaf] at hindex
    simp only [hindex]
    exact .reject _ ha _
  | some is =>
    simp only [hleaf] at hindex
    cases hbad : is.find? fun i : Int => !decide (0 ≤ i ∧ i < a.len) with
    | some bad =>
      simp only [hbad] at hindex
      simp only [hindex, hbad]
      exact .reject _ ha _
    | none =>
      simp only [hbad] at hindex
      simp only [hindex, hbad]
      by_cases hfun : f.isFunction = true
      · rw [if_pos hfun, leafOperands_eq hleaf hz]
        have hop := operands_ofValue settings f z (leafSelection is y)
        rw [if_pos hfun] at hop
        cases hsel : Operands.ofSelection z (leafSelection is y) with
        | error e =>
          rw [hsel] at hop
          rw [Arr.amendAt, hop]
          exact .reject _ ha _
        | ok operands =>
          rw [hsel] at hop
          -- All indices are checked before the first call, so that each step has its slot.
          have hlt : ∀ p ∈ (leafSelection is y).positions, p < a.len := fun p hp =>
            Selection.lt_of_ofIndex hindex hp
          have hplays := amendAt_plays c ha hz hlt hop
          rw [positions_leafSelection hleaf, List.length_map, List.zip_map_left,
            List.map_map] at hplays
          exact hplays
      · have hop := operands_ofValue settings f z (leafSelection is y)
        rw [if_neg hfun] at hop
        rw [if_neg hfun, Arr.amendAt, hop]
        exact .reject _ ha _

/-- The update plays the events, with calls at sites of its own, which do not depend on the
array. -/
def ArrUpdate.Plays (call : Site → List Value → Result Value) (n : Nat) (u : ArrUpdate) (c : Scope)
    (z : Option Value) (events : List Event) : Prop :=
  ∃ es, es.map Prod.snd = events ∧ Sited c.site 0 es ∧
    ∀ a, a.Sound n → (u c a z).Plays call es a

/-- Updates in turn play their events in a row. -/
theorem amendInTurn_plays {ε : Type} {n : Nat} {us : List ε} {update : ε → ArrUpdate}
    {events : ε → Option Value → List Event} (hsafe : ∀ u ∈ us, (update u).Safe)
    (hu : ∀ u ∈ us, ∀ c z, WellFormed z → (update u).Plays call n c z (events u z))
    {operands : Operands} (hoperands : WellFormed operands) (c : Scope) (zs : List (Option Value))
    (k : Nat) (hzs : ∀ j < us.length, zs[j]? = some (operands.at? (k + j))) :
    ∃ es, es.map Prod.snd = (List.zipWith events us zs).flatten ∧ Sited c.site k es ∧
      ∀ a, a.Sound n → (amendInTurn operands c k (us.map update) a).Plays call es a := by
  induction us generalizing k zs with
  | nil =>
    refine ⟨[], rfl, ⟨nofun, .nil⟩, fun a ha => ⟨?_, fun h _ => h.resolve_left fun hne => hne rfl⟩⟩
    exact ⟨a.values, everywhere_values ha.1, shows_values a, shows_values a, rfl⟩
  | cons u us ih =>
    obtain ⟨hu, hus⟩ := List.forall_mem_cons.1 hu
    obtain ⟨hsafe, hsafes⟩ := List.forall_mem_cons.1 hsafe
    cases zs with
    | nil => cases hzs 0 (Nat.zero_lt_succ _)
    | cons z zs =>
      have hz : z = operands.at? k := Option.some.inj (hzs 0 (Nat.zero_lt_succ _))
      have hwfz : WellFormed z := hz ▸ Operands.everywhere_at? hoperands k
      have hzs' : ∀ j < us.length, zs[j]? = some (operands.at? (k + 1 + j)) := by
        intro j hj
        rw [Nat.add_right_comm]
        exact hzs (j + 1) (Nat.succ_lt_succ hj)
      obtain ⟨es, hes, hsited, hplays⟩ := hu (c.sub k) z hwfz
      obtain ⟨es', hes', hsited', hplays'⟩ := ih hsafes hus zs (k + 1) hzs'
      refine ⟨es ++ es', ?_, hsited.append hsited', fun a ha => ?_⟩
      · rw [List.map_append, hes, hes', List.zipWith_cons_cons, List.flatten_cons]
      · have hfirst := hplays a ha
        have hsound := hsafe (c.sub k) a n z ha hwfz
        rw [List.map_cons, amendInTurn, ← hz]
        -- Both go on, or the failure of this update ends both.
        generalize update u (c.sub k) a z = o at hfirst hsound
        obtain ⟨b, failure⟩ := o
        cases failure with
        | some e => exact hfirst.append_failed
        | none => exact hfirst.append_done (hplays' b hsound.1)

theorem amendFn_plays (hf : WellFormed f) {y : Value} (hy : WellFormed y) (n : Nat) (c : Scope)
    {z : Option Value} (hz : WellFormed z) :
    (amendFn settings (.ofValue settings f) y).Plays (f.apply settings) n c z
      (indexEvents n f y z) := by
  -- Only a list of indices is walked; all else is one leaf, a dictionary and an error included.
  have leaf {y : Value} (hy : ∀ w, y ≠ .array (.list w)) (c : Scope) {z : Option Value}
      (hz : WellFormed z) : (amendFn settings (.ofValue settings f) y).Plays (f.apply settings) n c
        z (indexEvents n f y z) := by
    rw [amendFn_of_not_list settings _ hy, indexEvents_of_not_list n f hy]
    refine ⟨numbered c.site 1 (leafEvents n f y z), map_snd_numbered .., ?_, fun a ha => ?_⟩
    · obtain ⟨hinside, hapart⟩ := sited_numbered c.site 1 (leafEvents n f y z)
      exact ⟨fun e he => (hinside e he).mono (Nat.zero_le 1), hapart⟩
    · obtain ⟨hwf, rfl⟩ := ha
      exact amendAtIndex_plays c hwf hz
  induction y using Value.nest_induction generalizing c z with
  | leaf y hleaf => exact leaf (by rintro w rfl; cases hleaf) c hz
  | dict t keys vals _ _ => exact leaf (fun w h => by cases h) c hz
  | error t v _ => exact leaf (fun w h => by cases h) c hz
  | array y ih =>
    cases y with
    | list w =>
      obtain ⟨hb, hcells⟩ := (everywhere_list w).1 ((everywhere_array _).1 hy)
      have hoperands := everywhere_forMany w.len hz
      simp only [ArrUpdate.Plays, amendFn_list, indexEvents_list, spread_eq w.len hz]
      cases hop : Operands.forMany w.len z with
      | error e =>
        refine ⟨numbered c.site 0 [.reject e], rfl, sited_numbered .., fun a ha => .reject _ ha.1 _⟩
      | ok operands =>
        rw [hop] at hoperands
        have hwf {u : Value} (hu : u ∈ w.items) : WellFormed u :=
          everywhere_iff_forall.1 hcells u (Window.mem_of_mem_items hu)
        refine amendInTurn_plays (fun u hu => safe_amendFn (safe_ofValue hf) (hwf hu))
          (fun u hu c z hz => ih u (Window.mem_of_mem_items hu) (hwf hu) c hz) hoperands c _ 0
          fun j hj => ?_
        rw [Window.InBounds.length_items hb] at hj
        simp [Operands.toList, hj]
    | _ => exact leaf (fun w h => by cases h) c hz

end Plays

/-- An amend of an array plays the events of its index over the list of its elements, whatever the
settings and the function. Each call is made at a site of its own, below the site of the amend. The
amend leaves an array that shows what the play leaves, and it fails just when the play fails, with
the same failure. -/
theorem amendSlot_flat_eq_playAt (settings : Settings) (c : Scope) (a : Arr Value) (y f : Value)
    (z : Option Value) (ha : WellFormed a) (hy : WellFormed y) (hf : WellFormed f)
    (hz : WellFormed z) :
    let o := (Value.array a).amendSlot settings .flat c y f z
    ∃ es vs, es.map Prod.snd = indexEvents a.len f y z ∧ Sited c.site 0 es ∧ WellFormed vs ∧
      a.Shows vs ∧
      let r := playAt (f.apply settings) es vs
      (∃ b, o.slot = .array b ∧ b.len = a.len ∧ b.Shows r.slot) ∧
        o.failure = r.failure.map (·.during (amendText "@" f z.isSome)) := by
  intro o
  obtain ⟨es, hes, hsited, hplays⟩ := amendFn_plays hf hy a.len c hz
  obtain ⟨⟨vs, hwf, hvs, hslot, hfailure⟩, -⟩ := hplays a ⟨ha, rfl⟩
  have hleaves : (a.amend settings c y (.ofValue settings f) z).Leaves (Arr.Sound a.len) :=
    leaves_arrAmend (safe_ofValue hf) ⟨ha, rfl⟩ hy hz
  -- The amend of the slot is this amend of the array, with a note on its failure.
  refine ⟨es, vs, hes, hsited, hwf, hvs, ⟨_, rfl, hleaves.1.2, hslot⟩, ?_⟩
  exact congrArg (Option.map (·.during (amendText "@" f z.isSome))) hfailure

/-! ## Pure functions -/

section Pure

variable {settings : Settings} {f : Value} {dyadic : Bool}

theorem wellFormed_getD {us : List Value} (h : WellFormed us) (i : Nat) :
    WellFormed (us[i]?.getD .nil) := by
  cases hu : us[i]? with
  | none => decide
  | some u => exact everywhere_iff_forall.1 h u (List.mem_of_getElem? hu)

theorem Alike.getD {us vs : List Value} (h : Alike us vs) (i : Nat) :
    Alike (us[i]?.getD .nil) (vs[i]?.getD .nil) := by
  rcases alike_option_cases (h.getElem? i) with ⟨hu, hv⟩ | ⟨u, v, hu, hv, huv⟩
  · rw [hu, hv]
    exact .refl _
  · rw [hu, hv]
    exact huv

/-- A pure function may be called at one site for all events. -/
theorem alike_playAt (hf : WellFormed f) (hpure : f.IsPure settings (updateArity dyadic))
    (s : Site) {es : List (Site × Event)} (hes : ∀ e ∈ es, e.2.Fits dyadic) {vs vs' : List Value}
    (hvs : WellFormed vs) (hvs' : WellFormed vs') (h : Alike vs vs') :
    Alike (playAt (f.apply settings) es vs)
      (play (f.apply settings s) (es.map Prod.snd) vs') := by
  induction es generalizing vs vs' with
  | nil => exact alike_done h
  | cons e es ih =>
    obtain ⟨t, e⟩ := e
    obtain ⟨hfits, hrest⟩ := List.forall_mem_cons.1 hes
    cases e with
    | reject e => exact alike_failed h (.refl e)
    | write i z =>
      obtain ⟨hz, hsome⟩ : WellFormed z ∧ z.isSome = dyadic := hfits
      have hargs {us : List Value} (hus : WellFormed us) :
          WellFormed (us[i]?.getD .nil :: z.toList) :=
        (everywhere_cons ..).2 ⟨wellFormed_getD hus i, everywhere_toList.2 hz⟩
      have hcount : (vs[i]?.getD .nil :: z.toList).length = updateArity dyadic := by
        rw [← hsome]
        cases z <;> rfl
      have hcall : Alike (f.apply settings t (vs[i]?.getD .nil :: z.toList))
          (f.apply settings s (vs'[i]?.getD .nil :: z.toList)) :=
        hpure t s _ _ hcount (hargs hvs) (hargs hvs') (alike_cons.2 ⟨h.getD i, .refl _⟩)
      have hsafe : (Callee.ofValue settings f).Safe := safe_ofValue hf
      simp only [List.map_cons, playAt, play]
      rcases alike_result_cases hcall with ⟨v, v', hv, hv', hsame⟩ | ⟨e, e', he, he', hsame⟩
      · have hwf : WellFormed v := everywhere_of_ok (hsafe _ _ (hargs hvs)) hv
        have hwf' : WellFormed v' := everywhere_of_ok (hsafe _ _ (hargs hvs')) hv'
        simp only [hv, hv']
        exact ih hrest (wellFormed_set hvs hwf) (wellFormed_set hvs' hwf') (h.set hsame i)
      · simp only [he, he']
        exact alike_failed h hsame

/-- With one call for all places, the fold plays writes. -/
theorem play_write (call : List Value → Result Value) (k : Nat) (es : List (Nat × Option Value))
    (vs : List Value) :
    play call (es.map fun e => .write e.1 e.2) vs = foldWrites (fun _ => call) k es vs := by
  induction es generalizing k vs with
  | nil => rfl
  | cons e es ih =>
    obtain ⟨i, z⟩ := e
    simp only [List.map_cons, play, foldWrites]
    cases call (vs[i]?.getD .nil :: z.toList) with
    | error e => rfl
    | ok v => exact ih (k + 1) _

/-- The same for the fold. -/
theorem alike_foldWrites (hf : WellFormed f) (hpure : f.IsPure settings (updateArity dyadic))
    (s t : Site) {es : List (Nat × Option Value)}
    (hes : ∀ e ∈ es, WellFormed e.2 ∧ e.2.isSome = dyadic) {vs : List Value}
    (hvs : WellFormed vs) :
    Alike (foldWrites (fun k => f.apply settings (t.sub (k + 1))) 0 es vs)
      (foldWrites (fun _ => f.apply settings s) 0 es vs) := by
  rw [← playAt_numbered (f.apply settings), ← play_write]
  have hfits : ∀ e ∈ numbered t 1 (es.map fun e => Event.write e.1 e.2), e.2.Fits dyadic := by
    intro e he
    have hmem := List.mem_map_of_mem (f := Prod.snd) he
    rw [map_snd_numbered] at hmem
    obtain ⟨e', he', heq⟩ := List.mem_map.1 hmem
    exact heq ▸ hes e' he'
  have hplay := alike_playAt hf hpure s hfits hvs hvs (.refl vs)
  rwa [map_snd_numbered] at hplay

end Pure

/-- An amend of an array by a pure function plays the events of its index over the list of its
elements, whatever the settings and wherever the function is called. It leaves an array that shows
what the play leaves, and it fails just when the play fails, with the same failure. -/
theorem amendSlot_flat_eq_play (settings : Settings) (c : Scope) (a : Arr Value) (y f : Value)
    (z : Option Value) (s : Site) (ha : WellFormed a) (hy : WellFormed y) (hf : WellFormed f)
    (hz : WellFormed z) (hpure : f.IsPure settings (updateArity z.isSome)) :
    let o := (Value.array a).amendSlot settings .flat c y f z
    let r := play (f.apply settings s) (indexEvents a.len f y z) a.values
    (∃ b, o.slot = .array b ∧ b.len = a.len ∧ Alike b.values r.slot) ∧
      Alike o.failure (r.failure.map (·.during (amendText "@" f z.isSome))) ∧
      (o.failure = none ↔ r.failure = none) := by
  intro o r
  obtain ⟨es, vs, hes, -, hwf, hvs, ⟨b, hslot, hlen, hb⟩, hfailure⟩ :=
    amendSlot_flat_eq_playAt settings c a y f z ha hy hf hz
  have hfits : ∀ e ∈ es, e.2.Fits z.isSome := fun e he =>
    fits_indexEvents a.len f hz e.2 (hes ▸ List.mem_map_of_mem he)
  obtain ⟨hlist, hplayed⟩ := alike_outcome.1 <|
    alike_playAt hf hpure s hfits hwf (everywhere_values ha) hvs.alike.symm
  rw [hes] at hlist hplayed
  refine ⟨⟨b, hslot, hlen, hb.alike.trans hlist⟩, ?_, ?_⟩
  · rw [show o.failure = _ from hfailure]
    exact alike_map_during hplayed _
  · rw [show o.failure = _ from hfailure, Option.map_eq_none_iff]
    exact alike_eq_none_iff hplayed

/-- A list of indices writes a string, which turns the array into a list, and is then rejected at
an index that is out of range. The string stays. -/
theorem amendSlot_flat_eq_play_stops :
    let a : Arr Value := .ints (.ofList ⟨[1]⟩ [1, 2, 3])
    let y : Value := .array (.list (.ofList ⟨[2]⟩ [.int 0, .array (.ints (.ofList ⟨[3]⟩ [1, 5]))]))
    let f : Value := .builtin .right
    let z : Option Value := some (.array (.list (.ofList ⟨[4]⟩ [.str "a", .int 9])))
    let c : Scope := ⟨[], ⟨[0]⟩⟩
    let o := (Value.array a).amendSlot {} .flat c y f z
    let r := play (f.apply {} ⟨[5]⟩) (indexEvents a.len f y z) a.values
    (WellFormed a ∧ WellFormed y ∧ WellFormed f ∧ WellFormed z ∧
        f.IsPure {} (updateArity z.isSome)) ∧
      r = .failed [.str "a", .int 2, .int 3] (.outOfBounds 5 3) ∧
      ((∃ b, o.slot = .array b ∧ b.len = a.len ∧ Alike b.values r.slot) ∧
        Alike o.failure (r.failure.map (·.during (amendText "@" f z.isSome))) ∧
        (o.failure = none ↔ r.failure = none)) := by
  intro a y f z c o r
  have hpure : f.IsPure {} (updateArity z.isSome) := isPure_right {}
  exact ⟨⟨by decide, by decide, by decide, by decide, hpure⟩, rfl,
    amendSlot_flat_eq_play {} c a y f z ⟨[5]⟩ (by decide) (by decide) (by decide) (by decide)
      hpure⟩

end SharedArrays
