import SharedArrays.Proofs.Store.Write

/-!
# Steps of an update and the store

A step reads an element, calls a function for it, and writes the answer back. What the function
makes is new, and the write changes the array's own buffer at most. At the end of an update the
array moves to canonical storage, which may freeze its elements.

## Main definitions

* `Scope.Edits` — changes in place of what nothing else refers to

## Main results

* `exists_freeze`, `ready_canonical` — freezing and canonical storage
* `ready_runSteps`, `ready_revise` — steps of an update
-/

namespace SharedArrays

/-! ## Freezing -/

/-- Objects that nothing else refers to are changed in place, and none are made. -/
structure Scope.Edits (c : Scope) (st st' : Store) : Prop where
  held : ∀ t, c.holds t = true → st' t = st t
  fresh : ∀ t, st t = none → st' t = none

section Edits

variable {α : Type} [HasNodes α] {c : Scope} {st st' st'' : Store} {x : α}

theorem Scope.Edits.refl (c : Scope) (st : Store) : c.Edits st st :=
  ⟨fun _ _ => rfl, fun _ h => h⟩

theorem Scope.Edits.trans (h : c.Edits st st') (h' : c.Edits st' st'') : c.Edits st st'' :=
  ⟨fun t ht => (h'.held t ht).trans (h.held t ht), fun t ht => h'.fresh t (h.fresh t ht)⟩

theorem Scope.Edits.of_beside {vs : List Value} (h : (c.beside vs).Edits st st') :
    c.Edits st st' := by
  refine ⟨fun t ht => h.held t ?_, h.fresh⟩
  rw [Scope.holds_beside, ht]
  rfl

theorem Scope.Edits.allows {S : Site → Prop} (h : c.Edits st st') : c.Allows S st st' :=
  ⟨fun t _ => h.held t, fun t _ => h.fresh t⟩

theorem Scope.Edits.liesIn (h : c.Edits st st') (hx : LiesIn st x)
    (hheld : ∀ t, Names t x → c.holds t = true) : LiesIn st' x :=
  hx.congr fun t ht => h.held t (hheld t ht)

theorem Scope.Edits.liesIn_held (h : c.Edits st st') (hheld : LiesIn st c.held) :
    LiesIn st' c.held :=
  h.liesIn hheld fun _ ht => (scope_holds_iff c).2 ht

theorem holds_of_mem_beside {vs : List Value} {v : Value} (hv : v ∈ vs) {t : Site}
    (ht : Names t v) : (c.beside vs).holds t = true := by
  rw [scope_holds_iff, names_iff_exists]
  exact ⟨v, List.mem_append_right _ hv, ht⟩

end Edits

/-- Freezing changes only what nothing else refers to. -/
def FreezesIn (v : Value) : Prop :=
  ∀ c st, LiesIn st v → ∃ st', c.Edits st st' ∧ LiesIn st' (v.freeze c)

/-- What freezing names has been named before. -/
theorem FreezesIn.names {v : Value} (h : FreezesIn v) {c : Scope} {st : Store}
    (hv : LiesIn st v) {t : Site} (ht : Names t (v.freeze c)) : Names t v := by
  by_cases hname : Names t v
  · exact hname
  · obtain ⟨st', hedits, hfrozen⟩ := h c (st.erase t) (hv.erase hname)
    exact absurd (hedits.fresh t (Store.erase_self ..)) (hfrozen.ne_none ht)

/-- The cells of a buffer are frozen one after the other, each beside the others. -/
theorem exists_frozen {buf : List Value} (h : ∀ v ∈ buf, FreezesIn v) (off len : Nat) (c : Scope)
    {st : Store} (hbuf : LiesIn st buf) :
    ∃ st', c.Edits st st' ∧
      LiesIn st' (buf.mapIdx fun i v =>
        if off ≤ i ∧ i < off + len then v.freeze (c.beside (buf.eraseIdx i)) else v) := by
  let g (i : Nat) (v : Value) : Value :=
    if off ≤ i ∧ i < off + len then v.freeze (c.beside (buf.eraseIdx i)) else v
  -- After `n` cells, those in front of the `n`-th are frozen.
  have hprefix (n : Nat) : ∃ st', c.Edits st st' ∧ ∀ (i : Nat) v, buf[i]? = some v →
      LiesIn st' (if i < n then g i v else v) := by
    induction n with
    | zero =>
      refine ⟨st, .refl c st, fun i v hv => ?_⟩
      rw [if_neg (Nat.not_lt_zero i)]
      exact everywhere_iff_forall.1 hbuf v (List.mem_of_getElem? hv)
    | succ n ih =>
      obtain ⟨st₁, hedits, hcells⟩ := ih
      cases hn : buf[n]? with
      | none =>
        refine ⟨st₁, hedits, fun i v hv => ?_⟩
        have hin : i ≠ n := by
          rintro rfl
          rw [hn] at hv
          cases hv
        have hlt : i < n + 1 ↔ i < n := by omega
        simp only [hlt]
        exact hcells i v hv
      | some u =>
        have hu := hcells n u hn
        rw [if_neg (Nat.lt_irrefl n)] at hu
        obtain ⟨st₂, hedits₂, hfrozen⟩ : ∃ st₂, (c.beside (buf.eraseIdx n)).Edits st₁ st₂ ∧
            LiesIn st₂ (g n u) := by
          by_cases hrange : off ≤ n ∧ n < off + len
          · simp only [g, if_pos hrange]
            exact h u (List.mem_of_getElem? hn) _ st₁ hu
          · simp only [g, if_neg hrange]
            exact ⟨st₁, .refl _ st₁, hu⟩
        refine ⟨st₂, hedits.trans hedits₂.of_beside, fun i v hv => ?_⟩
        by_cases hin : i = n
        · subst hin
          cases hn.symm.trans hv
          rw [if_pos (Nat.lt_succ_self i)]
          exact hfrozen
        · have hlt : i < n + 1 ↔ i < n := by omega
          simp only [hlt]
          -- The other cells are held beside the `n`-th one.
          refine hedits₂.liesIn (hcells i v hv) fun t ht => ?_
          have hmem : v ∈ buf.eraseIdx n := List.mem_eraseIdx_iff_getElem?.2 ⟨i, hin, hv⟩
          refine holds_of_mem_beside hmem ?_
          split at ht
          · simp only [g] at ht
            split at ht
            · exact (h v (List.mem_of_getElem? hv)).names
                (everywhere_iff_forall.1 hbuf v (List.mem_of_getElem? hv)) ht
            · exact ht
          · exact ht
  obtain ⟨st', hedits, hcells⟩ := hprefix buf.length
  refine ⟨st', hedits, everywhere_iff_forall.2 fun w hw => ?_⟩
  obtain ⟨i, hi, rfl⟩ := List.mem_mapIdx.1 hw
  have hcell := hcells i buf[i] (List.getElem?_eq_getElem hi)
  rwa [if_pos hi] at hcell

theorem liesIn_of_same_target {st : Store} {u v : Value} (h : u.target? = v.target?)
    (hu : LiesIn st u) (hv : v.target? ≠ none) : LiesIn st v := by
  obtain ⟨⟨s, o⟩, htarget⟩ := Option.ne_none_iff_exists'.1 hv
  exact (liesIn_of_target htarget).2 ((liesIn_of_target (h.trans htarget)).1 hu)

/-- Freezing a value changes only what nothing else refers to. -/
theorem exists_freeze (v : Value) : FreezesIn v := by
  induction v using Value.nest_induction with
  | leaf v hleaf =>
    intro c st hv
    refine ⟨st, .refl c st, ?_⟩
    cases v <;> first | exact hv | cases hleaf
  | error s v _ => exact fun c st hv => ⟨st, .refl c st, hv⟩
  | dict s keys vals ihk ihv =>
    intro c st hd
    rw [Value.freeze]
    split
    · exact ⟨st, .refl c st, hd⟩
    · rename_i hown
      obtain ⟨hobject, hparts⟩ := (liesIn_of_target (v := .dict s ⟨keys, vals⟩) rfl).1 hd
      have hparts' : LiesIn st (⟨keys, vals⟩ : Dict Value) := hparts
      have hnot : ¬Names s (⟨keys, vals⟩ : Dict Value) := by
        rintro ⟨u, hu, hname⟩
        exact name?_ne_of_mem_nodes (v := .dict s ⟨keys, vals⟩) hd rfl hu hname
      -- The dictionary itself is out of the store while its arrays are frozen.
      obtain ⟨hkeys, hvals⟩ := everywhere_entries.1 (hparts'.erase hnot)
      obtain ⟨st₁, hedits₁, hkeys₁⟩ := ihk (c.beside [.array vals]) _ hkeys
      have hvals₁ : LiesIn st₁ (.array vals : Value) := hedits₁.liesIn hvals fun t ht =>
        holds_of_mem_beside (List.mem_singleton_self _) ht
      obtain ⟨st₂, hedits₂, hvals₂⟩ := ihv (c.beside [.array keys]) st₁ hvals₁
      have hkeys₂ := hedits₂.liesIn hkeys₁ fun t ht =>
        holds_of_mem_beside (List.mem_singleton_self _) (ihk.names hkeys ht)
      -- Neither array took the place of the dictionary, which now goes back there.
      have hnone : st₂ s = none :=
        hedits₂.fresh s (hedits₁.fresh s (Store.erase_self ..))
      have hentries : LiesIn st₂ (⟨keys.freeze (c.beside [.array vals]),
          vals.freeze (c.beside [.array keys])⟩ : Dict Value) :=
        everywhere_entries.2 ⟨hkeys₂, hvals₂⟩
      refine ⟨st₂.insert s (.dict _), ⟨fun t ht => ?_, fun t ht => ?_⟩,
        (liesIn_of_target rfl).2 ⟨Store.insert_self .., hentries.insert hnone _⟩⟩
      · have hts : t ≠ s := by
          rintro rfl
          exact hown ht
        rw [Store.insert_of_ne hts, hedits₂.of_beside.held t ht, hedits₁.of_beside.held t ht,
          Store.erase_of_ne hts]
      · have hts : t ≠ s := by
          rintro rfl
          rw [hobject] at ht
          cases ht
        rw [Store.insert_of_ne hts]
        refine hedits₂.fresh t (hedits₁.fresh t ?_)
        rw [Store.erase_of_ne hts, ht]
  | array a ih =>
    intro c st ha
    have hpin (a : Arr Value) (ha : LiesIn st (.array a : Value)) (flags : Flags) :
        LiesIn st (.array (a.setFlags flags) : Value) := by
      refine liesIn_of_same_target (u := .array a) ?_ ha (Option.some_ne_none _)
      cases a <;> rfl
    cases a with
    | list w =>
      rw [Value.freeze, Arr.freeze_list]
      split
      · exact ⟨st, .refl c st, hpin (.list w) ha _⟩
      · rename_i hown
        obtain ⟨hbuf, hcells⟩ := liesIn_arr.1 ((everywhere_array _).1 ha)
        have hnot := not_names_cells ((everywhere_array _).1 ha)
        obtain ⟨st', hedits, hfrozen⟩ := exists_frozen ih w.off w.len c (hcells.erase hnot)
        have hnone : st' w.storage = none := hedits.fresh _ (Store.erase_self ..)
        refine ⟨st'.insert w.storage (.list (w.frozenCells c)), ⟨fun t ht => ?_, fun t ht => ?_⟩,
          (liesIn_of_target rfl).2 ⟨Store.insert_self .., hfrozen.insert hnone _⟩⟩
        · have hts : t ≠ w.storage := by
            rintro rfl
            exact hown ht
          rw [Store.insert_of_ne hts, hedits.held t ht]
          exact Store.erase_of_ne hts
        · have hts : t ≠ w.storage := by
            rintro rfl
            rw [show st w.storage = _ from hbuf] at ht
            cases ht
          rw [Store.insert_of_ne hts]
          refine hedits.fresh t ?_
          rw [← ht]
          exact Store.erase_of_ne hts
    | _ w => exact ⟨st, .refl c st, hpin _ ha _⟩

/-! ## Canonical storage -/

section Ready

variable {c : Scope} {st : Store} {a : Arr Value}

theorem writtenAs_pack (a : Arr Value) (k : Kind) :
    a.WrittenAs c Value.nil (.pack c.site a.values k) := by
  have hvalues (st : Store) (h : LiesIn st a.cells) (_ : LiesIn st Value.nil) :
      LiesIn st a.values := values_subset_cells h
  cases k with
  | list => exact ⟨.inr rfl, hvalues⟩
  | bools => exact ⟨.inr rfl, hvalues⟩
  | _ => exact ⟨.inr rfl, fun _ _ _ => everywhere_empty⟩

/-- The move to canonical storage changes only what nothing else refers to. A list that is not
pinned, or that shares its buffer, does not even freeze its elements. -/
theorem ready_canonical (h : a.Ready c st) (hsite : st c.site = none) (hheld : LiesIn st c.held) :
    ∃ st', c.Edits st st' ∧ (a.canonical c).Ready c st' ∧
      ((a.canonical c).storage = a.storage ∨ (a.canonical c).storage = c.site) ∧
      (a.flags.pinned = false ∨ c.holds a.storage = true → st' = st) := by
  cases a with
  | list w =>
    rw [Arr.canonical]
    split
    · by_cases hpinned : w.flags.pinned = true
      · rw [if_pos hpinned, Arr.freeze_list]
        -- A pinned list freezes its elements, unless somebody else holds the buffer.
        by_cases hholds : c.holds w.storage = true
        · rw [if_pos hholds]
          exact ⟨st, .refl c st, ⟨h.cells, h.own, h.shared⟩, .inl rfl, fun _ => rfl⟩
        · rw [if_neg hholds]
          have hnone : st w.storage = none := h.own (Bool.not_eq_true _ ▸ hholds)
          obtain ⟨st', hedits, hfrozen⟩ :=
            exists_frozen (fun v _ => exists_freeze v) w.off w.len c h.cells
          refine ⟨st', hedits, ⟨hfrozen, fun _ => hedits.fresh _ hnone, fun hshared => ?_⟩,
            .inl rfl, fun hquiet => ?_⟩
          · exact absurd hshared hholds
          · rcases hquiet with hquiet | hshared
            · have hquiet : w.flags.pinned = false := hquiet
              rw [hpinned] at hquiet
              cases hquiet
            · exact absurd hshared hholds
      · rw [if_neg hpinned]
        exact ⟨st, .refl c st, h, .inl rfl, fun _ => rfl⟩
    · exact ⟨st, .refl c st, (writtenAs_pack (Arr.list w) _).ready h everywhere_nil hsite hheld,
        .inr (by cases tightKind w.items <;> rfl), fun _ => rfl⟩
  | _ w => exact ⟨st, .refl c st, h, .inl rfl, fun _ => rfl⟩

/-! ## Steps -/

theorem Arr.Ready.beside (h : a.Ready c st) {vs : List Value} (hvs : LiesIn st vs) :
    a.Ready (c.beside vs) st := by
  refine ⟨h.cells, fun hown => h.own ?_, fun hshared => ?_⟩
  · rw [Scope.holds_beside, Bool.or_eq_false_iff] at hown
    exact hown.1
  · by_cases hholds : c.holds a.storage = true
    · exact h.shared hholds
    · have hname : Names a.storage (c.held ++ vs) := (scope_holds_iff (c.beside vs)).1 hshared
      obtain ⟨v, hv, hname⟩ := names_iff_exists.1 hname
      rcases List.mem_append.1 hv with hv | hv
      · exact absurd ((scope_holds_iff c).2 (names_iff_exists.2 ⟨v, hv, hname⟩)) hholds
      · have hnone := h.own (Bool.not_eq_true _ ▸ hholds)
        have hlies : LiesIn st v := everywhere_iff_forall.1 hvs v hv
        exact absurd hnone (hlies.ne_none hname)

/-- New names disturb nothing between two writes. -/
theorem Arr.Ready.of_same {S : Site → Prop} {st' : Store} (h : a.Ready c st)
    (hfree : ∀ t, S t → st t = none) (hsame : ∀ t, ¬S t → st' t = st t)
    (hstorage : ¬S a.storage) : a.Ready c st' := by
  refine ⟨h.cells.of_same hfree hsame, fun hown => ?_, fun hshared => ?_⟩
  · rw [hsame _ hstorage, h.own hown]
  · rw [hsame _ hstorage, h.shared hshared]

theorem Arr.Ready.of_beside {vs : List Value} (h : a.Ready (c.beside vs) st)
    (hown : c.holds a.storage = false → st a.storage = none) : a.Ready c st := by
  refine ⟨h.cells, hown, fun hshared => h.shared ?_⟩
  rw [Scope.holds_beside, hshared]
  rfl

/-- A failure holds the values that it raises, and no others. -/
theorem everywhere_raised_iff {P : Value → Prop} {α : Type} {o : Outcome α} :
    Everywhere P o.raised ↔ Everywhere P o.failure := by
  obtain ⟨slot, failure⟩ := o
  cases failure with
  | none => exact Iff.rfl
  | some e =>
    obtain ⟨cause, op, hint⟩ := e
    cases cause with
    | raised v => exact (everywhere_cons v []).trans (and_iff_left everywhere_empty)
    | _ => exact Iff.rfl

section Steps

variable {α ε : Type} [HasNodes α] {x : α} {es : List ε} {step : ε → Step} {site : ε → Site}

/-- Steps make what their functions make, each at a site of its own; apart from that only the
array's own buffer changes. -/
theorem ready_runSteps
    (hmade : ∀ e ∈ es, ∀ v, Made (site e).Covers (v, x) ((step e).run v))
    (happart : es.Pairwise fun e e' => ∀ t, (site e).Covers t → ¬(site e').Covers t)
    (hc : ∀ e ∈ es, ¬(site e).Covers c.site) (hfree : ∀ e ∈ es, st.Free (site e))
    (hsite : st c.site = none) (hheld : LiesIn st c.held) (hx : LiesIn st x)
    (h : a.Ready c st) (hstorage : ∀ e ∈ es, ¬(site e).Covers a.storage) :
    ∃ st', (∀ t, (∀ e ∈ es, ¬(site e).Covers t) → st' t = st t) ∧
      let o := a.runSteps c (es.map step)
      o.slot.Ready c st' ∧ LiesIn st' o.failure ∧
        (o.slot = a ∨ o.slot.flags.pinned = false ∧
          (o.slot.storage = a.storage ∨ o.slot.storage = c.site)) := by
  induction es generalizing a st with
  | nil => exact ⟨st, fun _ _ => rfl, h, everywhere_none, .inl rfl⟩
  | cons e es ih =>
    obtain ⟨hmade, hmades⟩ := List.forall_mem_cons.1 hmade
    obtain ⟨happart, happarts⟩ := List.pairwise_cons.1 happart
    obtain ⟨hc, hcs⟩ := List.forall_mem_cons.1 hc
    obtain ⟨hfree, hfrees⟩ := List.forall_mem_cons.1 hfree
    obtain ⟨hstorage, hstorages⟩ := List.forall_mem_cons.1 hstorage
    simp only [List.map_cons, Arr.runSteps]
    cases hold : a.at? (step e).position with
    | none =>
      have hbad : LiesIn st (.outOfBounds (Int64.ofNat (step e).position) a.len : Failure Value) :=
        everywhere_failure rfl
      exact ⟨st, fun _ _ => rfl, h, hbad, .inl rfl⟩
    | some old =>
      have hcell : LiesIn st old :=
        everywhere_iff_forall.1 (values_subset_cells h.cells) old (List.mem_of_getElem? hold)
      obtain ⟨st₁, hsame, hnew⟩ := hmade old st hfree ((everywhere_pair ..).2 ⟨hcell, hx⟩)
      -- The call wrote at its own site only: the sites of the later calls are still free.
      have hfrees₁ : ∀ e' ∈ es, st₁.Free (site e') := by
        intro e' he' t ht
        rw [hsame t fun hs => happart e' he' t hs ht]
        exact hfrees e' he' t ht
      have hready₁ : a.Ready c st₁ := h.of_same hfree hsame hstorage
      have hsite₁ : st₁ c.site = none := (hsame _ hc).trans hsite
      have hheld₁ := hheld.of_same hfree hsame
      cases hres : (step e).run old with
      | error f =>
        rw [hres] at hnew
        simp only [hres]
        exact ⟨st₁, fun t ht => hsame t (ht e (List.mem_cons_self ..)), hready₁, hnew, .inl rfl⟩
      | ok new =>
        rw [hres] at hnew
        have hnew : LiesIn st₁ new := hnew
        -- The write stays in the buffer, or moves the array to the site of the amend.
        have hwritten := writtenAs_put (c := c) a (step e).position new
        have hput : (a.put c (step e).position new).storage = a.storage ∨
            (a.put c (step e).position new).storage = c.site :=
          hwritten.storage.imp_left And.left
        have hunpinned : (a.put c (step e).position new).flags.pinned = false := by
          rw [Arr.flags_put]
        obtain ⟨st₂, hsame₂, hready₂, hfailure, hslot⟩ :=
          ih hmades happarts hcs hfrees₁ hsite₁ hheld₁ (hx.of_same hfree hsame)
            (hwritten.ready hready₁ hnew hsite₁ hheld₁) (fun e' he' => by
              rcases hput with hput | hput <;> rw [hput]
              · exact hstorages e' he'
              · exact hcs e' he')
        simp only [hres]
        refine ⟨st₂, fun t ht => ?_, hready₂, hfailure, .inr ?_⟩
        · obtain ⟨ht, hts⟩ := List.forall_mem_cons.1 ht
          rw [hsame₂ t hts, hsame t ht]
        · rcases hslot with hslot | ⟨hflags, hmoved⟩
          · rw [hslot]
            exact ⟨hunpinned, hput⟩
          · refine ⟨hflags, ?_⟩
            rcases hmoved with hmoved | hmoved
            · rw [hmoved]
              exact hput
            · exact .inr hmoved

/-- Steps of an update, and the move to canonical storage. -/
theorem ready_revise
    (hmade : ∀ e ∈ es, ∀ v, Made (site e).Covers (v, x) ((step e).run v))
    (happart : es.Pairwise fun e e' => ∀ t, (site e).Covers t → ¬(site e').Covers t)
    (hc : ∀ e ∈ es, ¬(site e).Covers c.site) (hfree : ∀ e ∈ es, st.Free (site e))
    (hsite : st c.site = none) (hheld : LiesIn st c.held) (hx : LiesIn st x)
    (h : a.Ready c st) (hstorage : ∀ e ∈ es, ¬(site e).Covers a.storage) :
    ∃ st₁ st', (∀ t, (∀ e ∈ es, ¬(site e).Covers t) → st₁ t = st t) ∧ c.Edits st₁ st' ∧
      (a.flags.pinned = false ∨ c.holds a.storage = true → st' = st₁) ∧
      let o := a.revise c (es.map step)
      o.slot.Ready c st' ∧ LiesIn st' o.failure ∧
        (o.slot.storage = a.storage ∨ o.slot.storage = c.site) := by
  obtain ⟨st₁, hsame, hready, hfailure, hslot⟩ :=
    ready_runSteps hmade happart hc hfree hsite hheld hx h hstorage
  rw [Arr.revise]
  generalize a.runSteps c (es.map step) = o at hready hfailure hslot
  have hraised : LiesIn st₁ o.raised := everywhere_raised_iff.2 hfailure
  have hsite₁ : st₁ c.site = none := (hsame _ hc).trans hsite
  have hheld₁ : LiesIn st₁ c.held := hheld.congr fun t ht =>
    hsame t fun e he hs => hheld.ne_none ht (hfree e he t hs)
  obtain ⟨st', hedits, hready', hmoved, hquiet⟩ :=
    ready_canonical (c := c.beside o.raised) (hready.beside hraised) hsite₁
      ((everywhere_append ..).2 ⟨hheld₁, hraised⟩)
  have hstorage : o.slot.storage = a.storage ∨ o.slot.storage = c.site := by
    rcases hslot with hslot | ⟨-, hslot⟩
    · exact .inl (congrArg Arr.storage hslot)
    · exact hslot
  refine ⟨st₁, st', hsame, hedits.of_beside, fun h => hquiet ?_, ?_, ?_, ?_⟩
  · rcases hslot with hslot | ⟨hflags, -⟩
    · rw [hslot]
      refine h.imp_right fun hholds => ?_
      rw [Scope.holds_beside, hholds]
      rfl
    · exact .inl hflags
  · -- What the failure raises is on neither of the buffers that the array can be on.
    refine hready'.of_beside fun hown => ?_
    rcases hmoved with hmoved | hmoved
    · rw [hmoved] at hown ⊢
      exact hedits.fresh _ (hready.own hown)
    · rw [hmoved]
      exact hedits.fresh _ hsite₁
  · refine everywhere_raised_iff.1 (hedits.liesIn hraised fun t ht => ?_)
    rw [Scope.holds_beside, Bool.or_eq_true]
    exact .inr ((scope_holds_iff ⟨o.raised, c.site⟩).2 ht)
  · rw [Outcome.slot_map]
    rcases hmoved with hmoved | hmoved
    · rw [hmoved]
      exact hstorage
    · exact .inr hmoved

end Steps

end Ready

end SharedArrays
