import SharedArrays.Proofs.Store.Amend
import SharedArrays.Call

/-!
# Amends along paths and the store

A path leads through buffers and dictionaries, each of which is made private on the way. While an
element is amended, the buffer around it is out of the store, and the other elements of the buffer
are alive beside it. What the surroundings hold stays as it is at every depth.

## Main definitions

* `ValueUpdate.Turns` — an update of values in surroundings that stay as they are

## Main results

* `exists_amendElements` — elements of a buffer one after the other
* `turns_amendAlong`, `turns_amendPath` — amends along paths
* `turns_amendBy` — amends of either form
-/

namespace SharedArrays

/-- An update of values in surroundings that keep `kept` and the right operand. -/
def ValueUpdate.Turns {α : Type} [HasNodes α] (kept : α) (u : ValueUpdate) : Prop :=
  ∀ (c : Scope) x z, c.Keeps kept → c.Keeps z → c.Turns c.site.Covers x (u c x z)

/-- What stands in a list after a replacement is new, or stood at another position. -/
theorem mem_set_iff_eraseIdx {α : Type} {xs : List α} {i : Nat} {x y : α}
    (h : y ∈ xs.set i x) : y = x ∨ y ∈ xs.eraseIdx i := by
  obtain ⟨j, hj⟩ := List.mem_iff_getElem?.1 h
  by_cases hij : i = j
  · subst hij
    rw [List.getElem?_set_self'] at hj
    obtain ⟨_, _, rfl⟩ := Option.map_eq_some_iff.1 hj
    exact .inl rfl
  · rw [List.getElem?_set_ne hij] at hj
    exact .inr (List.mem_eraseIdx_iff_getElem?.2 ⟨j, Ne.symm hij, hj⟩)

section Elements

variable {α : Type} [HasNodes α] {kept : α} {update : ValueUpdate} {c : Scope} {z : Operands}

/-- Beside an element the other elements of its buffer are held, so that they stay as they are. -/
theorem exists_amendElements (hu : update.Turns kept) (hkept : c.Keeps kept) (hz : c.Keeps z)
    {ps : List Nat} {k : Nat} {w : Window Value} {st : Store}
    (hfree : ∀ t, c.site.From (k + 1) t → st t = none) (hheld : LiesIn st c.held)
    (hcells : LiesIn st w.buf) (hnone : st w.storage = none)
    (hstorage : ¬c.site.From (k + 1) w.storage) :
    ∃ st', c.Allows (c.site.From (k + 1)) st st' ∧
      let o := amendElements update z c k ps w
      LiesIn st' o.slot.buf ∧ LiesIn st' o.failure ∧ o.slot.storage = w.storage ∧
        st' w.storage = none := by
  -- The buffer itself is out of the store on the way (`hnone`): the updates must not see it.
  induction ps generalizing k w st with
  | nil => exact ⟨st, .refl c _ st, hcells, everywhere_none, rfl, hnone⟩
  | cons i rest ih =>
    simp only [amendElements]
    cases hslot : w.items[i]? with
    | none =>
      have hbad : LiesIn st (.outOfBounds (Int64.ofNat i) w.len : Failure Value) :=
        everywhere_failure rfl
      exact ⟨st, .refl c _ st, hcells, hbad, rfl, hnone⟩
    | some slot =>
      simp only
      have hold : LiesIn st slot := everywhere_iff_forall.1 hcells slot
        (Window.mem_of_mem_items (List.mem_of_getElem? hslot))
      have hothers : LiesIn st (w.buf.eraseIdx (w.off + i)) :=
        everywhere_of_subset hcells fun u hu => List.mem_of_mem_eraseIdx hu
      -- The update of this element works with the others held, so they survive it.
      have hfree₁ : ∀ t, (c.site.sub (k + 1)).Covers t → st t = none := fun t ht =>
        hfree t (Site.from_of_sub (Nat.le_refl _) ht)
      have hbeside : LiesIn st (c.held ++ w.buf.eraseIdx (w.off + i)) :=
        (everywhere_append ..).2 ⟨hheld, hothers⟩
      obtain ⟨st₁, hallows, ho⟩ :=
        hu ((c.sub (k + 1)).beside (w.buf.eraseIdx (w.off + i))) slot (z.at? k)
          (hkept.beside _) ((keeps_at? hz k).beside _) st hfree₁ hbeside hold
      have hkept₁ := hallows.liesIn_held hfree₁ hbeside
      obtain ⟨hheld₁, hothers₁⟩ := (everywhere_append ..).1 hkept₁
      generalize update _ slot (z.at? k) = o at ho ⊢
      obtain ⟨hnew, hfailure⟩ := everywhere_outcome.1 ho
      have hallows₁ : c.Allows (c.site.From (k + 1)) st st₁ :=
        hallows.of_beside.of_sub.mono fun t => Site.from_of_sub (Nat.le_refl _)
      have hcells₁ : LiesIn st₁ (w.buf.set (w.off + i) o.slot) := by
        refine everywhere_iff_forall.2 fun v hv => ?_
        rcases mem_set_iff_eraseIdx hv with rfl | hv
        · exact hnew
        · exact everywhere_iff_forall.1 hothers₁ v hv
      have hnone₁ : st₁ w.storage = none := hallows₁.fresh _ hstorage hnone
      split
      · rename_i e he
        rw [he] at hfailure
        exact ⟨st₁, hallows₁, hcells₁, hfailure, rfl, hnone₁⟩
      -- The rest of the elements is updated at later sites, which are all still free.
      · have hafter (t : Site) (ht : c.site.From (k + 2) t) : c.site.From (k + 1) t :=
          ht.mono (Nat.le_succ _)
        have hfree₂ : ∀ t, c.site.From (k + 2) t → st₁ t = none :=
          hallows.free (fun t ht => hfree t (hafter t ht)) fun t ht hs =>
            Site.not_from_of_sub (Nat.lt_succ_self _) hs ht
        obtain ⟨st₂, hallows₂, hrest⟩ := ih (k := k + 1)
          (w := { w with buf := w.buf.set (w.off + i) o.slot }) hfree₂ hheld₁ hcells₁ hnone₁
          fun h => hstorage (hafter _ h)
        exact ⟨st₂, hallows₁.trans (hallows₂.mono hafter), hrest⟩

theorem tidy_amendElements (hu : update.Turns kept) (hkept : c.Keeps kept) (hz : c.Keeps z)
    (ps : List Nat) (a : Arr Value) :
    a.Tidy c c.site.Covers (a.amendElements update z c ps) := by
  cases a with
  | list w =>
    intro st hfree hheld hready hstorage
    have hsite : st (c.site.sub 0) = none := hfree _ (c.site.covers_sub 0)
    have hprivate := (writtenAs_makePrivate (c := c.sub 0) (.list w)).ready (hready.sub 0)
      everywhere_nil hsite hheld
    -- Once it is private, the buffer belongs to the array alone.
    have hwindow : ((w.makePrivate (c.sub 0)).storage = w.storage ∨
        (w.makePrivate (c.sub 0)).storage = c.site.sub 0) ∧
          c.holds (w.makePrivate (c.sub 0)).storage = false := by
      rcases storage_makePrivate (c := c.sub 0) w with ⟨h, hown⟩ | h
      · exact ⟨.inl h, h ▸ hown⟩
      · exact ⟨.inr h, h ▸ not_holds_of_none hheld hsite⟩
    obtain ⟨hmoved, hown⟩ := hwindow
    have hnot : ¬c.site.From 1 (w.makePrivate (c.sub 0)).storage := by
      rcases hmoved with h | h <;> rw [h]
      · exact fun h => hstorage h.covers
      · exact Site.not_from_of_sub Nat.zero_lt_one (Site.covers_refl _)
    obtain ⟨st', hallows, hcells, hfailure, hsame, hnone⟩ :=
      exists_amendElements (k := 0) hu hkept hz (fun t ht => hfree t ht.covers) hheld
        hprivate.cells (hprivate.own hown) hnot
    refine ⟨st', hallows.mono fun t => Site.From.covers, ⟨hcells, fun _ => ?_, fun h => ?_⟩,
      hfailure, ?_⟩
    · exact (congrArg st' hsame).trans hnone
    · have h : c.holds (amendElements update z c 0 ps (w.makePrivate (c.sub 0))).slot.storage =
        true := h
      rw [hsame, hown] at h
      cases h
    · show (amendElements update z c 0 ps (w.makePrivate (c.sub 0))).slot.storage = _ ∨
        c.site.Covers (amendElements update z c 0 ps (w.makePrivate (c.sub 0))).slot.storage
      rw [hsame]
      exact hmoved.imp_right fun h => (Site.covers_of_eq h).of_sub
  | _ w => exact fun st _ _ hready _ => ⟨st, .refl c _ st, hready, everywhere_none, .inl rfl⟩

end Elements

section Paths

variable {settings : Settings} {f : Callee} {c : Scope} {x : Value} {z : Option Value}

theorem keeps_cons {α : Type} [HasNodes α] {x : α} {xs : List α} :
    c.Keeps (x :: xs) ↔ c.Keeps x ∧ c.Keeps xs := by
  constructor
  · intro h
    exact ⟨fun st hheld => ((everywhere_cons ..).1 (h st hheld)).1,
      fun st hheld => ((everywhere_cons ..).1 (h st hheld)).2⟩
  · rintro ⟨hx, hxs⟩ st hheld
    exact (everywhere_cons ..).2 ⟨hx st hheld, hxs st hheld⟩

/-- An amend along a path changes nothing that the surroundings hold. -/
theorem turns_amendAlong (hf : f.Makes) (path : List Value) :
    (Value.amendAlong settings f path).Turns (f.value :: path) := by
  induction path with
  | nil =>
    intro c x z hkept hz st hfree hheld hx
    obtain ⟨st', hsame, hcall⟩ := hf.element (keeps_cons.1 hkept).1 hz c.site x st hfree
      ((everywhere_pair ..).2 ⟨hx, hheld⟩)
    refine ⟨st', allows_of_same hsame, ?_⟩
    simp only [Value.amendAlong]
    split
    · rename_i v hv
      rw [hv] at hcall
      exact (everywhere_done v).2 hcall
    · rename_i e he
      rw [he] at hcall
      exact (everywhere_failed x e).2 ⟨hx.of_same hfree hsame, hcall⟩
  | cons y rest ih =>
    intro c x z hkept hz
    obtain ⟨hkf, hpath⟩ := keeps_cons.1 hkept
    obtain ⟨hy, hrest⟩ := keeps_cons.1 hpath
    cases rest with
    | nil => exact turns_amend hf hkf hy hz x
    | cons next rest =>
      have hu := ih
      have hkept : c.Keeps (f.value :: next :: rest) := keeps_cons.2 ⟨hkf, hrest⟩
      have hlevel := level_amendAlong settings f y next rest c x z
      generalize Value.amendAlong settings f (y :: next :: rest) c x z = o at hlevel ⊢
      cases hlevel with
      | refused x holds =>
        intro st _ hheld hx
        exact ⟨st, .refl c _ st, (everywhere_failed ..).2 ⟨hx, holds _ (hz st hheld)⟩⟩
      | idle x => exact turns_done (turns_of_liesIn fun _ h => h)
      | @array a sel operands opens selects holds =>
        have hoperands : c.Keeps operands := fun st hheld => holds _ (hz st hheld)
        exact turns_of_tidy (tidy_amendElements hu hkept hoperands sel.positions a)
      | @dict s d operands opens selects holds =>
        have hoperands : c.Keeps operands := fun st hheld => holds _ (hz st hheld)
        have hmissing : c.Keeps (d.placement settings y).missing := fun st hheld =>
          everywhere_missing settings d (hy st hheld)
        have happend :=
          (turns_appendKeys (c := c.sub 0) hmissing d).mono fun t => Site.From.covers
        -- The missing keys are appended at site 0 and stay, whatever the elements do after.
        generalize d.appendKeys (c.sub 0) (d.placement settings y).missing = grown at happend ⊢
        have htidy := tidy_amendElements (c := (c.sub 1).beside [.array grown.keys]) hu
          (hkept.beside _) (hoperands.beside _) (d.placement settings y).selection.positions
          grown.vals
        have helements : c.Turns (c.site.From 1) grown _ :=
          (turns_vals (turns_of_tidy htidy)).of_sub.mono fun t =>
            Site.from_of_sub (Nat.le_refl 1)
        exact turns_dict ((happend.of_sub.andThen helements).mono fun t => Site.From.below)

theorem turns_amendPath (hf : f.Makes) (hkf : c.Keeps f.value) {path : Value}
    (hpath : c.Keeps path) (hz : c.Keeps z) (x : Value) :
    c.Turns c.site.Covers x (x.amendPath settings c path f z) := by
  have hkept : c.Keeps (f.value :: path.components) :=
    keeps_cons.2 ⟨hkf, fun st hheld => everywhere_components (hpath st hheld)⟩
  unfold Value.amendPath
  simp only
  split
  · exact turns_failed fun P => everywhere_failure rfl
  · exact turns_amendAlong hf path.components c x z hkept hz

/-- An amend of either form changes nothing that the surroundings hold, whether it goes through or
fails. -/
theorem turns_amendBy (hf : f.Makes) (hkf : c.Keeps f.value) {form : Form} {y : Value}
    (hy : c.Keeps y) (hz : c.Keeps z) (x : Value) :
    c.Turns c.site.Covers x (x.amendBy settings form c y f z) := by
  cases form with
  | flat => exact (turns_amend hf hkf hy hz x).to_output fun _ => everywhere_noted.2
  | path => exact (turns_amendPath hf hkf hy hz x).to_output fun _ => everywhere_noted.2

end Paths

end SharedArrays
