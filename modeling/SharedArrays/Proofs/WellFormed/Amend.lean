import SharedArrays.Proofs.Levels
import SharedArrays.Proofs.WellFormed.Operators

/-!
# Amends keep values well-formed

An amend of a well-formed value leaves a well-formed value in its slot, whether it goes through
or fails, as long as the update function answers well-formed values. The number of elements of
an array does not change, and a dictionary gets as many new values as new keys.

## Main definitions

* `Callee.Safe` — a function that answers well-formed values
* `Outcome.Leaves` — a property of what an update leaves, beside a well-formed failure

## Main results

* `leaves_amendAt`, `safe_amendFn` — amends of arrays
* `leaves_dictAmend` — amends of dictionaries
* `wellFormed_amend`, `safe_amendAlong`, `wellFormed_amendPath` — amends of values
-/

namespace SharedArrays

/-- The function answers well-formed values to well-formed arguments. -/
def Callee.Safe (f : Callee) : Prop := ∀ s args, WellFormed args → WellFormed (f.call s args)

/-- What is left satisfies `Q`, and the failure is well-formed. -/
def Outcome.Leaves {α : Type} (Q : α → Prop) (o : Outcome α) : Prop :=
  Q o.slot ∧ WellFormed o.failure

section Leaves

variable {α β : Type} {Q : α → Prop} {R : β → Prop}

theorem leaves_map {o : Outcome α} {g : α → β} (h : o.Leaves Q) (hg : ∀ a, Q a → R (g a)) :
    (o.map g).Leaves R := ⟨hg _ h.1, h.2⟩

theorem leaves_done {a : α} (h : Q a) : (Outcome.done a).Leaves Q := ⟨h, everywhere_none⟩

theorem leaves_failed {a : α} {e : Failure Value} (h : Q a) (he : WellFormed e) :
    (Outcome.failed a e).Leaves Q := ⟨h, he⟩

theorem leaves_wellFormed [HasNodes α] {o : Outcome α} : o.Leaves WellFormed ↔ WellFormed o :=
  everywhere_outcome.symm

end Leaves

/-- The array is well-formed and has `n` elements. -/
def Arr.Sound (n : Nat) (a : Arr Value) : Prop := WellFormed a ∧ a.len = n

/-! ## Loops -/

theorem Window.InBounds.updateEach {α β : Type} {c : Scope} {w : Window α} {f : α → β → α}
    {entries : List (Nat × β)} (h : w.InBounds) :
    (w.updateEach c f entries).InBounds ∧ (w.updateEach c f entries).len = w.len := by
  have hlength (buf : List α) (off : Nat) :
      (entries.foldl (fun buf e => buf.modify (off + e.1) (f · e.2)) buf).length =
        buf.length := by
    induction entries generalizing buf with
    | nil => rfl
    | cons e rest ih => simp [ih]
  have hprivate := h.makePrivate c
  refine ⟨?_, h.len_makePrivate c⟩
  exact Nat.le_trans hprivate (Nat.le_of_eq (hlength _ _).symm)

/-- A loop ran over the window of the first array, and left the second. -/
inductive Arr.Looped (c : Scope) : Arr Value → Arr Value → Prop where
  | bools {β : Type} (w : Window Bool) (f : Bool → β → Bool) (entries : List (Nat × β)) :
    Looped c (bools w) (bools (w.updateEach c f entries))
  | ints {β : Type} (w : Window Int64) (f : Int64 → β → Int64) (entries : List (Nat × β)) :
    Looped c (ints w) (ints (w.updateEach c f entries))
  | floats {β : Type} (w : Window Double) (f : Double → β → Double) (entries : List (Nat × β)) :
    Looped c (floats w) (floats (w.updateEach c f entries))
  | strs {β : Type} (w : Window String) (f : String → β → String) (entries : List (Nat × β)) :
    Looped c (strs w) (strs (w.updateEach c f entries))

theorem looped_of_loopOne? {c : Scope} {b : Builtin} {ps : List Nat} {a e : Arr Value}
    (h : a.loopOne? c b ps = some e) : a.Looped c e := by
  unfold Arr.loopOne? at h
  split at h
  · split at h <;> cases h
    exact .bools ..
  · split at h <;> cases h
    · exact .ints ..
    · exact .ints ..
  · split at h <;> cases h
    exact .floats ..
  · cases h

theorem looped_of_loopTwo? {c : Scope} {b : Builtin} {ps : List Nat} {z : Operands}
    {a e : Arr Value} (h : a.loopTwo? c b ps z = some e) : a.Looped c e := by
  unfold Arr.loopTwo? at h
  split at h
  · obtain ⟨f, -, h⟩ := Option.bind_eq_some_iff.1 h
    obtain ⟨ns, -, h⟩ := Option.bind_eq_some_iff.1 h
    cases h
    exact .ints ..
  · split at h
    · obtain ⟨xs, -, h⟩ := Option.bind_eq_some_iff.1 h
      cases h
      exact .floats ..
    · obtain ⟨f, -, h⟩ := Option.bind_eq_some_iff.1 h
      split at h <;> cases h
      · exact .floats ..
      · exact .floats ..
  · split at h
    · obtain ⟨ns, -, h⟩ := Option.bind_eq_some_iff.1 h
      split at h <;> cases h
      exact .bools ..
    · cases h
  · split at h
    · obtain ⟨ss, -, h⟩ := Option.bind_eq_some_iff.1 h
      cases h
      exact .strs ..
    · cases h
  · cases h

theorem looped_of_loop? {c : Scope} {f : Value} {ps : List Nat} {z : Operands} {a e : Arr Value}
    (h : a.loop? c f ps z = some e) : a.Looped c e := by
  unfold Arr.loop? at h
  split at h
  · split at h
    · cases h
    split at h
    · exact looped_of_loopOne? h
    · exact looped_of_loopTwo? h
  · cases h

theorem Arr.Looped.sound {c : Scope} {a b : Arr Value} (h : a.Looped c b) (ha : WellFormed a) :
    b.Sound a.len := by
  have hb := ha.inBounds
  cases h with
  | bools w => exact ⟨(everywhere_bools _).2 (Window.InBounds.updateEach hb).1,
      (Window.InBounds.updateEach hb).2⟩
  | ints w => exact ⟨(everywhere_ints _).2 (Window.InBounds.updateEach hb).1,
      (Window.InBounds.updateEach hb).2⟩
  | floats w => exact ⟨(everywhere_floats _).2 (Window.InBounds.updateEach hb).1,
      (Window.InBounds.updateEach hb).2⟩
  | strs w => exact ⟨(everywhere_strs _).2 (Window.InBounds.updateEach hb).1,
      (Window.InBounds.updateEach hb).2⟩

/-! ## Amends of arrays -/

theorem leaves_revise {c : Scope} {steps : List Step} {a : Arr Value} {n : Nat} (ha : a.Sound n)
    (hsteps : ∀ s ∈ steps, ∀ v, WellFormed v → WellFormed (s.run v)) :
    (a.revise c steps).Leaves (Arr.Sound n) := by
  obtain ⟨hwf, hlen⟩ := wellFormed_revise (c := c) ha.1 hsteps
  obtain ⟨hslot, hfailure⟩ := everywhere_outcome.1 hwf
  exact ⟨⟨hslot, hlen.trans ha.2⟩, hfailure⟩

section Callee

variable {settings : Settings} {f : Callee}

theorem leaves_amendAt (hf : f.Safe) {c : Scope} {a : Arr Value} {n : Nat} {sel : Selection}
    {z : Option Value} (ha : a.Sound n) (hz : WellFormed z) :
    (a.amendAt settings c sel f z).Leaves (Arr.Sound n) := by
  have hoperands := everywhere_operands f sel hz
  unfold Arr.amendAt
  split
  · rename_i e he
    rw [he] at hoperands
    exact leaves_failed ha hoperands
  · rename_i operands hop
    rw [hop] at hoperands
    simp only
    split
    · rename_i b hb
      split at hb
      · exact leaves_done (ha.2 ▸ (looped_of_loop? hb).sound ha.1)
      · cases hb
    · refine leaves_revise ha fun s hs v hv => ?_
      obtain ⟨⟨i, k⟩, -, rfl⟩ := List.mem_map.1 hs
      have hoperand := everywhere_toList.2 (Operands.everywhere_at? hoperands k)
      exact hf _ _ ((everywhere_cons ..).2 ⟨hv, hoperand⟩)

/-- An amend of arrays that keeps them sound. -/
def ArrUpdate.Safe (u : ArrUpdate) : Prop :=
  ∀ c a n z, Arr.Sound n a → WellFormed z → (u c a z).Leaves (Arr.Sound n)

theorem leaves_amendInTurn {z : Operands} (hz : WellFormed z) {us : List ArrUpdate}
    (hus : ∀ u ∈ us, ArrUpdate.Safe u) {c : Scope} {k : Nat} {a : Arr Value} {n : Nat}
    (ha : a.Sound n) : (amendInTurn z c k us a).Leaves (Arr.Sound n) := by
  induction us generalizing k a with
  | nil => exact leaves_done ha
  | cons u us ih =>
    simp only [List.mem_cons, forall_eq_or_imp] at hus
    have hu := hus.1 (c.sub k) a n (z.at? k) ha (Operands.everywhere_at? hz k)
    simp only [amendInTurn]
    split
    · rename_i b e h
      rw [h] at hu
      exact hu
    · rename_i b h
      rw [h] at hu
      exact ih hus.2 hu.1

theorem safe_amendAtIndex (hf : f.Safe) (y : Value) :
    ArrUpdate.Safe (amendAtIndex settings f y) := by
  intro c a n z ha hz
  have hsel : WellFormed (Selection.ofIndex a.len y) := everywhere_ofIndex a.len y
  unfold amendAtIndex
  split
  · rename_i e he
    rw [he] at hsel
    exact leaves_failed ha hsel
  · exact leaves_amendAt hf ha hz

theorem safe_amendFn (hf : f.Safe) {y : Value} (hy : WellFormed y) :
    ArrUpdate.Safe (amendFn settings f y) := by
  induction y using Value.nest_induction with
  | leaf y hleaf =>
    rw [amendFn_of_not_list settings f (by rintro w rfl; cases hleaf)]
    exact safe_amendAtIndex hf y
  | dict s keys vals _ _ => exact safe_amendAtIndex hf _
  | error s v _ => exact safe_amendAtIndex hf _
  | array y ih =>
    cases y with
    | list w =>
      have hcells := everywhere_iff_forall.1 (wellFormed_arr.1 ((everywhere_array _).1 hy)).2
      intro c a n z ha hz
      have hoperands := everywhere_forMany w.len hz
      rw [amendFn_list]
      split
      · rename_i e he
        rw [he] at hoperands
        exact leaves_failed ha hoperands
      · rename_i operands hop
        rw [hop] at hoperands
        refine leaves_amendInTurn hoperands (fun u hu => ?_) ha
        obtain ⟨v, hv, rfl⟩ := List.mem_map.1 hu
        have hmem := Window.mem_of_mem_items hv
        exact ih v hmem (hcells v hmem)
    | _ => exact safe_amendAtIndex hf _

theorem leaves_arrAmend (hf : f.Safe) {c : Scope} {a : Arr Value} {n : Nat} {y : Value}
    {z : Option Value} (ha : a.Sound n) (hy : WellFormed y) (hz : WellFormed z) :
    (a.amend settings c y f z).Leaves (Arr.Sound n) :=
  safe_amendFn hf hy c a n z ha hz

/-! ## Amends of dictionaries -/

theorem paired_appendKey {c : Scope} {d : Dict Value} {k : Value} (hd : d.Paired)
    (hk : WellFormed k) : (d.appendKey c k).Paired := by
  obtain ⟨hlen, hkeys, hvals⟩ := hd
  have hpad := fits_closedUnderOperators.padding (c.site.sub 3) d.vals
  refine ⟨?_, wellFormed_canonical (wellFormed_push hkeys hk), wellFormed_push hvals hpad⟩
  simp only [Dict.appendKey]
  rw [len_canonical (wellFormed_push hkeys hk), len_push hkeys hk, len_push hvals hpad, hlen]

theorem paired_appendKeys {c : Scope} {d : Dict Value} {ks : List Value} (hd : d.Paired)
    (hks : WellFormed ks) : (d.appendKeys c ks).Paired := by
  rw [Dict.appendKeys_eq]
  generalize 0 = n
  induction ks generalizing n d with
  | nil => exact hd
  | cons k ks ih =>
    obtain ⟨hk, hks⟩ := (everywhere_cons ..).1 hks
    exact ih (paired_appendKey hd hk) hks (n + 1)

theorem leaves_dictAmend (hf : f.Safe) {c : Scope} {d : Dict Value} {y : Value}
    {z : Option Value} (hd : d.Paired) (hy : WellFormed y) (hz : WellFormed z) :
    (d.amend settings c y f z).Leaves Dict.Paired := by
  have hoperands := everywhere_operands f (d.placement settings y).selection hz
  unfold Dict.amend
  simp only
  split
  · rename_i e he
    rw [he] at hoperands
    exact leaves_failed hd hoperands
  · obtain ⟨hlen, hk, hv⟩ := paired_appendKeys (c := c.sub 0) hd
      (everywhere_missing settings d hy)
    exact leaves_map (leaves_amendAt hf ⟨hv, rfl⟩ hz) fun vals hvals =>
      ⟨hlen.trans hvals.2.symm, hk, hvals.1⟩

/-! ## Amends of values -/

theorem wellFormed_amend (hf : f.Safe) {c : Scope} {x y : Value} {z : Option Value}
    (hx : WellFormed x) (hy : WellFormed y) (hz : WellFormed z) :
    WellFormed (x.amend settings c y f z) := by
  rw [← leaves_wellFormed]
  cases x with
  | array a =>
    exact leaves_map (leaves_arrAmend hf ⟨(everywhere_array a).1 hx, rfl⟩ hy hz) fun b hb =>
      (everywhere_array b).2 hb.1
  | dict s d =>
    exact leaves_map (leaves_dictAmend hf (wellFormed_dict.1 hx) hy hz) fun e he =>
      wellFormed_ofPaired he
  | _ => exact leaves_failed hx (everywhere_failure rfl)

/-- An update of values that keeps them well-formed. -/
def ValueUpdate.Safe (u : ValueUpdate) : Prop :=
  ∀ c x z, WellFormed x → WellFormed z → WellFormed (u c x z)

theorem leaves_amendElements {update : ValueUpdate} (hu : update.Safe) {z : Operands}
    (hz : WellFormed z) {c : Scope} {k : Nat} {ps : List Nat} {w : Window Value} {n : Nat}
    (hw : (Arr.list w).Sound n) :
    (amendElements update z c k ps w).Leaves fun u => (Arr.list u).Sound n := by
  induction ps generalizing k w with
  | nil => exact leaves_done hw
  | cons i rest ih =>
    simp only [amendElements]
    split
    · exact leaves_failed hw (everywhere_failure rfl)
    · rename_i slot hslot
      have hwf : WellFormed slot :=
        everywhere_iff_forall.1 (everywhere_values hw.1) slot (List.mem_of_getElem? hslot)
      have ho := everywhere_outcome.1
        (hu ((c.sub (k + 1)).beside (w.buf.eraseIdx (w.off + i))) slot (z.at? k) hwf
          (Operands.everywhere_at? hz k))
      -- What the update of the element leaves, whatever it is.
      generalize update _ slot (z.at? k) = o at ho
      have hset : (Arr.list { w with buf := w.buf.set (w.off + i) o.slot }).Sound n :=
        ⟨wellFormed_setCell hw.1 _ ho.1, hw.2⟩
      split
      · rename_i e he
        rw [he] at ho
        exact leaves_failed hset ho.2
      · exact ih hset

theorem leaves_arrAmendElements {update : ValueUpdate} (hu : update.Safe) {z : Operands}
    (hz : WellFormed z) {c : Scope} {ps : List Nat} {a : Arr Value} {n : Nat} (ha : a.Sound n) :
    (a.amendElements update z c ps).Leaves (Arr.Sound n) := by
  cases a with
  | list w =>
    refine leaves_map (leaves_amendElements hu hz (n := n) ?_) fun u hu => hu
    obtain ⟨hb, hcells⟩ := (everywhere_list w).1 ha.1
    have hprivate := Window.InBounds.makePrivate hb (c.sub 0)
    refine ⟨(everywhere_list _).2 ⟨hprivate, everywhere_iff_forall.2 fun v hv => ?_⟩, ?_⟩
    · exact everywhere_iff_forall.1 hcells v (Window.mem_makePrivate hv)
    · exact (Window.InBounds.len_makePrivate hb (c.sub 0)).trans ha.2
  | _ => exact leaves_done ha

theorem safe_amendAlong (hf : f.Safe) {path : List Value} (hpath : WellFormed path) :
    ValueUpdate.Safe (Value.amendAlong settings f path) := by
  induction path with
  | nil =>
    intro c x z hx hz
    have hcall := hf c.site (x :: z.toList) ((everywhere_cons ..).2 ⟨hx, everywhere_toList.2 hz⟩)
    simp only [Value.amendAlong]
    split
    · rename_i v hv
      rw [hv] at hcall
      exact (everywhere_done v).2 hcall
    · rename_i e he
      rw [he] at hcall
      exact (everywhere_failed x e).2 ⟨hx, hcall⟩
  | cons y rest ih =>
    obtain ⟨hy, hrest⟩ := (everywhere_cons ..).1 hpath
    cases rest with
    | nil => exact fun c x z hx hz => wellFormed_amend hf hx hy hz
    | cons next rest =>
      intro c x z hx hz
      have hlevel := level_amendAlong settings f y next rest c x z
      rw [← leaves_wellFormed]
      generalize Value.amendAlong settings f (y :: next :: rest) c x z = o at hlevel ⊢
      cases hlevel with
      | refused x holds => exact leaves_failed hx (holds _ hz)
      | idle x => exact leaves_done hx
      | @array a sel operands opens selects holds =>
        have ha : WellFormed a := (everywhere_array a).1 hx
        exact leaves_map (leaves_arrAmendElements (ih hrest) (holds _ hz) ⟨ha, rfl⟩)
          fun b hb => (everywhere_array b).2 hb.1
      | @dict s d operands opens selects holds =>
        -- No element is added or lost, so keys and values are as many after as before.
        obtain ⟨hlen, hk, hv⟩ := paired_appendKeys (c := c.sub 0) (wellFormed_dict.1 hx)
          (everywhere_missing settings d hy)
        exact leaves_map (leaves_arrAmendElements (ih hrest) (holds _ hz) ⟨hv, rfl⟩)
          fun vals hvals => wellFormed_dict.2 ⟨hlen.trans hvals.2.symm, hk, hvals.1⟩

theorem wellFormed_amendPath (hf : f.Safe) {c : Scope} {x path : Value} {z : Option Value}
    (hx : WellFormed x) (hpath : WellFormed path) (hz : WellFormed z) :
    WellFormed (x.amendPath settings c path f z) := by
  unfold Value.amendPath
  simp only
  split
  · exact everywhere_failed_of_cause hx rfl
  · exact safe_amendAlong hf (everywhere_components hpath) c x z hx hz

end Callee

end SharedArrays
