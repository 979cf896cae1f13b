import SharedArrays.Proofs.Closed.Calls
import SharedArrays.Proofs.Flags.Operators
import SharedArrays.Proofs.WellFormed.Amend

/-!
# Amends leave truthful values

Whatever an amend writes to, it makes private first, and this takes the flags back. It does so also
in a loop for a single variant, and on the way along a path. So what is left in the slot is
truthful whether the amend goes through or fails, as long as the update function answers truthful
values.

## Main definitions

* `ArrUpdate.Honest`, `ValueUpdate.Honest` — an update that leaves truthful values

## Main results

* `truthful_amendAt`, `honest_amendFn` — amends of arrays
* `truthful_appendKeys`, `truthful_dictAmend` — amends of dictionaries
* `honest_amendAlong` — amends along a path
* `flagsHold_closedUnderCalls` — calls of function values, and running bodies
-/

namespace SharedArrays

/-- Every loop takes the flags back. -/
theorem Arr.Looped.truthful {c : Scope} {a b : Arr Value} (h : a.Looped c b) : Truthful b := by
  have hflags {α β : Type} (w : Window α) (f : α → β → α) (entries : List (Nat × β)) :
      (w.updateEach c f entries).flags.Silent := by
    rw [show (w.updateEach c f entries).flags = {} from w.flags_makePrivate c]
    exact Flags.silent_default
  cases h <;> exact truthful_of_silent (hflags ..) everywhere_empty

section Callee

variable {settings : Settings} {f : Callee} {c : Scope} {z : Option Value}

/-! ## Amends of arrays -/

theorem truthful_amendAt (hf : f.Maintains Value.FlagsHold) {a : Arr Value} {sel : Selection}
    (ha : Truthful a) (hz : Truthful z) : Truthful (a.amendAt settings c sel f z) := by
  have hoperands := everywhere_operands f sel hz
  unfold Arr.amendAt
  split
  · rename_i e he
    rw [he] at hoperands
    exact (everywhere_failed ..).2 ⟨ha, hoperands⟩
  · rename_i operands hop
    rw [hop] at hoperands
    simp only
    split
    · rename_i b hb
      split at hb
      · exact (everywhere_done b).2 (looped_of_loop? hb).truthful
      · cases hb
    · refine truthful_revise _ ha fun st hst v hv => ?_
      obtain ⟨⟨i, k⟩, -, rfl⟩ := List.mem_map.1 hst
      have hoperand := everywhere_toList.2 (Operands.everywhere_at? hoperands k)
      exact hf _ _ ((everywhere_cons ..).2 ⟨hv, hoperand⟩)

/-- An amend of arrays that leaves truthful arrays. -/
def ArrUpdate.Honest (u : ArrUpdate) : Prop :=
  ∀ c a z, Truthful a → Truthful z → Truthful (u c a z)

theorem truthful_amendInTurn {operands : Operands} (hoperands : Truthful operands)
    {us : List ArrUpdate} (hus : ∀ u ∈ us, ArrUpdate.Honest u) {k : Nat} {a : Arr Value}
    (ha : Truthful a) : Truthful (amendInTurn operands c k us a) := by
  induction us generalizing k a with
  | nil => exact (everywhere_done a).2 ha
  | cons u us ih =>
    obtain ⟨hu, hus⟩ := List.forall_mem_cons.1 hus
    have hfirst := hu (c.sub k) a (operands.at? k) ha (Operands.everywhere_at? hoperands k)
    simp only [amendInTurn]
    split
    · rename_i b e h
      rw [h] at hfirst
      exact hfirst
    · rename_i b h
      rw [h] at hfirst
      exact ih hus (everywhere_outcome.1 hfirst).1

theorem honest_amendAtIndex (hf : f.Maintains Value.FlagsHold) (y : Value) :
    ArrUpdate.Honest (amendAtIndex settings f y) := by
  intro c a z ha hz
  have hsel : Truthful (Selection.ofIndex a.len y) := everywhere_ofIndex a.len y
  unfold amendAtIndex
  split
  · rename_i e he
    rw [he] at hsel
    exact (everywhere_failed ..).2 ⟨ha, hsel⟩
  · exact truthful_amendAt hf ha hz

theorem honest_amendFn (hf : f.Maintains Value.FlagsHold) (y : Value) :
    ArrUpdate.Honest (amendFn settings f y) := by
  induction y using Value.nest_induction with
  | leaf y hleaf =>
    rw [amendFn_of_not_list settings f (by rintro w rfl; cases hleaf)]
    exact honest_amendAtIndex hf y
  | dict s keys vals _ _ => exact honest_amendAtIndex hf _
  | error s v _ => exact honest_amendAtIndex hf _
  | array y ih =>
    cases y with
    | list w =>
      intro c a z ha hz
      have hoperands := everywhere_forMany w.len hz
      rw [amendFn_list]
      split
      · rename_i e he
        rw [he] at hoperands
        exact (everywhere_failed ..).2 ⟨ha, hoperands⟩
      · rename_i operands hop
        rw [hop] at hoperands
        refine truthful_amendInTurn hoperands (fun u hu => ?_) ha
        obtain ⟨v, hv, rfl⟩ := List.mem_map.1 hu
        exact ih v (Window.mem_of_mem_items hv)
    | _ => exact honest_amendAtIndex hf _

/-! ## Amends of dictionaries -/

theorem truthful_appendKey {d : Dict Value} {k : Value} (hd : Truthful d) (hk : Truthful k) :
    Truthful (d.appendKey c k) := by
  obtain ⟨hkeys, hvals⟩ := everywhere_entries.1 hd
  exact everywhere_entries.2 ⟨truthful_canonical (truthful_push hkeys hk),
    truthful_push hvals (flagsHold_closedUnderOperators.padding _ d.vals)⟩

theorem truthful_appendKeys {d : Dict Value} {ks : List Value} (hd : Truthful d)
    (hks : Truthful ks) : Truthful (d.appendKeys c ks) := by
  rw [Dict.appendKeys_eq]
  generalize 0 = n
  induction ks generalizing n d with
  | nil => exact hd
  | cons k ks ih =>
    obtain ⟨hk, hks⟩ := (everywhere_cons ..).1 hks
    exact ih (truthful_appendKey hd hk) hks (n + 1)

theorem truthful_dictAmend (hf : f.Maintains Value.FlagsHold) {d : Dict Value} {y : Value}
    (hd : Truthful d) (hy : Truthful y) (hz : Truthful z) :
    Truthful (d.amend settings c y f z) := by
  have hoperands := everywhere_operands f (d.placement settings y).selection hz
  unfold Dict.amend
  simp only
  split
  · rename_i e he
    rw [he] at hoperands
    exact (everywhere_failed ..).2 ⟨hd, hoperands⟩
  · have hgrown := truthful_appendKeys (c := c.sub 0) hd (everywhere_missing settings d hy)
    obtain ⟨hkeys, hvals⟩ := everywhere_entries.1 hgrown
    obtain ⟨hslot, hfailure⟩ := everywhere_outcome.1 (truthful_amendAt hf hvals hz)
    exact everywhere_outcome.2 ⟨everywhere_entries.2 ⟨hkeys, hslot⟩, hfailure⟩

/-! ## Amends of values -/

theorem truthful_amend (hf : f.Maintains Value.FlagsHold) {x y : Value} (hx : Truthful x)
    (hy : Truthful y) (hz : Truthful z) : Truthful (x.amend settings c y f z) := by
  cases x with
  | array a => exact honest_amendFn hf y c a z ((everywhere_array a).1 hx) hz
  | dict s d =>
    obtain ⟨hslot, hfailure⟩ :=
      everywhere_outcome.1 (truthful_dictAmend hf (truthful_dict.1 hx) hy hz)
    exact everywhere_outcome.2 ⟨truthful_dict.2 hslot, hfailure⟩
  | _ => exact everywhere_failed_of_cause hx rfl

/-- An update of values that leaves truthful values. -/
def ValueUpdate.Honest (u : ValueUpdate) : Prop :=
  ∀ c x z, Truthful x → Truthful z → Truthful (u c x z)

/-- The list has been made private before, so its flags say nothing while its elements change. -/
theorem truthful_amendElements {update : ValueUpdate} (hu : update.Honest) {operands : Operands}
    (hoperands : Truthful operands) {k : Nat} {ps : List Nat} {w : Window Value}
    (hflags : w.flags.Silent) (hw : Truthful w.buf) :
    Truthful ((amendElements update operands c k ps w).map Arr.list) := by
  induction ps generalizing k w with
  | nil => exact (everywhere_done _).2 (truthful_of_silent hflags hw)
  | cons i rest ih =>
    simp only [amendElements]
    split
    · exact everywhere_failed_of_cause (truthful_of_silent (a := .list w) hflags hw) rfl
    · rename_i slot hslot
      have hold : Truthful slot := everywhere_iff_forall.1 hw slot
        (Window.mem_of_mem_items (List.mem_of_getElem? hslot))
      have ho := everywhere_outcome.1
        (hu ((c.sub (k + 1)).beside (w.buf.eraseIdx (w.off + i))) slot (operands.at? k) hold
          (Operands.everywhere_at? hoperands k))
      -- What the update of the element leaves, whatever it is.
      generalize update _ slot (operands.at? k) = o at ho
      have hset := truthful_set (i := w.off + i) hw ho.1
      split
      · rename_i e he
        rw [he] at ho
        have hrest : Truthful (Arr.list { w with buf := w.buf.set (w.off + i) o.slot }) :=
          truthful_of_silent hflags hset
        exact (everywhere_failed ..).2 ⟨hrest, ho.2⟩
      · exact ih hflags hset

theorem truthful_arrAmendElements {update : ValueUpdate} (hu : update.Honest)
    {operands : Operands} (hoperands : Truthful operands) {ps : List Nat} {a : Arr Value}
    (ha : Truthful a) : Truthful (a.amendElements update operands c ps) := by
  cases a with
  | list w =>
    have hcells := everywhere_iff_forall.1 (truthful_arr.1 ha).2
    refine truthful_amendElements hu hoperands ?_ (everywhere_iff_forall.2 fun v hv => ?_)
    · rw [Window.flags_makePrivate]
      exact Flags.silent_default
    · exact hcells v (Window.mem_makePrivate hv)
  | _ => exact (everywhere_done _).2 ha

theorem honest_amendAlong (hf : f.Maintains Value.FlagsHold) {path : List Value}
    (hpath : Truthful path) : ValueUpdate.Honest (Value.amendAlong settings f path) := by
  induction path with
  | nil =>
    intro c x z hx hz
    have hcall := hf c.site (x :: z.toList) ((everywhere_cons ..).2 ⟨hx, everywhere_toList.2 hz⟩)
    simp only [Value.amendAlong]
    split
    · rename_i v hv
      rw [hv] at hcall
      exact (everywhere_done v).2 hcall
    · rename_i e he
      rw [he] at hcall
      exact (everywhere_failed x e).2 ⟨hx, hcall⟩
  | cons y rest ih =>
    obtain ⟨hy, hrest⟩ := (everywhere_cons ..).1 hpath
    cases rest with
    | nil => exact fun c x z hx hz => truthful_amend hf hx hy hz
    | cons next rest =>
      have hu := ih hrest
      intro c x z hx hz
      have hlevel := level_amendAlong settings f y next rest c x z
      generalize Value.amendAlong settings f (y :: next :: rest) c x z = o at hlevel ⊢
      cases hlevel with
      | refused x holds => exact (everywhere_failed ..).2 ⟨hx, holds _ hz⟩
      | idle x => exact (everywhere_done _).2 hx
      | @array a sel operands opens selects holds =>
        exact truthful_arrAmendElements hu (holds _ hz) ((everywhere_array a).1 hx)
      | @dict s d operands opens selects holds =>
        have hgrown :=
          truthful_appendKeys (c := c.sub 0) (truthful_dict.1 hx) (everywhere_missing settings d hy)
        obtain ⟨hkeys, hvals⟩ := everywhere_entries.1 hgrown
        obtain ⟨hslot, hfailure⟩ :=
          everywhere_outcome.1 (truthful_arrAmendElements hu (holds _ hz) hvals)
        exact everywhere_outcome.2
          ⟨truthful_dict.2 (everywhere_entries.2 ⟨hkeys, hslot⟩), hfailure⟩

theorem truthful_amendBy (hf : f.Maintains Value.FlagsHold) {form : Form} {x y : Value}
    (hx : Truthful x) (hy : Truthful y) (hz : Truthful z) :
    Truthful (x.amendBy settings form c y f z) := by
  have hpath : Truthful (x.amendPath settings c y f z) := by
    unfold Value.amendPath
    simp only
    split
    · exact everywhere_failed_of_cause hx rfl
    · exact honest_amendAlong hf (everywhere_components hy) c x z hx hz
  cases form with
  | flat => exact everywhere_noted.2 (truthful_amend hf hx hy hz)
  | path => exact everywhere_noted.2 hpath

end Callee

/-! ## Calls -/

theorem flagsHold_closedUnderCalls (settings : Settings) :
    ClosedUnderCalls settings Value.FlagsHold where
  toClosedUnderOperators := flagsHold_closedUnderOperators
  error _ _ := trivial
  project _ _ _ := trivial
  amendBy _ _ _ _ _ _ hf hx hy hz := truthful_amendBy hf hx hy hz

end SharedArrays
