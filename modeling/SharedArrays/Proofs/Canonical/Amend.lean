import SharedArrays.Proofs.Canonical.Operators
import SharedArrays.Proofs.Descent

/-!
# Amends leave deep-canonical values

An amend at positions ends by moving the array to canonical storage. An amend along a path does not:
it leaves the outer lists as they are. But it goes on only below containers, and what it leaves in
their place are containers, so that the outer lists have no chance to become loose. New keys are
moved to canonical storage one by one, and the neutral values beside them do not make a list
loose that was not.

## Main definitions

* `Callee.Neat` — a function that answers neat values
* `Value.KeepsCanonical` — a function value that answers deep-canonical values

## Main results

* `neat_amendAt`, `neat_amendFn`, `neat_appendKeys`, `neat_dictAmend` — amends of one container
* `neat_amendAlong` — amends along paths
* `results_deepCanonical` — amends, merges and operators
-/

namespace SharedArrays

/-- The function answers neat values to neat arguments, and its failures are well-formed. -/
structure Callee.Neat (f : Callee) : Prop where
  safe : f.Safe
  yields : ∀ s args, (∀ v ∈ args, v.Neat) → Yields Value.Neat (f.call s args)

section Callee

variable {settings : Settings} {f : Callee} {c : Scope}

/-! ## Right operands -/

/-- The right operands are neat, an array of them with its elements. -/
def Operands.Neat (z : Operands) : Prop := ∀ k, ∀ v ∈ z.at? k, v.Neat

/-- One element for each position; the array of them may be loose. -/
theorem neat_forMany_array {count : Nat} {a : Arr Value} (ha : a.NeatElements) :
    Yields Operands.Neat (Operands.forMany count (some (.array a))) := by
  simp only [Operands.forMany]
  split
  · exact yields_ok fun k v hv => ha.neat (List.mem_of_getElem? hv)
  · exact yields_error _

theorem neat_forMany {count : Nat} {z : Option Value} (hz : ∀ v ∈ z, v.Neat) :
    Yields Operands.Neat (Operands.forMany count z) := by
  cases z with
  | none => exact yields_ok fun k => nofun
  | some z =>
    have hz := hz z rfl
    cases z with
    | array a => exact neat_forMany_array (neatElements_of_neat hz)
    | _ => exact yields_ok fun k v hv => Option.some.inj hv ▸ hz

theorem neat_ofSelection {sel : Selection} {z : Option Value} (hz : ∀ v ∈ z, v.Neat) :
    Yields Operands.Neat (Operands.ofSelection z sel) := by
  cases sel with
  | many ps => exact neat_forMany hz
  | one i =>
    refine yields_ok fun k v hv => ?_
    cases z with
    | none => cases hv
    | some z => exact hz v hv

theorem neat_operands {sel : Selection} {z : Option Value} (hz : ∀ v ∈ z, v.Neat) :
    Yields Operands.Neat (f.operands z sel) := by
  unfold Callee.operands
  split
  · exact neat_ofSelection hz
  · exact yields_error _

theorem wellFormed_operand {z : Option Value} (hz : ∀ v ∈ z, v.Neat) : WellFormed z := by
  cases z with
  | none => exact everywhere_none
  | some z => exact (hz z rfl).1

theorem neat_arguments {v : Value} {z : Option Value} (hv : v.Neat) (hz : ∀ u ∈ z, u.Neat) :
    ∀ u ∈ v :: z.toList, u.Neat :=
  List.forall_mem_cons.2 ⟨hv, fun u hu => hz u (Option.mem_toList.1 hu)⟩

/-! ## Amends of arrays -/

theorem kind_of_looped {a b : Arr Value} (h : a.Looped c b) : b.kind ≠ .list := by
  cases h <;> exact nofun

theorem neat_amendAt (hf : f.Neat) {a : Arr Value} {sel : Selection} {z : Option Value}
    (ha : (Value.array a).Neat) (hz : Yields Operands.Neat (f.operands z sel)) :
    (Value.array (a.amendAt settings c sel f z).slot).Neat := by
  have helements := neatElements_of_neat ha
  unfold Arr.amendAt
  split
  · exact ha
  · rename_i operands hop
    have hoperands : operands.Neat := hz operands hop
    simp only
    split
    · rename_i b hb
      split at hb
      · have hloop := looped_of_loop? hb
        exact neat_of_kind (hloop.sound helements.1).1 (kind_of_looped hloop)
      · cases hb
    · refine (neat_revise helements fun st hst v hv => ?_).1
      obtain ⟨⟨i, k⟩, -, rfl⟩ := List.mem_map.1 hst
      exact hf.yields _ _ (neat_arguments hv (hoperands k))

/-- An amend of arrays that leaves neat arrays. -/
def ArrUpdate.Neat (u : ArrUpdate) : Prop :=
  ∀ c a z, (Value.array a).Neat → (∀ v ∈ z, v.Neat) → (Value.array (u c a z).slot).Neat

theorem neat_amendInTurn {z : Operands} (hz : z.Neat) {us : List ArrUpdate}
    (hus : ∀ u ∈ us, ArrUpdate.Neat u) {k : Nat} {a : Arr Value} (ha : (Value.array a).Neat) :
    (Value.array (amendInTurn z c k us a).slot).Neat := by
  induction us generalizing k a with
  | nil => exact ha
  | cons u us ih =>
    obtain ⟨hu, hus⟩ := List.forall_mem_cons.1 hus
    have hslot := hu (c.sub k) a (z.at? k) ha (hz k)
    simp only [amendInTurn]
    split
    · rename_i b e h
      rwa [h] at hslot
    · rename_i b h
      rw [h] at hslot
      exact ih hus hslot

theorem neat_amendAtIndex (hf : f.Neat) (y : Value) :
    ArrUpdate.Neat (amendAtIndex settings f y) := by
  intro c a z ha hz
  unfold amendAtIndex
  split
  · exact ha
  · exact neat_amendAt hf ha (neat_operands hz)

/-- The index need not be deep-canonical itself. -/
theorem neat_amendFn (hf : f.Neat) (y : Value) : ArrUpdate.Neat (amendFn settings f y) := by
  induction y using Value.nest_induction with
  | leaf y hleaf =>
    rw [amendFn_of_not_list settings f (by rintro w rfl; cases hleaf)]
    exact neat_amendAtIndex hf y
  | dict s keys vals _ _ => exact neat_amendAtIndex hf _
  | error s v _ => exact neat_amendAtIndex hf _
  | array y ih =>
    cases y with
    | list w =>
      intro c a z ha hz
      rw [amendFn_list]
      split
      · exact ha
      · rename_i operands hop
        refine neat_amendInTurn (neat_forMany hz operands hop) (fun u hu => ?_) ha
        obtain ⟨v, hv, rfl⟩ := List.mem_map.1 hu
        exact ih v (Window.mem_of_mem_items hv)
    | _ => exact neat_amendAtIndex hf _

/-! ## Amends of dictionaries -/

theorem neat_neutral (s : Site) (v : Value) : (v.neutral s).Neat := by
  have hatom {u : Value} (h : Everywhere (fun _ => False) u) : u.Neat := neat_of_no_nodes h
  cases v with
  | int n => exact hatom (everywhere_int 0)
  | float x => exact hatom (everywhere_float 0)
  | str t => exact hatom (everywhere_str "")
  | array a => exact neat_empty s a.kind
  | dict t d =>
    have hempty : Dict.Paired (.empty s) :=
      ⟨rfl, wellFormed_empty (s.sub 0) .list, wellFormed_empty (s.sub 1) .list⟩
    exact neat_dict.2 ⟨hempty, (neat_empty (s.sub 0) .list).2, (neat_empty (s.sub 1) .list).2⟩
  | _ => exact hatom everywhere_nil

theorem neat_padding (s : Site) (a : Arr Value) : (a.padding s).Neat := by
  cases a with
  | list w =>
    simp only [Arr.padding]
    cases w.items.head? with
    | none => exact neat_of_no_nodes everywhere_nil
    | some v => exact neat_neutral s v
  | _ w => exact neat_of_no_nodes (by simp [Arr.padding])

theorem uniform_of_append {us vs : List Value} (h : Uniform (us ++ vs)) (hus : us ≠ []) :
    Uniform us := by
  rw [uniform_iff_exists] at h ⊢
  obtain ⟨-, k, hk, hall⟩ := h
  exact ⟨hus, k, hk, fun v hv => hall v (List.mem_append_left _ hv)⟩

/-- An array that is not loose stays so when it is padded: untagged arrays take their neutral
element, an empty list takes nil, and other lists have elements of more than one kind already. -/
theorem not_loose_push_padding {a : Arr Value} (ha : ¬a.Loose) (s : Site) :
    ¬(a.push c (a.padding s)).Loose := by
  cases a with
  | list w =>
    intro hloose
    have huniform : Uniform (w.items ++ [(Arr.list w).padding s]) := by
      have h := (Arr.loose_iff.1 hloose).2
      rwa [Arr.values_push] at h
    by_cases hnil : w.items = []
    · refine not_uniform_of_mem (v := .nil) ?_ rfl huniform
      simp [Arr.padding, hnil]
    · exact ha (uniform_of_append huniform hnil)
  | _ w => exact Arr.not_loose_of_kind (by rintro ⟨⟩)

theorem neat_appendKey {d : Dict Value} {k : Value} (hd : d.Neat) (hk : k.Neat) :
    (d.appendKey c k).Neat := by
  have hpaired := paired_appendKey (c := c) hd.1 hk.1
  have hkeys := neatElements_push (c := (c.sub 0).beside [.array d.vals])
    (neatElements_of_neat hd.keys) hk
  obtain ⟨helements, htight⟩ := neat_array.1 hd.vals
  refine ⟨hpaired, (neat_canonical hkeys).2, (neat_array.2 ⟨?_, ?_⟩).2⟩
  · exact neatElements_push helements (neat_padding _ _)
  · exact not_loose_push_padding htight _

theorem neat_appendKeys {d : Dict Value} {ks : List Value} (hd : d.Neat) (hks : ∀ k ∈ ks, k.Neat) :
    (d.appendKeys c ks).Neat := by
  rw [Dict.appendKeys_eq]
  generalize 0 = n
  induction ks generalizing n d with
  | nil => exact hd
  | cons k ks ih =>
    obtain ⟨hk, hks⟩ := List.forall_mem_cons.1 hks
    exact ih (neat_appendKey hd hk) hks (n + 1)

theorem neat_missing {d : Dict Value} {y : Value} (hy : y.Neat) :
    ∀ k ∈ (d.placement settings y).missing, k.Neat := by
  refine forall_missing settings d hy ?_
  rintro a rfl v hv
  exact (neatElements_of_neat hy).neat hv

/-- The keys are left as they are once the new ones are there. -/
theorem neat_dictAmend (hf : f.Neat) {d : Dict Value} {y : Value} {z : Option Value}
    (hd : d.Neat) (hy : y.Neat) (hz : ∀ v ∈ z, v.Neat) :
    (d.amend settings c y f z).slot.Neat := by
  have hpaired : (d.amend settings c y f z).slot.Paired :=
    (leaves_dictAmend hf.safe hd.1 hy.1 (wellFormed_operand hz)).1
  refine ⟨hpaired, ?_⟩
  unfold Dict.amend
  simp only
  split
  · exact hd.2
  · have hgrown : (d.appendKeys (c.sub 0) (d.placement settings y).missing).Neat :=
      neat_appendKeys hd (neat_missing hy)
    exact ⟨hgrown.2.1, (neat_amendAt hf hgrown.vals (neat_operands hz)).2⟩

theorem neat_amend (hf : f.Neat) {x y : Value} {z : Option Value} (hx : x.Neat) (hy : y.Neat)
    (hz : ∀ v ∈ z, v.Neat) : (x.amend settings c y f z).slot.Neat := by
  cases x with
  | array a => exact neat_amendFn hf y c a z hx hz
  | dict s d => exact neat_dict.2 (neat_dictAmend hf (neat_dict.1 hx) hy hz)
  | _ => exact hx

/-! ## Amends along paths -/

/-- An update of values that leaves neat values, and containers in the place of containers. -/
structure ValueUpdate.Neat (u : ValueUpdate) : Prop where
  safe : u.Safe
  neat : ∀ c x z, x.Neat → (∀ v ∈ z, v.Neat) → (u c x z).slot.Neat
  container : ∀ c x z, x.isContainer = true → (u c x z).slot.isContainer = true

/-- A slot of a list takes what an update leaves. -/
theorem items_setSlot (w : Window Value) (i : Nat) (v : Value) :
    ({ w with buf := w.buf.set (w.off + i) v } : Window Value).items = w.items.set i v :=
  stretch_set ..

theorem neatElements_setSlot {w : Window Value} (hw : (Arr.list w).NeatElements) (i : Nat)
    {v : Value} (hv : v.Neat) :
    (Arr.list { w with buf := w.buf.set (w.off + i) v }).NeatElements := by
  refine ⟨wellFormed_setCell hw.1 _ hv.1, fun u hu => ?_⟩
  rw [Arr.values, items_setSlot] at hu
  rcases List.mem_or_eq_of_mem_set hu with hu | rfl
  · exact hw.2 u hu
  · exact hv.2

/-- The elements stay neat, and where a container was, a container is. -/
theorem neatElements_amendElements {u : ValueUpdate} (hu : u.Neat) {z : Operands} (hz : z.Neat)
    {k : Nat} {ps : List Nat} {w : Window Value} (hw : (Arr.list w).NeatElements) {p : Nat}
    {x : Value} (hp : w.items[p]? = some x) (hx : x.isContainer = true) :
    (Arr.list (amendElements u z c k ps w).slot).NeatElements ∧
      ∃ x', (amendElements u z c k ps w).slot.items[p]? = some x' ∧ x'.isContainer = true := by
  induction ps generalizing k w x with
  | nil => exact ⟨hw, x, hp, hx⟩
  | cons i rest ih =>
    simp only [amendElements]
    split
    · exact ⟨hw, x, hp, hx⟩
    · rename_i slot hslot
      have hslot' := hw.neat (v := slot) (List.mem_of_getElem? hslot)
      have hneat := hu.neat ((c.sub (k + 1)).beside (w.buf.eraseIdx (w.off + i))) slot (z.at? k)
        hslot' (hz k)
      have hcontainer := hu.container ((c.sub (k + 1)).beside (w.buf.eraseIdx (w.off + i))) slot
        (z.at? k)
      -- What the update of the element leaves, whatever it is.
      generalize u _ slot (z.at? k) = o at hneat hcontainer
      have hset := neatElements_setSlot hw i hneat
      have hstays : ∃ x',
          ({ w with buf := w.buf.set (w.off + i) o.slot } : Window Value).items[p]? = some x' ∧
            x'.isContainer = true := by
        rw [items_setSlot]
        by_cases hip : i = p
        · subst hip
          obtain rfl : slot = x := Option.some.inj (hslot.symm.trans hp)
          refine ⟨o.slot, ?_, hcontainer hx⟩
          rw [List.getElem?_set_self (List.getElem?_eq_some_iff.1 hp).1]
        · exact ⟨x, (List.getElem?_set_ne hip).trans hp, hx⟩
      obtain ⟨x', hp', hx'⟩ := hstays
      split
      · exact ⟨hset, x', hp', hx'⟩
      · exact ih hset hp' hx'

/-- Below containers a level leaves a list that is not loose, since they stay containers. -/
theorem neat_arrAmendElements {u : ValueUpdate} (hu : u.Neat) {z : Operands} (hz : z.Neat)
    {ps : List Nat} {a : Arr Value} (ha : (Value.array a).Neat) {p : Nat} {x : Value}
    (hp : a.at? p = some x) (hx : x.isContainer = true) :
    (Value.array (a.amendElements u z c ps).slot).Neat := by
  cases a with
  | list w =>
    have helements : (Arr.list (w.makePrivate (c.sub 0))).NeatElements := by
      refine ⟨wellFormed_update (fun w hw _ => hw.makePrivate _)
        (fun _ _ h => Window.mem_makePrivate h) (neatElements_of_neat ha).1, ?_⟩
      rw [Arr.values, Window.items_makePrivate]
      exact (neatElements_of_neat ha).2
    obtain ⟨hneat, x', hp', hx'⟩ := neatElements_amendElements (c := c) (k := 0) hu hz
      helements (by rw [Window.items_makePrivate]; exact hp) hx
    refine neat_array.2 ⟨hneat, not_uniform_of_mem (List.mem_of_getElem? hp') ?_⟩
    cases x' <;> first | rfl | cases hx'
  | _ w => exact ha

/-- A path of at least one component leaves a container in the place of a container. -/
theorem isContainer_slot_amendAlong {y : Value} {rest : List Value} {x : Value} {z : Option Value}
    (hx : x.isContainer = true) :
    (Value.amendAlong settings f (y :: rest) c x z).slot.isContainer = true := by
  cases rest with
  | nil =>
    cases x with
    | array a | dict s d => rfl
    | _ => cases hx
  | cons next rest =>
    have hlevel := level_amendAlong settings f y next rest c x z
    generalize Value.amendAlong settings f (y :: next :: rest) c x z = o at hlevel ⊢
    cases hlevel with
    | refused x | idle x => exact hx
    | array | dict => rfl

theorem neat_amendAlong (hf : f.Neat) {path : List Value} (hpath : ∀ y ∈ path, y.Neat)
    (c : Scope) {x : Value} {z : Option Value} (hx : x.Neat) (hz : ∀ v ∈ z, v.Neat) :
    (Value.amendAlong settings f path c x z).slot.Neat := by
  induction path generalizing c x z with
  | nil =>
    simp only [Value.amendAlong]
    split
    · exact hf.yields _ _ (neat_arguments hx hz) _ ‹_›
    · exact hx
  | cons y rest ih =>
    obtain ⟨hy, hrest⟩ := List.forall_mem_cons.1 hpath
    cases rest with
    | nil => exact neat_amend hf hx hy hz
    | cons next rest =>
      have hu : ValueUpdate.Neat (Value.amendAlong settings f (next :: rest)) :=
        { safe := safe_amendAlong hf.safe (wellFormed_of_neat hrest)
          neat := fun c x z hx hz => ih hrest c hx hz
          container := fun _ _ _ => isContainer_slot_amendAlong }
      -- Keys and values stay in pairs, as they do for all well-formed values.
      have hwf : WellFormed (Value.amendAlong settings f (y :: next :: rest) c x z).slot :=
        (everywhere_outcome.1 (safe_amendAlong hf.safe (wellFormed_of_neat hpath) c x z hx.1
          (wellFormed_operand hz))).1
      have hlevel := level_amendAlong settings f y next rest c x z
      generalize Value.amendAlong settings f (y :: next :: rest) c x z = o at hlevel hwf ⊢
      cases hlevel with
      | refused x | idle x => exact hx
      | @array a sel operands opens selects holds =>
        obtain ⟨hsel, hop, hopen⟩ := Arr.openLevel_eq_ok.1 opens
        obtain ⟨p, hp⟩ := List.exists_mem_of_ne_nil _ selects
        have hslot := (ensureContainers_eq_ok selects).1 (hopen selects) p hp
        have hlt : p < a.values.length :=
          Nat.lt_of_lt_of_eq (Selection.lt_of_ofIndex hsel hp)
            (neatElements_of_neat hx).1.length_values.symm
        have hget : a.at? p = some a.values[p] := List.getElem?_eq_getElem hlt
        rw [Arr.slotAt, hget] at hslot
        exact neat_arrAmendElements hu (neat_operands hz operands hop) hx hget hslot
      | @dict s d operands opens selects holds =>
        have hd : d.Neat := neat_dict.1 hx
        have hgrown : (d.appendKeys (c.sub 0) (d.placement settings y).missing).Neat :=
          neat_appendKeys hd (neat_missing hy)
        obtain ⟨hop, hopen⟩ := Dict.openLevel_eq_ok.1 opens
        obtain ⟨p, hp⟩ := List.exists_mem_of_ne_nil _ selects
        have hslot := (ensureContainers_eq_ok selects).1 (hopen selects) p hp
        have hlt := placement_lt settings hd.1.2.1 y p hp
        have halike := alike_slot_appendKeys c.site (c.sub 0) hd.1 hlt
        rcases alike_option_cases halike with ⟨-, hnone⟩ | ⟨v, v', hv, hv', hvv⟩
        · cases hnone
        · cases hv'
          refine ⟨hwf, deepCanonical_dict.2 ⟨hgrown.2.1, ?_⟩⟩
          exact (neat_arrAmendElements hu (neat_operands hz operands hop) hgrown.vals hv
            (hvv.isContainer_eq.trans hslot)).2

theorem neat_amendBy (hf : f.Neat) (form : Form) {x y : Value} {z : Option Value} (hx : x.Neat)
    (hy : y.Neat) (hz : ∀ v ∈ z, v.Neat) : (x.amendBy settings form c y f z).slot.Neat := by
  cases form with
  | flat => exact neat_amend hf hx hy hz
  | path =>
    show (x.amendPath settings c y f z).slot.Neat
    unfold Value.amendPath
    simp only
    split
    · exact hx
    · refine neat_amendAlong hf (fun k hk => ?_) c hx hz
      cases y with
      | array a => exact (neatElements_of_neat hy).neat hk
      | _ => exact List.mem_singleton.1 hk ▸ hy

end Callee

/-! ## Amends, merges and operators -/

section Results

variable {settings : Settings} {f : Value}

/-- The function answers deep-canonical values to deep-canonical arguments. -/
def Value.KeepsCanonical (settings : Settings) (f : Value) : Prop :=
  ∀ s args r, (∀ v ∈ args, WellFormed v ∧ v.DeepCanonical) → f.apply settings s args = .ok r →
    r.DeepCanonical

theorem neat_ofValue (hf : WellFormed f) (hkeeps : f.KeepsCanonical settings) :
    (Callee.ofValue settings f).Neat where
  safe := safe_ofValue hf
  yields := by
    intro s args hargs r hr
    have hsafe : WellFormed ((Callee.ofValue settings f).call s args) :=
      safe_ofValue hf s args (wellFormed_of_neat hargs)
    rw [hr] at hsafe
    exact ⟨hsafe, hkeeps s args r hargs hr⟩

/-- Every operator is such a function. -/
theorem keepsCanonical_builtin (settings : Settings) (b : Builtin) :
    (Value.builtin b).KeepsCanonical settings := by
  intro s args r hargs hr
  have hyields : Yields Value.Neat ((Value.builtin b).apply settings s args) := by
    refine yields_bind (Q := Value.Neat) ?_ fun v hv => yields_settle hv
    match args with
    | [] => exact yields_error _
    | [x] => exact neat_monadic b (hargs x (List.mem_singleton_self x))
    | [x, y] =>
      obtain ⟨hx, hy⟩ := List.forall_mem_cons.1 hargs
      exact neat_dyadic b hx (hy y (List.mem_singleton_self y))
    | _ :: _ :: _ :: _ => exact yields_error _
  exact (hyields r hr).2

/-- The right values that a merge combines are selected from an array, and the selection may be
loose; only its elements matter. -/
theorem yields_merge {c : Scope} {l r : Dict Value} (hf : (Callee.ofValue settings f).Neat)
    (hl : l.Neat) (hr : r.Neat) : Yields Dict.Neat (l.merge settings c r f) := by
  refine neat_mergeWith hl hr fun common vals hvals => ?_
  obtain ⟨z, hz, hamend⟩ := bind_eq_ok.1 hvals
  have hzelements := neatElements_select (neatElements_of_neat hr.vals) hz
  have hoperands : Yields Operands.Neat ((Callee.ofValue settings f).operands (some (.array z))
      (.many (common.map (·.1)))) := by
    unfold Callee.operands
    split
    · exact neat_forMany_array hzelements
    · exact yields_error _
  have hleaves : (l.vals.amendAt settings ((c.sub 2).beside [.array l.vals])
      (.many (common.map (·.1))) (.ofValue settings f) (some (.array z))).Leaves
        (Arr.Sound l.vals.len) :=
    leaves_amendAt hf.safe ⟨hl.1.2.2, rfl⟩
      ((everywhere_some _).2 ((everywhere_array z).2 hzelements.1))
  exact yields_toResult (Q := fun vals => (Value.array vals).Neat ∧ vals.len = l.vals.len)
    ⟨neat_amendAt hf hl.vals hoperands, hleaves.1.2⟩ vals hamend

/-- Amends in place, merges and operators answer deep-canonical values to deep-canonical operands,
whatever the settings and the surroundings are, and an amend leaves one also where it fails. -/
theorem results_deepCanonical (settings : Settings) :
    (∀ f : Value, WellFormed f → f.KeepsCanonical settings →
      (∀ (form : Form) (c : Scope) (x y : Value) (z : Option Value),
        WellFormed x → WellFormed y → WellFormed z →
        x.DeepCanonical → y.DeepCanonical → (∀ v ∈ z, v.DeepCanonical) →
          (x.amendSlot settings form c y f z).slot.DeepCanonical) ∧
      ∀ (c : Scope) (l r m : Dict Value) (s t u : Site), l.Paired → r.Paired →
        (Value.dict s l).DeepCanonical → (Value.dict t r).DeepCanonical →
          l.merge settings c r f = .ok m → (Value.dict u m).DeepCanonical) ∧
    ∀ (b : Builtin) (s : Site) (x y r : Value), WellFormed x → WellFormed y →
      x.DeepCanonical → y.DeepCanonical →
        (b.monadic s x = .ok r → r.DeepCanonical) ∧ (b.dyadic s x y = .ok r → r.DeepCanonical) := by
  refine ⟨fun f hf hkeeps => ⟨?_, ?_⟩, ?_⟩
  · intro form c x y z hx hy hz hcx hcy hcz
    refine (neat_amendBy (neat_ofValue hf hkeeps) form ⟨hx, hcx⟩ ⟨hy, hcy⟩ fun v hv => ?_).2
    cases hv
    exact ⟨hz, hcz v rfl⟩
  · intro c l r m s t u hl hr hcl hcr hm
    have hl : l.Neat := ⟨hl, deepCanonical_dict.1 hcl⟩
    have hr : r.Neat := ⟨hr, deepCanonical_dict.1 hcr⟩
    exact (neat_dict.2 (yields_merge (neat_ofValue hf hkeeps) hl hr m hm)).2
  · intro b s x y r hx hy hcx hcy
    exact ⟨fun hr => (neat_monadic b ⟨hx, hcx⟩ r hr).2,
      fun hr => (neat_dyadic b ⟨hx, hcx⟩ ⟨hy, hcy⟩ r hr).2⟩

/-- The one string of a list gives way to an integer, and the list to an array of integers. A merge
adds the values of a common key, and a join puts integers and strings into one list. -/
theorem results_deepCanonical_mixed :
    let x : Value := .array (.list (.ofList ⟨[1]⟩ [.int 1, .str "a"]))
    let l : Dict Value := ⟨.strs (.ofList ⟨[2]⟩ ["k"]), .ints (.ofList ⟨[3]⟩ [4])⟩
    let c : Scope := ⟨[], ⟨[0]⟩⟩
    let slot := (x.amendSlot {} .flat c (.int 1) (.builtin .right) (some (.int 5))).slot
    (slot.DeepCanonical ∧ ∃ w, slot = .array (.ints w) ∧ w.items = [1, 5]) ∧
      (∃ m, l.merge {} c l (.builtin .add) = .ok m ∧ (Value.dict ⟨[5]⟩ m).DeepCanonical) ∧
      ∃ r, Builtin.join.dyadic ⟨[0]⟩ (.array l.vals) (.array l.keys) = .ok r ∧ r.DeepCanonical := by
  intro x l c slot
  obtain ⟨hcalls, hoperators⟩ := results_deepCanonical {}
  have hx : x.DeepCanonical := by
    refine deepCanonical_array.2 ⟨?_, fun v hv => ?_⟩
    · exact fun hloose => uniform_iff_tightKind.1 hloose (by decide)
    · rcases List.mem_cons.1 hv with rfl | hv
      · exact deepCanonical_int 1
      · exact List.mem_singleton.1 hv ▸ deepCanonical_of_not_container rfl
  have hkeys : (Value.array l.keys).DeepCanonical := deepCanonical_of_kind nofun
  have hvals : (Value.array l.vals).DeepCanonical := deepCanonical_of_kind nofun
  have hl : (Value.dict ⟨[4]⟩ l).DeepCanonical := deepCanonical_dict.2 ⟨hkeys, hvals⟩
  have hpaired : l.Paired := ⟨rfl, by decide, by decide⟩
  refine ⟨⟨?_, _, rfl, by decide⟩, ⟨_, rfl, ?_⟩, _, rfl, ?_⟩
  · refine (hcalls (.builtin .right) (by decide) (keepsCanonical_builtin {} .right)).1 .flat c x
      (.int 1) (some (.int 5)) (by decide) (by decide) (by decide) hx (deepCanonical_int 1) ?_
    rintro v ⟨⟩
    exact deepCanonical_int 5
  · exact (hcalls (.builtin .add) (by decide) (keepsCanonical_builtin {} .add)).2 c l l _ ⟨[4]⟩
      ⟨[4]⟩ ⟨[5]⟩ hpaired hpaired hl hl rfl
  · exact (hoperators .join ⟨[0]⟩ (.array l.vals) (.array l.keys) _ (by decide) (by decide) hvals
      hkeys).2 rfl

end Results

end SharedArrays
