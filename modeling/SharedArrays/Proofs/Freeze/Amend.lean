import SharedArrays.Proofs.Freeze.Moves

/-!
# Amends of pinned arrays

Every amend moves what is pinned before it writes to it: amends of arrays at the positions of an
index, amends of dictionaries, which may append keys first, and amends along paths, which do so at
each level that they come to.

## Main definitions

* `ArrUpdate.Moves`, `ValueUpdate.Moves` — updates that write only after such a move
* `Form.levels` — the depth to which an amend comes

## Main results

* `moves_amendFn` — amends of arrays
* `moves_appendKeys` — new keys of dictionaries
* `moves_amendAlong`, `moves_amendBy` — amends of values
-/

namespace SharedArrays

section Amends

variable {I : Inputs} {n : Nat} {x : Option Value} {u v : Value} {a b : Arr Value} {c : Scope}
  {settings : Settings} {y : Value} {z : Option Value}

/-! ## Amends of arrays -/

theorem moves_runSteps (hI : I.site.Covers c.site) {steps : List Step}
    (hsteps : ∀ s ∈ steps, ∀ old new, I.Brings old → s.run old = .ok new → I.Brings new)
    (a : Arr Value) (ha : (Value.array a).Beyond I 1) :
    (Value.array (a.runSteps c steps).slot).Moves I 1 (some (.array a)) := by
  -- Induction on the steps; a position that comes again gives the function an earlier answer.
  induction steps generalizing a with
  | nil => exact .refl I 1 _
  | cons s rest ih =>
    obtain ⟨hs, hrest⟩ := List.forall_mem_cons.1 hsteps
    simp only [Arr.runSteps]
    split
    · exact .refl I 1 _
    · rename_i old hold
      split
      · exact .refl I 1 _
      · rename_i new hnew
        have hbrings : I.Brings old := by
          rcases part?_or_nodes hold with hpart | hnodes
          · exact ha.element hpart [] old (not_amendReaches_zero []) rfl
          · exact brings_of_nodes hnodes
        have hput := moves_put hI a s.position (hs old new hbrings hnew)
        exact hput.trans (ih hrest _ (hput.beyond_of ha))

theorem moves_amendAt (hI : I.site.Covers c.site) (hz : Everywhere (· ∈ allNodes I.operand) z)
    (a : Arr Value) (ha : (Value.array a).Beyond I 1) (sel : Selection) :
    (Value.array (a.amendAt settings c sel I.callee z).slot).Moves I 1 (some (.array a)) := by
  have hsub (k : Nat) : I.site.Covers (c.site.sub k) := hI.trans (c.site.covers_sub k)
  have hlevel := everywhere_operands I.callee sel hz
  unfold Arr.amendAt
  split
  · exact .refl I 1 _
  · rename_i operands hoperands
    rw [hoperands] at hlevel
    simp only
    split
    · rename_i b hb
      split at hb
      · exact (looped_of_loop? hb).moves (hsub 0)
      · cases hb
    · rw [Arr.revise, Outcome.slot_map]
      refine (moves_runSteps (hsub 0) (fun s hs old new hold hnew => ?_) a ha).trans
        (moves_canonical (c := (c.sub 0).beside _) (hsub 0) _)
      obtain ⟨e, -, rfl⟩ := List.mem_map.1 hs
      exact .answer (hsub _) hold (Operands.everywhere_at? hlevel e.2) hnew

/-- An update of arrays that writes to them only after it has moved what is pinned. -/
def ArrUpdate.Moves (I : Inputs) (u : ArrUpdate) : Prop :=
  ∀ (c : Scope) (a : Arr Value) z, I.site.Covers c.site →
    Everywhere (· ∈ allNodes I.operand) z → (Value.array a).Beyond I 1 →
      (Value.array (u c a z).slot).Moves I 1 (some (.array a))

theorem moves_amendInTurn {us : List ArrUpdate} (hus : ∀ u ∈ us, u.Moves I) {z : Operands}
    (hz : Everywhere (· ∈ allNodes I.operand) z) (hI : I.site.Covers c.site) (k : Nat)
    (a : Arr Value) (ha : (Value.array a).Beyond I 1) :
    (Value.array (amendInTurn z c k us a).slot).Moves I 1 (some (.array a)) := by
  induction us generalizing k a with
  | nil => exact .refl I 1 _
  | cons u us ih =>
    obtain ⟨hu, hus⟩ := List.forall_mem_cons.1 hus
    have hmoved := hu (c.sub k) a (z.at? k) (hI.trans (c.site.covers_sub k))
      (Operands.everywhere_at? hz k) ha
    simp only [amendInTurn]
    split
    · rename_i b e h
      rwa [h] at hmoved
    · rename_i b h
      rw [h] at hmoved
      exact hmoved.trans (ih hus (k + 1) b (hmoved.beyond_of ha))

theorem moves_amendAtIndex (I : Inputs) (y : Value) :
    (amendAtIndex settings I.callee y).Moves I := by
  intro c a z hI hz ha
  unfold amendAtIndex
  split
  · exact .refl I 1 _
  · exact moves_amendAt hI hz a ha _

theorem moves_amendFn (I : Inputs) (y : Value) : (amendFn settings I.callee y).Moves I := by
  induction y using Value.nest_induction with
  | leaf y hleaf =>
    rw [amendFn_of_not_list settings I.callee (by rintro w rfl; cases hleaf)]
    exact moves_amendAtIndex I y
  | dict s keys vals _ _ => exact moves_amendAtIndex I _
  | error s v _ => exact moves_amendAtIndex I _
  | array y ih =>
    cases y with
    | list w =>
      intro c a z hI hz ha
      have hmany := everywhere_forMany w.len hz
      rw [amendFn_list]
      split
      · exact .refl I 1 _
      · rename_i operands hoperands
        rw [hoperands] at hmany
        refine moves_amendInTurn (fun u hu => ?_) hmany hI 0 a ha
        obtain ⟨v, hv, rfl⟩ := List.mem_map.1 hu
        exact ih v (Window.mem_of_mem_items hv)
    | _ => exact moves_amendAtIndex I _

/-! ## Dictionaries -/

theorem moves_padding {s : Site} (hs : I.site.Covers s) (a : Arr Value) :
    (a.padding s).Moves I n x := by
  refine moves_of_names fun t ht => ?_
  -- In an empty store nothing has a name but what has been made.
  obtain ⟨st, hsame, hlies⟩ :=
    made_padding (x := Value.nil) s a (fun _ => none) (fun _ _ => rfl) everywhere_nil
  by_cases hcovers : s.Covers t
  · exact hs.trans hcovers
  · exact absurd (hsame t hcovers) (hlies.ne_none ht)

/-- A new key: the keys go to canonical storage, and the values get a neutral value more. -/
theorem moves_appendKey {s t : Site} (hI : I.site.Covers c.site) (d : Dict Value) {k : Value}
    (hk : Everywhere (· ∈ I.index.nodes) k) :
    (Value.dict t (d.appendKey c k)).Moves I (n + 1) (some (.dict s d)) := by
  have hsub (j : Nat) : I.site.Covers (c.site.sub j) := hI.trans (c.site.covers_sub j)
  refine moves_dict ?_ ?_
  · have hpush := moves_push (c := (c.sub 0).beside [.array d.vals]) (hsub 0) d.keys
      fun _ => moves_brought (Inputs.Brings.index hk)
    exact hpush.trans (moves_canonical (c := (c.sub 1).beside [.array d.vals]) (hsub 1) _)
  · exact moves_push (hsub 2) d.vals fun _ => moves_padding (hsub 3) d.vals

theorem moves_appendKeys {s : Site} (hI : I.site.Covers c.site) (d : Dict Value) {ks : List Value}
    (hks : Everywhere (· ∈ I.index.nodes) ks) :
    (Value.dict s (d.appendKeys c ks)).Moves I (n + 1) (some (.dict s d)) := by
  rw [Dict.appendKeys_eq]
  generalize 0 = k
  induction ks generalizing k d with
  | nil => exact .refl I _ _
  | cons key ks ih =>
    obtain ⟨hkey, hks⟩ := (everywhere_cons ..).1 hks
    have hgrown := moves_appendKey (c := c.sub k) (n := n) (s := s) (t := s)
      (hI.trans (c.site.covers_sub k)) d hkey
    exact hgrown.trans (ih (d.appendKey (c.sub k) key) hks (k + 1))

/-- Missing keys are appended first, and then the values are updated. -/
theorem moves_grown {s t : Site} {d grown : Dict Value} {o : Outcome (Arr Value)}
    (hgrown : (Value.dict s grown).Moves I (n + 1) (some (.dict s d)))
    (hd : (Value.dict s d).Beyond I (n + 1))
    (h : (Value.array grown.vals).Beyond I (n + 1) →
      (Value.array o.slot).Moves I (n + 1) (some (.array grown.vals))) :
    (Value.dict t ⟨grown.keys, o.slot⟩).Moves I (n + 1) (some (.dict s d)) :=
  hgrown.trans (moves_dict (.refl I _ _) (h (hgrown.beyond_of hd).vals))

/-! ## Amends of values -/

/-- An update of values that comes `n` levels deep. -/
def ValueUpdate.Moves (I : Inputs) (n : Nat) (update : ValueUpdate) : Prop :=
  ∀ (c : Scope) v z, I.site.Covers c.site → Everywhere (· ∈ allNodes I.operand) z →
    v.Beyond I n → (update c v z).slot.Moves I n (some v)

theorem moves_amend (hy : Everywhere (· ∈ I.index.nodes) y) :
    ValueUpdate.Moves I 1 fun c v z => v.amend settings c y I.callee z := by
  intro c v z hI hz hv
  have hsub (j : Nat) : I.site.Covers (c.site.sub j) := hI.trans (c.site.covers_sub j)
  cases v with
  | array a => exact moves_amendFn I y c a z hI hz hv
  | dict s d =>
    simp only [Value.amend, Dict.amend]
    split
    · exact moves_dict (.refl I _ _) (.refl I _ _)
    · have hgrown := moves_appendKeys (c := c.sub 0) (n := 0) (s := s) (hsub 0) d
        (everywhere_missing settings d hy)
      generalize d.appendKeys (c.sub 0) (d.placement settings y).missing = grown at hgrown ⊢
      exact moves_grown hgrown hv fun hvals =>
        moves_amendAt (c := (c.sub 1).beside [.array grown.keys]) (hsub 1) hz grown.vals hvals _
  | _ => exact .refl I 1 _

section Elements

variable {update : ValueUpdate} {z : Operands}

/-- The elements of a private buffer are updated where they are. -/
theorem moves_elements (hu : update.Moves I n) (hz : Everywhere (· ∈ allNodes I.operand) z)
    (hI : I.site.Covers c.site) (ps : List Nat) (k : Nat) (w : Window Value)
    (hw : ∀ (i : Nat) v, w.items[i]? = some v → v.Beyond I n) :
    let o := amendElements update z c k ps w
    o.slot.storage = w.storage ∧ ∀ (i : Nat) (u : Value), o.slot.items[i]? = some u →
      ∃ v, w.items[i]? = some v ∧ u.Moves I n (some v) := by
  -- Induction on the positions; a position that comes again finds what the first update left.
  induction ps generalizing k w with
  | nil => exact ⟨rfl, fun i u hi => ⟨u, hi, .refl I n u⟩⟩
  | cons i rest ih =>
    simp only [amendElements]
    cases hslot : w.items[i]? with
    | none => exact ⟨rfl, fun i u hi => ⟨u, hi, .refl I n u⟩⟩
    | some slot =>
      simp only
      have hmoved := hu ((c.sub (k + 1)).beside (w.buf.eraseIdx (w.off + i))) slot (z.at? k)
        (hI.trans (c.site.covers_sub _)) (Operands.everywhere_at? hz k) (hw i slot hslot)
      generalize update _ slot (z.at? k) = o at hmoved ⊢
      have hitems : ({ w with buf := w.buf.set (w.off + i) o.slot } : Window Value).items =
          w.items.set i o.slot := stretch_set ..
      have hset (j : Nat) (u : Value) (hj : (w.items.set i o.slot)[j]? = some u) :
          ∃ v, w.items[j]? = some v ∧ u.Moves I n (some v) := by
        by_cases hij : i = j
        · subst hij
          rw [List.getElem?_set_self', hslot] at hj
          cases hj
          exact ⟨slot, hslot, hmoved⟩
        · rw [List.getElem?_set_ne hij] at hj
          exact ⟨u, hj, .refl I n u⟩
      split
      · exact ⟨rfl, fun j u hj => hset j u (hitems ▸ hj)⟩
      · obtain ⟨hstorage, hrest⟩ := ih (k + 1) { w with buf := w.buf.set (w.off + i) o.slot }
          fun j v hv => by
            obtain ⟨v', hv', hmoves⟩ := hset j v (hitems ▸ hv)
            exact hmoves.beyond_of (hw j v' hv')
        refine ⟨hstorage, fun j u hj => ?_⟩
        obtain ⟨v, hv, huv⟩ := hrest j u hj
        obtain ⟨v', hv', hvv'⟩ := hset j v (hitems ▸ hv)
        exact ⟨v', hv', hvv'.trans huv⟩

theorem moves_amendElements (hu : update.Moves I n) (hz : Everywhere (· ∈ allNodes I.operand) z)
    (hI : I.site.Covers c.site) (ps : List Nat) (a : Arr Value)
    (ha : (Value.array a).Beyond I (n + 1)) :
    (Value.array (a.amendElements update z c ps).slot).Moves I (n + 1) (some (.array a)) := by
  cases a with
  | list w =>
    have hcells (i : Nat) (v : Value) (hv : (w.makePrivate (c.sub 0)).items[i]? = some v) :
        (Value.array (.list w)).part? [.element i] = some v := by
      rw [Window.items_makePrivate] at hv
      exact part?_element.2 hv
    obtain ⟨hstorage, hitems⟩ := moves_elements hu hz hI ps 0 (w.makePrivate (c.sub 0))
      fun i v hv => ha.element (hcells i v hv)
    refine moves_array (settles_of_storage (c := c.sub 0) (hI.trans (c.site.covers_sub 0)) ?_)
      fun i u hi => ?_
    · exact (storage_makePrivate_or (c.sub 0) w).imp (hstorage.trans ·)
        fun h => ⟨hstorage.trans h.1, h.2⟩
    · obtain ⟨v, hv, huv⟩ := hitems i u (part?_element.1 hi)
      rwa [hcells i v hv]
  | _ => exact .refl I _ _

end Elements

theorem moves_amendAlong {path : List Value} (hpath : Everywhere (· ∈ I.index.nodes) path) :
    (Value.amendAlong settings I.callee path).Moves I path.length := by
  induction path with
  | nil =>
    intro c v z hI hz hv
    simp only [Value.amendAlong]
    split
    · rename_i v' hv'
      exact moves_brought (.answer hI (hv [] v (not_amendReaches_zero []) rfl) hz hv')
    · exact .refl I 0 v
  | cons y rest ih =>
    obtain ⟨hy, hrest⟩ := (everywhere_cons ..).1 hpath
    cases rest with
    | nil => exact moves_amend hy
    | cons next rest =>
      intro c v z hI hz hv
      have hsub (j : Nat) : I.site.Covers (c.site.sub j) := hI.trans (c.site.covers_sub j)
      have hlevel := level_amendAlong settings I.callee y next rest c v z
      generalize Value.amendAlong settings I.callee (y :: next :: rest) c v z = o at hlevel ⊢
      cases hlevel with
      | refused v | idle v => exact .refl I _ _
      | @array a sel operands opens selects holds =>
        exact moves_amendElements (ih hrest) (holds _ hz) hI _ a hv
      | @dict s d operands opens selects holds =>
        have hgrown := moves_appendKeys (c := c.sub 0) (n := (next :: rest).length) (s := s)
          (hsub 0) d (everywhere_missing settings d hy)
        -- The values are amended at a second site, beside the keys that have grown at the first.
        generalize d.appendKeys (c.sub 0) (d.placement settings y).missing = grown at hgrown ⊢
        exact moves_grown hgrown hv fun hvals =>
          moves_amendElements (c := (c.sub 1).beside [.array grown.keys]) (ih hrest) (holds _ hz)
            (hsub 1) _ grown.vals hvals

/-- The number of levels that an amend at the index or along the path `y` works on. -/
def Form.levels (y : Value) : Form → Nat
  | .flat => 1
  | .path => y.components.length

/-- At the places that an amend comes to it leaves arrays on buffers that it has made, and arrays
on the buffers that they were on. The latter are as they were if they are pinned. Elsewhere stands
what the amend can have brought there. -/
theorem moves_amendBy (I : Inputs) (form : Form) (c : Scope) (hc : c.site = I.site) :
    (I.slot.amendBy settings form c I.index I.callee I.operand).slot.Moves I
      (form.levels I.index) (some I.slot) := by
  have hI : I.site.Covers c.site := Site.covers_of_eq hc
  have hz : Everywhere (· ∈ allNodes I.operand) I.operand := fun _ hu => hu
  have hy : Everywhere (· ∈ I.index.nodes) I.index := fun _ hu => hu
  cases form with
  | flat => exact moves_amend hy c _ _ hI hz (Inputs.Brings.slot.beyond 1)
  | path =>
    simp only [Value.amendBy, Value.amendPath]
    split
    · exact .refl I _ _
    · exact moves_amendAlong (everywhere_components hy) c _ _ hI hz (Inputs.Brings.slot.beyond _)

end Amends

end SharedArrays
