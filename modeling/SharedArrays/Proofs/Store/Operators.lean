import SharedArrays.Proofs.Store.Steps

/-!
# Operators and the store

Operators only read their operands. Their answers are made of new objects, of objects of the
operands, and of nothing else, and nothing that was there before is changed. That holds for
merging too, although it writes to an array: the array shares its buffer with the dictionary on
the left, so that the first write moves it.

## Main definitions

* `FromLeft.Makes` — a function of the left operand that makes its answers

## Main results

* `made_carry`, `made_overArray`, `makes_withRight` — operators carried through containers
* `made_revise`, `made_mergeBy` — merging
* `made_monadic`, `made_dyadic` — the operators
-/

namespace SharedArrays

section Arrays

variable {α β : Type} [HasNodes α] [HasNodes β] {s : Site} {x : α} {y : β} {a b : Arr Value}

/-- An array on a new buffer. -/
theorem Made.newArr (hy : Made s.Below x y) (hs : a.storage = s)
    (hcells : ∀ st, LiesIn st y → LiesIn st a.cells) : Made s.Covers x a := by
  have htarget : (Value.array a).target? = some (s, a.object) := by rw [Value.target?, hs]
  refine hy.object htarget fun st hy => ?_
  rw [Arr.nodes_object]
  exact hcells st hy

theorem storage_pack (s : Site) (vs : List Value) (k : Kind) : (Arr.pack s vs k).storage = s := by
  cases k <;> rfl

theorem liesIn_cells_pack {st : Store} {vs : List Value} (h : LiesIn st vs) (k : Kind) :
    LiesIn st (Arr.pack s vs k).cells := by
  cases k <;> first | exact h | exact everywhere_empty

theorem made_ofValues {vs : List Value} (h : Made s.Below x vs) :
    Made s.Covers x (Arr.ofValues s vs) :=
  h.newArr (storage_pack s vs _) fun _ hvs => liesIn_cells_pack hvs _

theorem storage_gather (s : Site) (kind : Kind) (predicate : Bool) (vs : List Value) :
    (gather s kind predicate vs).storage = s := by
  unfold gather
  split
  · split <;> cases kind <;> rfl
  · have hs : (Arr.ofValues s vs).storage = s := storage_pack s vs _
    split
    · rename_i w hw
      rw [hw] at hs
      split
      · rfl
      · exact hs
    · exact hs

theorem liesIn_cells_gather {st : Store} {kind : Kind} {predicate : Bool} {vs : List Value}
    (h : LiesIn st vs) : LiesIn st (gather s kind predicate vs).cells := by
  unfold gather
  split
  · cases (if predicate then Kind.bools else kind) <;> exact everywhere_empty
  · have hcells : LiesIn st (Arr.ofValues s vs).cells := liesIn_cells_pack h _
    split
    · split <;> exact everywhere_empty
    · exact hcells

/-- Two arrays in a row, which may themselves have been made below the site. -/
theorem Made.concat (h : Made s.Below x (a, b)) : Made s.Covers x (a.concat s b) := by
  have hvalues : Made s.Below x (a.values ++ b.values) := h.to_output fun st h => by
    obtain ⟨ha, hb⟩ := (everywhere_pair a b).1 h
    exact (everywhere_append ..).2 ⟨everywhere_values ha, everywhere_values hb⟩
  have huntagged {e : Arr Value} (hs : e.storage = s) (hcells : e.cells = []) :
      Made s.Covers x e := hvalues.newArr hs fun _ _ => hcells ▸ everywhere_empty
  have hboth : Made s.Covers x (a, b) := h.mono fun _ => And.left
  unfold Arr.concat
  split
  · exact huntagged rfl rfl
  · exact huntagged rfl rfl
  · exact huntagged rfl rfl
  · exact huntagged rfl rfl
  · split
    · exact hboth.to_output fun st h => ((everywhere_pair ..).1 h).1
    · split
      · exact hboth.to_output fun st h => ((everywhere_pair ..).1 h).2
      · exact made_ofValues hvalues

theorem liesIn_cells_select {st : Store} {ps : List Nat} (ha : LiesIn st a.cells)
    (h : a.select s ps = .ok b) : LiesIn st b.cells := by
  unfold Arr.select at h
  split at h
  · cases h
  · cases h
    cases a with
    | list w => exact everywhere_of_subset ha fun u hu => Window.mem_select hu
    | _ w => exact everywhere_empty

theorem made_select (s : Site) (a : Arr Value) (ps : List Nat) :
    Made s.Covers a (a.select s ps) := by
  have hcells : Made s.Below a a.cells := made_of_liesIn fun st h => (liesIn_arr.1 h).2
  cases hselect : a.select s ps with
  | ok b =>
    refine made_ok (hcells.newArr ?_ fun st h => liesIn_cells_select h hselect)
    unfold Arr.select at hselect
    split at hselect <;> cases hselect
    cases a <;> rfl
  | error e =>
    unfold Arr.select at hselect
    split at hselect <;> cases hselect
    exact made_error rfl

end Arrays

/-! ## Carrying -/

theorem getElem?_of_stretch {α : Type} {off len k : Nat} {xs : List α} {x : α}
    (h : (stretch off len xs)[k]? = some x) : xs[off + k]? = some x := by
  rw [stretch, List.getElem?_take, List.getElem?_drop] at h
  split at h
  · exact h
  · cases h

section Carrying

variable {α : Type} [HasNodes α] {s : Site} {x : α} {kind : Kind} {predicate : Bool}

/-- Calls in a row, each at a part of its own. -/
theorem made_allOk {rs : List (Result Value)} {i : Nat}
    (h : ∀ k r, rs[k]? = some r → Made (s.sub (i + k)).Covers x r) :
    Made (s.From i) x (allOk rs) := by
  induction rs generalizing i with
  | nil => exact made_of_liesIn fun _ _ => everywhere_empty
  | cons r rs ih =>
    have hr : Made (s.sub i).Covers x r := h 0 r rfl
    have hrest : Made (s.From (i + 1)) x (allOk rs) := ih fun k r hk => by
      have hnext := h (k + 1) r hk
      rwa [← Nat.add_assoc, Nat.add_right_comm] at hnext
    refine hr.bind (fun v _ => ?_) (fun t ht hfrom => ?_)
      (fun _ => Site.from_of_sub (Nat.le_refl i)) fun _ => Site.From.mono (Nat.le_succ i)
    · have hboth : Made (s.From (i + 1)) (x, v) (allOk rs) :=
        hrest.of_input fun st h => ((everywhere_pair ..).1 h).1
      refine hboth.followed (fun _ h => h) fun vs hvs => ?_
      refine (hvs.beside_input (z := v) fun st h => ((everywhere_pair ..).1 h).2).to_output ?_
      exact fun st h => (everywhere_cons ..).2 ((everywhere_pair ..).1 h)
    · exact Site.not_from_of_sub (Nat.lt_succ_self i) ht hfrom

theorem made_gather {vs : List Value} {i : Nat} (h : Made (s.From i) x vs) :
    Made s.Covers x (gather s kind predicate vs) :=
  (h.mono fun _ => Site.From.below).newArr (storage_gather ..) fun _ h => liesIn_cells_gather h

theorem made_gatherAll {r : Result (List Value)} {i : Nat} (hr : Made (s.From i) x r) :
    Made s.Covers x (r >>= fun vs => pure (gather s kind predicate vs)) :=
  hr.followed (fun _ => Site.From.covers) fun _ hvs => made_ok (made_gather hvs)

/-- New values beside the keys of a dictionary. -/
theorem made_withVals {d : Dict Value} {vals : Arr Value} (h : Made s.Below x vals)
    (hkeys : ∀ st, LiesIn st x → LiesIn st d.keys) : Made s.Covers x (d.withVals s vals) := by
  simp only [Dict.withVals, Dict.ofArrays?]
  split
  · refine made_ok ((h.beside_input hkeys).object rfl fun st h => ?_)
    exact everywhere_entries.2 ((everywhere_pair ..).1 h)
  · exact made_error rfl

theorem made_carry {f : Value → Result Value} (hf : ∀ P v, Everywhere P (f v)) (v : Value)
    (s : Site) : Made s.Covers v (v.carry predicate f s) := by
  induction v using Value.nest_induction generalizing s with
  | leaf v hleaf =>
    cases v <;> first | exact made_of_liesIn fun _ _ => hf _ _ | cases hleaf
  | error t v => exact made_of_liesIn fun _ _ => hf _ _
  | dict t keys vals _ ih =>
    have hparts {st : Store} (h : LiesIn st (.dict t ⟨keys, vals⟩ : Value)) :
        LiesIn st keys ∧ LiesIn st vals := ((everywhere_dict ..).1 h).2
    have hvals : Made (s.sub 0).Covers (Value.dict t ⟨keys, vals⟩)
        (vals.carry predicate f (s.sub 0)) :=
      ((ih (s.sub 0)).of_input fun st h => (everywhere_array _).2 (hparts h).2).to_output
        fun st => (everywhere_bind_pure everywhere_array).1
    refine hvals.followed (fun _ => Site.Covers.of_sub) fun b hb => ?_
    exact made_withVals (hb.mono fun _ => Site.below_of_sub) fun st h => (hparts h).1
  | array a ih =>
    have harr : Made s.Covers (Value.array a) (a.carry predicate f s) := by
      cases a with
      | list w =>
        simp only [Arr.carry, carryCells_eq_mapIdx]
        refine made_gatherAll (made_allOk (i := w.off) fun k r hr => ?_)
        have hr := getElem?_of_stretch hr
        rw [List.getElem?_mapIdx, Option.map_eq_some_iff] at hr
        obtain ⟨v, hv, rfl⟩ := hr
        have hmem : v ∈ w.buf := List.mem_of_getElem? hv
        rw [Nat.zero_add]
        exact (ih v hmem _).of_input fun st h =>
          everywhere_iff_forall.1 (liesIn_arr.1 ((everywhere_array _).1 h)).2 v hmem
      | _ w =>
        refine made_gatherAll (i := 0) (made_of_liesIn fun st _ => everywhere_allOk fun r hr => ?_)
        obtain ⟨v, -, rfl⟩ := List.mem_map.1 hr
        exact hf _ v
    exact harr.map fun b st => (everywhere_array b).2

end Carrying

/-! ## Two operands -/

/-- The function makes its answers from the left operand and from `kept`. -/
def FromLeft.Makes {κ : Type} [HasNodes κ] (kept : κ) (f : FromLeft) : Prop :=
  ∀ s x, Made s.Covers (kept, x) (f s x)

section FromLeft

variable {κ : Type} [HasNodes κ] {kept : κ} {b : Builtin} {fns : List FromLeft}

theorem made_pairs (hfns : ∀ f ∈ fns, f.Makes kept) (s : Site) (a : Arr Value) :
    Made s.Covers (kept, a) (Builtin.overArray.pairs b fns s a) := by
  unfold Builtin.overArray.pairs
  split
  · refine made_gatherAll (i := 0) (made_allOk fun k r hr => ?_)
    rw [List.getElem?_mapIdx, Option.map_eq_some_iff] at hr
    obtain ⟨⟨v, f⟩, hvf, rfl⟩ := hr
    have hmem := List.of_mem_zip (List.mem_of_getElem? hvf)
    rw [Nat.zero_add]
    refine (hfns f hmem.2 (s.sub k) v).of_input fun st h => ?_
    obtain ⟨hkept, ha⟩ := (everywhere_pair ..).1 h
    exact (everywhere_pair ..).2
      ⟨hkept, everywhere_iff_forall.1 (everywhere_values ha) v hmem.1⟩
  · exact made_error rfl

theorem made_overArray (hfns : ∀ f ∈ fns, f.Makes kept) (kind : Kind) (s : Site) (x : Value) :
    Made s.Covers (kept, x) (b.overArray kind fns s x) := by
  have hatom : Made s.Covers (kept, x) (do
      return .array (gather s kind b.isPredicate (← allOk (fns.mapIdx fun k f => f (s.sub k) x)))
      : Result Value) := by
    refine (made_allOk (i := 0) fun k r hr => ?_).followed (fun _ => Site.From.covers)
      fun vs hvs => made_ok ((made_gather hvs).to_output fun st => (everywhere_array _).2)
    rw [List.getElem?_mapIdx, Option.map_eq_some_iff] at hr
    obtain ⟨f, hf, rfl⟩ := hr
    rw [Nat.zero_add]
    exact hfns f (List.mem_of_getElem? hf) (s.sub k) x
  cases x with
  | array a =>
    have hpairs : Made s.Covers (kept, Value.array a) (Builtin.overArray.pairs b fns s a) :=
      (made_pairs hfns s a).of_input fun _ h => h
    exact hpairs.map fun c st => (everywhere_array c).2
  | dict t d =>
    have hparts {st : Store} (h : LiesIn st (kept, Value.dict t d)) :
        LiesIn st kept ∧ LiesIn st d.keys ∧ LiesIn st d.vals := by
      obtain ⟨hkept, hd⟩ := (everywhere_pair ..).1 h
      exact ⟨hkept, ((everywhere_dict ..).1 hd).2⟩
    refine ((made_pairs hfns (s.sub 0) d.vals).of_input fun st h => ?_).followed
      (fun _ => Site.Covers.of_sub) fun vals hvals => ?_
    · exact (everywhere_pair ..).2 ⟨(hparts h).1, (hparts h).2.2⟩
    · exact made_withVals (hvals.mono fun _ => Site.below_of_sub) fun st h => (hparts h).2.1
  | _ => exact hatom

/-! ## Merging -/

/-- Steps on an array that shares its buffer: the buffer stays as it is. -/
theorem made_revise {ε : Type} {es : List ε} {step : ε → Step} {site : ε → Site}
    {S : Site → Prop} {s : Site} {a : Arr Value}
    (hmade : ∀ e ∈ es, ∀ v, Made (site e).Covers (v, kept) ((step e).run v))
    (happart : es.Pairwise fun e e' => ∀ t, (site e).Covers t → ¬(site e').Covers t)
    (hs : ∀ e ∈ es, ¬(site e).Covers s) (hS : S s)
    (hsites : ∀ e ∈ es, ∀ t, (site e).Covers t → S t) :
    Made S (kept, a) (a.revise ⟨[.array a], s⟩ (es.map step)) := by
  intro st hfree h
  obtain ⟨hkept, ha⟩ := (everywhere_pair ..).1 h
  let c : Scope := ⟨[.array a], s⟩
  have hheld : LiesIn st c.held :=
    (everywhere_cons ..).2 ⟨(everywhere_array a).2 ha, everywhere_empty⟩
  have hnames : Names a.storage a := ⟨.array a, by simp [allNodes, Arr.nodes_eq], rfl⟩
  have hholds : c.holds a.storage = true :=
    (scope_holds_iff c).2 (names_cons.2 (.inl hnames))
  have hready : a.Ready c st := by
    have hhide := ready_hide (c := c) ha
    rwa [Store.hide, if_pos hholds] at hhide
  obtain ⟨st₁, st', hsame, -, hquiet, hslot, hfailure, hmoved⟩ :=
    ready_revise hmade happart hs (fun e he t ht => hfree t (hsites e he t ht)) (hfree s hS) hheld
      hkept hready fun e he =>
        not_mem_of_liesIn (fun t ht => hfree t (hsites e he t ht)) ha _ hnames
  have hst : st' = st₁ := hquiet (.inr hholds)
  subst hst
  generalize a.revise c (es.map step) = o at hslot hfailure hmoved
  refine ⟨st'.insert o.slot.storage o.slot.object, fun t ht => ?_,
    everywhere_outcome.2 ⟨hslot.liesIn, hslot.liesIn_insert hfailure⟩⟩
  have hst : st' t = st t := hsame t fun e he hs => ht (hsites e he t hs)
  by_cases hts : t = o.slot.storage
  · subst hts
    rcases hmoved with hmoved | hmoved
    · rw [Store.insert_self, ← hst]
      exact (hslot.shared (hmoved ▸ hholds)).symm
    · exact absurd (hmoved ▸ hS) ht
  · rw [Store.insert_of_ne hts, hst]

theorem made_append? (s : Site) (d : Dict Value) (keys vals : Arr Value) :
    Made s.Covers ((d, keys), vals) (d.append? s keys vals) := by
  have hparts {st : Store} (h : LiesIn st ((d, keys), vals)) :
      (LiesIn st d.keys ∧ LiesIn st d.vals) ∧ LiesIn st keys ∧ LiesIn st vals := by
    obtain ⟨h, hvals⟩ := (everywhere_pair ..).1 h
    obtain ⟨hd, hkeys⟩ := (everywhere_pair ..).1 h
    exact ⟨everywhere_entries.1 hd, hkeys, hvals⟩
  unfold Dict.append?
  split
  · have hkeys : Made (s.sub 0).Covers ((d, keys), vals) (d.keys.concat (s.sub 0) keys) :=
      Made.concat (made_of_liesIn fun st h =>
        (everywhere_pair ..).2 ⟨(hparts h).1.1, (hparts h).2.1⟩)
    have hvals : Made (s.sub 1).Covers (((d, keys), vals), d.keys.concat (s.sub 0) keys)
        (d.vals.concat (s.sub 1) vals) :=
      Made.concat (made_of_liesIn fun st h =>
        have h := ((everywhere_pair ..).1 h).1
        (everywhere_pair ..).2 ⟨(hparts h).1.2, (hparts h).2.2⟩)
    refine made_ok ((hkeys.and hvals (Site.apart_sub Nat.zero_ne_one)
      (fun _ => Site.Covers.of_sub) fun _ => Site.Covers.of_sub).to_output fun st h => ?_)
    exact everywhere_entries.2 ((everywhere_pair ..).1 h)
  · exact made_error rfl

theorem made_appendFrom (s : Site) (d r : Dict Value) (fresh : List Nat) :
    Made (s.Before 3) (d, r) (d.appendFrom s r fresh) := by
  have hentries {st : Store} (h : LiesIn st (d, r)) : LiesIn st r.keys ∧ LiesIn st r.vals :=
    everywhere_entries.1 ((everywhere_pair ..).1 h).2
  unfold Dict.appendFrom
  split
  · exact made_of_liesIn fun st h => ((everywhere_pair ..).1 h).1
  · have hkeys : Made (s.sub 0).Covers (d, r) (r.keys.select (s.sub 0) fresh) :=
      (made_select (s.sub 0) r.keys fresh).of_input fun st h => (hentries h).1
    refine hkeys.bind (T := fun t => (s.sub 1).Covers t ∨ (s.sub 2).Covers t) (fun keys _ => ?_)
      (fun t h => ?_) (fun _ => Site.before_of_sub (by omega)) fun t h => ?_
    · have hvals : Made (s.sub 1).Covers ((d, r), keys) (r.vals.select (s.sub 1) fresh) :=
        (made_select (s.sub 1) r.vals fresh).of_input fun st h =>
          (hentries ((everywhere_pair ..).1 h).1).2
      refine hvals.bind (T := (s.sub 2).Covers) (fun vals _ => ?_) (Site.apart_sub (by omega))
        (fun _ => .inl) fun _ => .inr
      refine (made_append? (s.sub 2) d keys vals).of_input fun st h => ?_
      obtain ⟨h, hvals⟩ := (everywhere_pair ..).1 h
      obtain ⟨h, hkeys⟩ := (everywhere_pair ..).1 h
      have hd : LiesIn st d := ((everywhere_pair ..).1 h).1
      exact (everywhere_pair ..).2 ⟨(everywhere_pair ..).2 ⟨hd, hkeys⟩, hvals⟩
    · exact not_or.2 ⟨Site.apart_sub (by omega) t h, Site.apart_sub (by omega) t h⟩
    · exact h.elim (Site.before_of_sub (by omega)) (Site.before_of_sub (by omega))

/-- Merging, with a way to combine values that makes its objects apart from the rest. -/
theorem made_mergeWith {α : Type} [HasNodes α] {x : α} {s : Site} {S U : Site → Prop}
    {threshold : Nat} {combine : List (Nat × Nat) → Arr Value → Result (Arr Value)}
    {l r : Dict Value} (hx : ∀ st, LiesIn st x → LiesIn st l ∧ LiesIn st r)
    (hcombine : ∀ common, Made S x (combine common l.vals)) (hapart : ∀ t, S t → ¬s.Before 3 t)
    (hS : ∀ t, S t → U t) (hs : ∀ t, s.Before 3 t → U t) :
    Made U x (l.mergeWith s threshold combine r) := by
  refine Made.bind (S := S) (T := s.Before 3) ?_ (fun vals _ => ?_) hapart hS hs
  · split
    · exact made_of_liesIn fun st h => (everywhere_entries.1 (hx st h).1).2
    · exact hcombine _
  · refine (made_appendFrom s ⟨l.keys, vals⟩ r _).of_input fun st h => ?_
    obtain ⟨h, hvals⟩ := (everywhere_pair ..).1 h
    obtain ⟨hl, hr⟩ := hx st h
    exact (everywhere_pair ..).2 ⟨everywhere_entries.2 ⟨(everywhere_entries.1 hl).1, hvals⟩, hr⟩

theorem made_mergeBy (hfns : ∀ f ∈ fns, f.Makes kept) (s : Site) (l r : Dict Value) :
    Made (s.From 0) ((kept, l), r) (l.mergeBy s fns r) := by
  refine made_mergeWith (S := s.From 3) (fun st h => ?_) (fun common => ?_)
    (fun _ => Site.From.not_before) (fun _ => Site.From.mono (by omega))
    fun _ => Site.Before.from_zero
  · obtain ⟨h, hr⟩ := (everywhere_pair ..).1 h
    exact ⟨((everywhere_pair ..).1 h).2, hr⟩
  · have hrevised : Made (s.From 3) (kept, l.vals)
        (l.vals.revise ⟨[.array l.vals], s.sub 3⟩ (mergeSteps s fns common)) := by
      let site (e : (Nat × Nat) × Nat) : Site := (s.sub 4).sub e.2
      refine made_revise (fun e _ v => show Made (site e).Covers _ _ from ?_)
        ((pairwise_zipIdx common).imp fun h => Site.apart_sub (Nat.ne_of_lt h))
        (fun e _ h => ?_)
        (Site.from_of_sub (Nat.le_refl 3) (Site.covers_refl _)) fun e _ t h =>
          Site.from_of_sub (by omega) h.of_sub
      · obtain ⟨⟨i, j⟩, k⟩ := e
        refine Made.followed (S := ((s.sub 4).sub k).Covers) ?_ (fun _ h => h) fun w hw =>
          hw.to_output fun st => everywhere_settle
        cases hj : fns[j]? with
        | none => exact made_of_liesIn fun st h => ((everywhere_pair ..).1 h).1
        | some f =>
          refine (hfns f (List.mem_of_getElem? hj) _ v).of_input fun st h => ?_
          exact (everywhere_pair ..).2 ((everywhere_pair ..).1 h).symm
      · exact Site.apart_sub (by omega) _ h.of_sub (Site.covers_refl _)
    refine (hrevised.of_input fun st h => ?_).to_output fun st => everywhere_toResult
    obtain ⟨hkept, hl⟩ := (everywhere_pair ..).1 ((everywhere_pair ..).1 h).1
    exact (everywhere_pair ..).2 ⟨hkept, (everywhere_entries.1 hl).2⟩

/-- The answer of a call inside of a new dictionary. -/
theorem made_newDict {α : Type} [HasNodes α] {x : α} {s : Site} {r : Result (Dict Value)}
    (hr : Made s.Below x r) : Made s.Covers x (do return .dict s (← r) : Result Value) :=
  hr.followed (fun _ => And.left) fun _ hd => made_ok (hd.object rfl fun _ h => h)

/-- The functions of the elements are carried along, because a dictionary uses those of its
values. -/
theorem makes_withRight_and_elements (b : Builtin) (y : Value) :
    (withRight b y).Makes y ∧
      ∀ c, y = .array c → ∀ f ∈ withRightElements b c, f.Makes y := by
  have hatoms (y : Value) : FromLeft.Makes y fun s x => x.carry b.isPredicate (b.onAtoms · y) s :=
    fun s x => (made_carry (fun _ _ => everywhere_onAtoms b _ y) x s).of_input fun st h =>
      ((everywhere_pair ..).1 h).2
  induction y using Value.nest_induction with
  | leaf y hleaf =>
    refine ⟨?_, fun c hc => by subst hc; cases hleaf⟩
    cases y <;> first | exact hatoms _ | cases hleaf
  | error t v => exact ⟨hatoms _, nofun⟩
  | array c ih =>
    have helements : ∀ f ∈ withRightElements b c, f.Makes (Value.array c) := by
      intro f hf
      rw [withRightElements_eq_map] at hf
      obtain ⟨v, hv, rfl⟩ := List.mem_map.1 hf
      -- Only a list has parts below it: the elements of a typed buffer are atoms.
      have hmakes : (withRight b v).Makes v := by
        cases c with
        | list w => exact (ih v (Window.mem_of_mem_items hv)).1
        | _ w =>
          obtain ⟨n, -, rfl⟩ := List.mem_map.1 hv
          exact hatoms _
      refine fun s x => (hmakes s x).of_input fun st h => ?_
      obtain ⟨hc, hx⟩ := (everywhere_pair ..).1 h
      exact (everywhere_pair ..).2 ⟨everywhere_iff_forall.1 (everywhere_values hc) v hv, hx⟩
    refine ⟨fun s x => made_overArray helements c.kind s x, ?_⟩
    rintro _ ⟨⟩
    exact helements
  | dict t keys vals _ ih =>
    have helements := ih.2 vals rfl
    have hentries {st : Store} (h : LiesIn st (.dict t ⟨keys, vals⟩ : Value)) :
        LiesIn st keys ∧ LiesIn st vals := ((everywhere_dict ..).1 h).2
    refine ⟨fun s x => ?_, nofun⟩
    have hover (x : Value) : Made s.Covers (Value.dict t ⟨keys, vals⟩, x)
        (b.overVals ⟨keys, vals⟩ (withRightElements b vals) s x) := by
      refine ((made_overArray helements vals.kind (s.sub 0) x).of_input fun st h => ?_).followed
        (fun _ => Site.Covers.of_sub) fun v hv => ?_
      · obtain ⟨hd, hx⟩ := (everywhere_pair ..).1 h
        exact (everywhere_pair ..).2 ⟨(everywhere_array _).2 (hentries hd).2, hx⟩
      · split
        · have hvs := (hv.mono fun _ => Site.below_of_sub).to_output
            fun st => (everywhere_array _).1
          exact made_withVals hvs fun st h => (hentries ((everywhere_pair ..).1 h).1).1
        · exact made_error rfl
    cases x with
    | dict u l =>
      refine made_newDict (((made_mergeBy helements s l ⟨keys, vals⟩).mono
        fun _ => Site.From.below).of_input fun st h => ?_)
      obtain ⟨hd, hl⟩ := (everywhere_pair ..).1 h
      have hr : LiesIn st (⟨keys, vals⟩ : Dict Value) := everywhere_entries.2 (hentries hd)
      have hleft : LiesIn st l := everywhere_entries.2 ((everywhere_dict ..).1 hl).2
      exact (everywhere_pair ..).2
        ⟨(everywhere_pair ..).2 ⟨(everywhere_array _).2 (hentries hd).2, hleft⟩, hr⟩
    | _ => exact hover _

theorem makes_withRight (b : Builtin) (y : Value) : (withRight b y).Makes y :=
  (makes_withRight_and_elements b y).1

end FromLeft

/-! ## The operators -/

theorem made_singleton {α : Type} [HasNodes α] {x : α} {v : Value} (s : Site)
    (h : ∀ st, LiesIn st x → LiesIn st v) : Made s.Covers x (Arr.singleton s v) :=
  made_ofValues (made_of_liesIn fun st hx => (everywhere_cons ..).2 ⟨h st hx, everywhere_empty⟩)

theorem made_reverse (s : Site) (v : Value) : Made s.Covers v (v.reverse s) := by
  cases v with
  | array a => exact (made_select s a _).map fun b st => (everywhere_array b).2
  | _ => exact made_of_liesIn fun _ h => h

theorem made_join (s : Site) (x y : Value) : Made s.Covers (x, y) (x.join s y) := by
  have hleft {st : Store} (h : LiesIn st (x, y)) : LiesIn st x := ((everywhere_pair ..).1 h).1
  have hright {st : Store} (h : LiesIn st (x, y)) : LiesIn st y := ((everywhere_pair ..).1 h).2
  unfold Value.join
  split
  · rename_i u l t r
    -- Each entry on the right answers itself, whatever it meets on the left.
    have hfns : ∀ f ∈ r.vals.values.map fun v (_ : Site) (_ : Value) => (.ok v : Result Value),
        FromLeft.Makes r.vals f := by
      intro f hf s x
      obtain ⟨v, hv, rfl⟩ := List.mem_map.1 hf
      exact made_of_liesIn fun st h =>
        everywhere_iff_forall.1 (everywhere_values ((everywhere_pair ..).1 h).1) v hv
    refine made_newDict (((made_mergeBy hfns s l r).mono fun _ => Site.From.below).of_input
      fun st h => ?_)
    have hl : LiesIn st l := everywhere_entries.2 ((everywhere_dict ..).1 (hleft h)).2
    have hr : LiesIn st r := everywhere_entries.2 ((everywhere_dict ..).1 (hright h)).2
    have hvals : LiesIn st r.vals := ((everywhere_dict ..).1 (hright h)).2.2
    exact (everywhere_pair ..).2 ⟨(everywhere_pair ..).2 ⟨hvals, hl⟩, hr⟩
  · rename_i a b
    exact made_ok (Made.concat (made_of_liesIn fun _ h => h))
  · rename_i a _
    have hsingle : Made (s.sub 0).Covers (Value.array a, y) (a, Arr.singleton (s.sub 0) y) :=
      (made_singleton (s.sub 0) fun _ => hright).beside_input fun _ => hleft
    exact made_ok (hsingle.mono fun _ => Site.below_of_sub).concat
  · rename_i b _
    have hsingle : Made (s.sub 0).Covers (x, Value.array b) (b, Arr.singleton (s.sub 0) x) :=
      (made_singleton (s.sub 0) fun _ => hleft).beside_input fun _ => hright
    refine made_ok (Made.concat
      ((hsingle.mono fun _ => Site.below_of_sub).to_output fun st h => ?_))
    exact (everywhere_pair ..).2 ((everywhere_pair ..).1 h).symm
  · exact made_ok (made_ofValues (made_of_liesIn fun st h =>
      (everywhere_cons ..).2 ⟨hleft h, (everywhere_cons ..).2 ⟨hright h, everywhere_empty⟩⟩))

/-- An operator with a single operand makes its answer. -/
theorem made_monadic (b : Builtin) (s : Site) (x : Value) : Made s.Covers x (b.monadic s x) := by
  unfold Builtin.monadic
  split
  · exact made_of_liesIn fun _ h => h
  · exact made_of_liesIn fun _ h => h
  · exact made_carry (fun _ => everywhere_negateAtom) x s
  · change Made s.Covers x (Builtin.not.monadic s x)
    rw [Builtin.monadic_not]
    exact made_carry (fun _ => everywhere_isZeroAtom) x s
  · exact made_ok (made_singleton s fun _ h => h)
  · exact made_reverse s x
  · exact made_error rfl

/-- An operator with two operands makes its answer. -/
theorem made_dyadic (b : Builtin) (s : Site) (x y : Value) :
    Made s.Covers (x, y) (b.dyadic s x y) := by
  unfold Builtin.dyadic
  split
  · exact made_of_liesIn fun st h => ((everywhere_pair ..).1 h).2
  · exact made_of_liesIn fun st h => ((everywhere_pair ..).1 h).2
  · exact made_of_liesIn fun st _ => everywhere_int _
  · exact made_join s x y
  · exact (makes_withRight b y s x).of_input fun st h =>
      (everywhere_pair ..).2 ((everywhere_pair ..).1 h).symm

end SharedArrays
