import SharedArrays.Proofs.Renaming.Arrays
import SharedArrays.Proofs.Twins.Operators

/-!
# Operators under other names

An operator answers the same for values under other names, under other names, and it fails for
them in the same way.

## Main definitions

* `FromLeft.Renamed`, `Step.Renamed` — functions of a value, under other names

## Main results

* `bind_rename` — one computation after the other
* `runSteps_rename`, `revise_rename` — updates of an array
* `mergeWith_rename` — merging dictionaries
* `carry_rename`, `withRight_rename` — functions carried through containers
* `monadic_rename`, `dyadic_rename` — the operators
-/

namespace SharedArrays

variable {ρ : Site → Site}

/-! ## Results -/

section Results

variable {α β : Type} [Renamable α] [Renamable β]

theorem bind_rename {r r' : Result α} {f f' : α → Result β} (hr : r' = rename ρ r)
    (hf : ∀ a, f' (rename ρ a) = rename ρ (f a)) : (r' >>= f') = rename ρ (r >>= f) := by
  subst hr
  cases r with
  | ok a => exact hf a
  | error e => rfl

theorem allOk_rename (rs : List (Result α)) : allOk (rename ρ rs) = rename ρ (allOk rs) := by
  induction rs with
  | nil => rfl
  | cons r rs ih => exact bind_rename rfl fun x => bind_rename ih fun xs => rfl

theorem allOk_of_pointwise {rs rs' : List (Result α)}
    (h : Pointwise (fun r r' => r' = rename ρ r) rs rs') : allOk rs' = rename ρ (allOk rs) := by
  have hrs : rs' = rename ρ rs := List.ext_getElem? fun i => by
    rw [rename_list_eq_map, List.getElem?_map]
    rcases h.getElem? i with ⟨hnone, hnone'⟩ | ⟨r, r', hr, hr', heq⟩
    · rw [hnone, hnone']
      rfl
    · rw [hr, hr', heq]
      rfl
  rw [hrs, allOk_rename]

theorem toResult_rename (o : Outcome α) : (rename ρ o).toResult = rename ρ o.toResult := by
  obtain ⟨a, e⟩ := o
  cases e <;> rfl

theorem raised_rename (o : Outcome α) : (rename ρ o).raised = rename ρ o.raised := by
  obtain ⟨a, e⟩ := o
  cases e with
  | none => rfl
  | some e =>
    obtain ⟨c, op, hint⟩ := e
    cases c <;> rfl

theorem map_rename {o o' : Outcome α} {f f' : α → β} (ho : o' = rename ρ o)
    (hf : ∀ a, f' (rename ρ a) = rename ρ (f a)) : o'.map f' = rename ρ (o.map f) := by
  subst ho
  exact congrArg (Outcome.mk · _) (hf o.slot)

end Results

theorem settle_rename (v : Value) : (rename ρ v).settle = rename ρ v.settle := by
  cases v <;> rfl

/-! ## Atoms -/

/-- A failure without handles inside has no names. -/
theorem failure_rename {e : Failure Value} (h : Everywhere (fun _ => False) e) :
    rename ρ e = e := by
  obtain ⟨c, op, hint⟩ := e
  cases c with
  | raised v =>
    have hv : rename ρ v = v := rename_eq_self fun t ⟨u, hu, _⟩ => (h u hu).elim
    show (⟨.raised (rename ρ v), op, hint⟩ : Failure Value) = _
    rw [hv]
  | _ => rfl

/-- An answer without handles inside has no names. -/
theorem rename_of_no_nodes {r : Result Value} (h : Everywhere (fun _ => False) r) :
    rename ρ r = r := by
  cases r with
  | ok v => exact congrArg Except.ok (rename_eq_self fun t ⟨u, hu, _⟩ => (h u hu).elim)
  | error e => exact congrArg Except.error (failure_rename h)

theorem onAtoms_rename (b : Builtin) (x y : Value) :
    b.onAtoms (rename ρ x) (rename ρ y) = rename ρ (b.onAtoms x y) := by
  rw [rename_of_no_nodes (everywhere_onAtoms b x y)]
  have hbad (a : Arr Value) :
      (.error (.type "number" (rename ρ (.array a : Value)).typeName) : Result Value) =
        .error (.type "number" (Value.array a).typeName) := by rw [typeName_rename]
  cases x with
  | array a => exact hbad a
  | str s => cases y <;> rfl
  | int m =>
    cases y with
    | array a => exact hbad a
    | _ => rfl
  | float x =>
    cases y with
    | array a => exact hbad a
    | _ => rfl
  | _ => rfl

theorem negateAtom_rename (v : Value) : negateAtom (rename ρ v) = rename ρ (negateAtom v) := by
  cases v with
  | array a => cases a <;> rfl
  | _ => rfl

theorem isZeroAtom_rename (v : Value) : isZeroAtom (rename ρ v) = rename ρ (isZeroAtom v) := by
  cases v with
  | array a => cases a <;> rfl
  | _ => rfl

/-! ## Updates of an array -/

/-- The step at the same position that does the same under other names. -/
def Step.Renamed (ρ : Site → Site) (st st' : Step) : Prop :=
  st'.position = st.position ∧ ∀ v, st'.run (rename ρ v) = rename ρ (st.run v)

theorem runSteps_rename (hρ : Function.Injective ρ) {steps steps' : List Step}
    (h : Pointwise (Step.Renamed ρ) steps steps') (c : Scope) (a : Arr Value) :
    (rename ρ a).runSteps (rename ρ c) steps' = rename ρ (a.runSteps c steps) := by
  induction steps generalizing steps' a with
  | nil =>
    rw [pointwise_nil_left.1 h]
    rfl
  | cons st steps ih =>
    obtain _ | ⟨st', steps'⟩ := steps'
    · cases h.1
    obtain ⟨⟨hpos, hrun⟩, hrest⟩ := pointwise_cons.1 h
    simp only [Arr.runSteps, hpos, at?_rename, len_rename]
    cases a.at? st.position with
    | none => rfl
    | some old =>
      simp only [rename_some, hrun old]
      cases st.run old with
      | error e => rfl
      | ok new =>
        simp only [rename_ok, put_rename hρ]
        exact ih hrest _

theorem revise_rename (hρ : Function.Injective ρ) {steps steps' : List Step}
    (h : Pointwise (Step.Renamed ρ) steps steps') (c : Scope) (a : Arr Value) :
    (rename ρ a).revise (rename ρ c) steps' = rename ρ (a.revise c steps) := by
  simp only [Arr.revise, runSteps_rename hρ h, raised_rename, scope_beside_rename]
  exact map_rename rfl fun b => canonical_rename hρ _ b

/-! ## Containers -/

theorem gather_rename (s : Site) (kind : Kind) (predicate : Bool) (vs : List Value) :
    gather (ρ s) kind predicate (rename ρ vs) = rename ρ (gather s kind predicate vs) := by
  have hempty : (rename ρ vs).isEmpty = vs.isEmpty := by cases vs <;> rfl
  simp only [gather, hempty, ofValues_rename, empty_rename]
  split
  · rfl
  · cases Arr.ofValues s vs with
    | ints w =>
      simp only [rename_ints, items_rename, List.map_id]
      split
      · rfl
      · exact (rename_ints w).symm
    | _ w => rfl

theorem withVals_rename (s : Site) (d : Dict Value) (vals : Arr Value) :
    (rename ρ d).withVals (ρ s) (rename ρ vals) = rename ρ (d.withVals s vals) :=
  bind_rename (ofArrays?_rename d.keys vals) fun _ => rfl

theorem pointwise_rename {α : Type} [Renamable α] (xs : List α) :
    Pointwise (fun x x' => x' = rename ρ x) xs (rename ρ xs) :=
  ⟨(List.length_map _).symm, fun i x y hx hy => by
    rw [rename_list_eq_map, List.getElem?_map, hx] at hy
    exact (Option.some.inj hy).symm⟩

/-- The array of answers. -/
theorem gathered_rename (s : Site) (kind : Kind) (predicate : Bool) {rs rs' : List (Result Value)}
    (h : Pointwise (fun r r' => r' = rename ρ r) rs rs') :
    (do return gather (ρ s) kind predicate (← allOk rs')) =
      rename ρ (do return gather s kind predicate (← allOk rs) : Result (Arr Value)) :=
  bind_rename (allOk_of_pointwise h) fun vs =>
    congrArg Except.ok (gather_rename s kind predicate vs)

theorem array_rename {r r' : Result (Arr Value)} :
    (do return .array (← r')) = rename ρ (do return .array (← r) : Result Value) ↔
      r' = rename ρ r := by
  refine ⟨fun h => ?_, fun h => bind_rename h fun _ => rfl⟩
  cases r <;> cases r' <;> cases h <;> rfl

theorem carry_rename (predicate : Bool) {f f' : Value → Result Value}
    (hf : ∀ v, f' (rename ρ v) = rename ρ (f v)) (v : Value) {s : Site} (h : Carries ρ s) :
    (rename ρ v).carry predicate f' (ρ s) = rename ρ (v.carry predicate f s) := by
  induction v using Value.nest_induction generalizing s with
  | leaf v hleaf => cases v <;> first | exact hf _ | cases hleaf
  | error t v => exact hf _
  | dict t keys vals _ ih =>
    have hvals : (rename ρ vals).carry predicate f' ((ρ s).sub 0) =
        rename ρ (vals.carry predicate f (s.sub 0)) := by
      rw [← h.sub_eq]
      exact array_rename.1 (ih (h.sub 0))
    exact bind_rename hvals fun vals' => withVals_rename s ⟨keys, vals⟩ vals'
  | array a ih =>
    refine array_rename.2 ?_
    cases a with
    | list w =>
      have hlist (f : Value → Result Value) (w : Window Value) (s : Site) :
          (Arr.list w).carry predicate f s = do
            let vs ← allOk (w.items.mapIdx fun i v =>
              v.carry predicate f (s.sub (0 + (w.off + i))))
            return gather s .list predicate vs := by
        simp only [Arr.carry, carryCells_eq_mapIdx, stretch_mapIdx]
        rfl
      show (rename ρ (Arr.list w)).carry predicate f' (ρ s) = _
      rw [rename_list, hlist, hlist, items_rename]
      refine gathered_rename s .list predicate (Pointwise.mapIdx
        ((pointwise_rename w.items).imp_of_mem (S := fun u u' => ∀ s, Carries ρ s →
          u'.carry predicate f' (ρ s) = rename ρ (u.carry predicate f s)) ?_) ?_)
      · rintro u hu _ rfl s h
        exact ih u (Window.mem_of_mem_items hu) h
      · intro i u u' hcarry
        rw [← hcarry _ (h.sub _), h.sub_eq]
        rfl
    | _ w =>
      have hvalues (a : Arr Value) : Pointwise (fun r r' => r' = rename ρ r) (a.values.map f)
          ((rename ρ a).values.map f') := by
        rw [values_rename]
        exact (pointwise_rename a.values).map fun u u' hu => hu ▸ hf u
      exact gathered_rename s _ predicate (hvalues _)

/-! ## Merging -/

theorem mergePlan_rename (hρ : Function.Injective ρ) (threshold : Nat) (l r : Dict Value) :
    (rename ρ l).mergePlan threshold (rename ρ r) = l.mergePlan threshold r := by
  simp only [Dict.mergePlan, keys_rename, positions_rename l hρ]

theorem appendFrom_rename {s : Site} (h : Carries ρ s) (d r : Dict Value) (fresh : List Nat) :
    (rename ρ d).appendFrom (ρ s) (rename ρ r) fresh = rename ρ (d.appendFrom s r fresh) := by
  simp only [Dict.appendFrom, ← h.sub_eq, keys_rename, vals_rename, arrSelect_rename]
  split
  · rfl
  · exact bind_rename rfl fun ks => bind_rename rfl fun vs => append?_rename d (h.sub 2) ks vs

theorem mergeWith_rename (hρ : Function.Injective ρ) {s : Site} (h : Carries ρ s) (threshold : Nat)
    {combine combine' : List (Nat × Nat) → Arr Value → Result (Arr Value)}
    (hcombine : ∀ common vals, combine' common (rename ρ vals) = rename ρ (combine common vals))
    (l r : Dict Value) :
    (rename ρ l).mergeWith (ρ s) threshold combine' (rename ρ r) =
      rename ρ (l.mergeWith s threshold combine r) := by
  simp only [Dict.mergeWith, mergePlan_rename hρ, vals_rename, hcombine]
  refine bind_rename ?_ fun vals => appendFrom_rename h ⟨l.keys, vals⟩ r _
  split <;> rfl

/-! ## Two operands -/

/-- The function of the left operand that does the same under other names. -/
def FromLeft.Renamed (ρ : Site → Site) (f f' : FromLeft) : Prop :=
  ∀ s, Carries ρ s → ∀ x, f' (ρ s) (rename ρ x) = rename ρ (f s x)

section FromLeft

variable {b : Builtin} {fns fns' : List FromLeft} (hfns : Pointwise (FromLeft.Renamed ρ) fns fns')
  {s : Site} (h : Carries ρ s)
include hfns h

theorem pairs_rename (a : Arr Value) :
    Builtin.overArray.pairs b fns' (ρ s) (rename ρ a) =
      rename ρ (Builtin.overArray.pairs b fns s a) := by
  simp only [Builtin.overArray.pairs, len_rename, kind_rename, values_rename, ← hfns.1]
  split
  · refine gathered_rename s _ _ (Pointwise.mapIdx
      (R := fun (p q : Value × FromLeft) => q.1 = rename ρ p.1 ∧ FromLeft.Renamed ρ p.2 q.2)
      ⟨?_, ?_⟩ ?_)
    · rw [List.length_zip, List.length_zip, ← (pointwise_rename a.values).1, hfns.1]
    · intro i p q hp hq
      obtain ⟨hp₁, hp₂⟩ := List.getElem?_zip_eq_some.1 hp
      obtain ⟨hq₁, hq₂⟩ := List.getElem?_zip_eq_some.1 hq
      exact ⟨(pointwise_rename a.values).2 i _ _ hp₁ hq₁, hfns.2 i _ _ hp₂ hq₂⟩
    · rintro i ⟨x, f⟩ ⟨_, f'⟩ ⟨rfl, hf⟩
      rw [← hf _ (h.sub i), h.sub_eq]
  · rfl

theorem overArray_rename (kind : Kind) (x : Value) :
    b.overArray kind fns' (ρ s) (rename ρ x) = rename ρ (b.overArray kind fns s x) := by
  have hatom : (do return .array (gather (ρ s) kind b.isPredicate
      (← allOk (fns'.mapIdx fun k f => f ((ρ s).sub k) (rename ρ x)))) : Result Value) =
        rename ρ (do return .array (gather s kind b.isPredicate
          (← allOk (fns.mapIdx fun k f => f (s.sub k) x)))) := by
    refine bind_rename (allOk_of_pointwise (hfns.mapIdx fun k f f' hf => ?_)) fun vs => ?_
    · rw [← hf _ (h.sub k), h.sub_eq]
    · exact congrArg (fun a => Except.ok (Value.array a)) (gather_rename s kind _ vs)
  cases x with
  | array a => exact array_rename.2 (pairs_rename hfns h a)
  | dict t d =>
    refine bind_rename ?_ fun vals => withVals_rename s d vals
    show Builtin.overArray.pairs b fns' ((ρ s).sub 0) (rename ρ d.vals) = _
    rw [← h.sub_eq]
    exact pairs_rename hfns (h.sub 0) d.vals
  | _ => exact hatom

theorem overVals_rename (d : Dict Value) (x : Value) :
    b.overVals (rename ρ d) fns' (ρ s) (rename ρ x) = rename ρ (b.overVals d fns s x) := by
  have hover := overArray_rename (b := b) hfns (h.sub 0) d.vals.kind x
  rw [h.sub_eq] at hover
  simp only [Builtin.overVals, vals_rename, kind_rename]
  refine bind_rename hover fun v => ?_
  cases v with
  | array vals => exact withVals_rename s d vals
  | _ => rfl

theorem mergeBy_rename (hρ : Function.Injective ρ) (l r : Dict Value) :
    (rename ρ l).mergeBy (ρ s) fns' (rename ρ r) = rename ρ (l.mergeBy s fns r) := by
  refine mergeWith_rename hρ h _ (fun common vals => ?_) l r
  have hsteps : Pointwise (Step.Renamed ρ) (mergeSteps s fns common)
      (mergeSteps (ρ s) fns' common) := by
    refine Pointwise.map (R := Eq) (pointwise_of_forall fun _ _ => rfl) ?_
    rintro ⟨⟨i, j⟩, k⟩ _ rfl
    refine ⟨rfl, fun old => bind_rename ?_ settle_rename⟩
    rw [← h.sub_eq, ← (h.sub 4).sub_eq]
    rcases hfns.getElem? j with ⟨hnone, hnone'⟩ | ⟨f, f', hf, hf', hff'⟩
    · rw [hnone, hnone']
      rfl
    · rw [hf, hf']
      exact hff' _ ((h.sub 4).sub k) old
  have hrevise := revise_rename hρ hsteps ⟨[.array l.vals], s.sub 3⟩ vals
  rw [← toResult_rename, ← hrevise]
  show Outcome.toResult (Arr.revise ⟨_, (ρ s).sub 3⟩ _ _) = _
  rw [← h.sub_eq]
  rfl

end FromLeft

/-- The functions that an operator makes of a value. The functions of the elements are carried
along, because a dictionary uses those of its values. -/
theorem withRight_and_elements_rename (hρ : Function.Injective ρ) (b : Builtin) (y : Value) :
    FromLeft.Renamed ρ (withRight b y) (withRight b (rename ρ y)) ∧ ∀ c, y = .array c →
      Pointwise (FromLeft.Renamed ρ) (withRightElements b c)
        (withRightElements b (rename ρ c)) := by
  have hatom (y : Value) : FromLeft.Renamed ρ (fun s x => x.carry b.isPredicate (b.onAtoms · y) s)
      (fun s x => x.carry b.isPredicate (b.onAtoms · (rename ρ y)) s) := fun s h x =>
    carry_rename b.isPredicate (fun v => onAtoms_rename b v y) x h
  induction y using Value.nest_induction with
  | leaf y hleaf =>
    refine ⟨?_, fun c hc => by subst hc; cases hleaf⟩
    cases y <;> first | exact hatom _ | cases hleaf
  | error t v _ => exact ⟨hatom _, nofun⟩
  | array c ih =>
    have helements : Pointwise (FromLeft.Renamed ρ) (withRightElements b c)
        (withRightElements b (rename ρ c)) := by
      rw [withRightElements_eq_map, withRightElements_eq_map, values_rename]
      refine Pointwise.map (R := fun u u' => FromLeft.Renamed ρ (withRight b u) (withRight b u'))
        ((pointwise_rename c.values).imp_of_mem ?_) fun _ _ => id
      rintro u hu _ rfl
      cases c with
      | list w => exact (ih u (Window.mem_of_mem_items hu)).1
      | _ w =>
        obtain ⟨x, -, rfl⟩ := List.mem_map.1 hu
        exact hatom _
    refine ⟨fun s h x => ?_, ?_⟩
    · show b.overArray (rename ρ c).kind _ _ _ = _
      rw [kind_rename]
      exact overArray_rename helements h c.kind x
    · rintro _ ⟨⟩
      exact helements
  | dict t keys vals _ ih =>
    have helements := ih.2 vals rfl
    refine ⟨fun s h x => ?_, nofun⟩
    have hover := overVals_rename (b := b) helements h ⟨keys, vals⟩ x
    cases x with
    | dict u l =>
      exact bind_rename (mergeBy_rename helements h hρ l ⟨keys, vals⟩) fun m => rfl
    | _ => exact hover

/-- An operator with two operands, carried through containers. -/
theorem withRight_rename (hρ : Function.Injective ρ) (b : Builtin) (x y : Value) {s : Site}
    (h : Carries ρ s) :
    withRight b (rename ρ y) (ρ s) (rename ρ x) = rename ρ (withRight b y s x) :=
  (withRight_and_elements_rename hρ b y).1 s h x

/-! ## Joining and reversing -/

theorem singleton_rename (s : Site) (v : Value) :
    Arr.singleton (ρ s) (rename ρ v) = rename ρ (Arr.singleton s v) := ofValues_rename s [v]

theorem reverse_rename (s : Site) (v : Value) :
    (rename ρ v).reverse (ρ s) = rename ρ (v.reverse s) := by
  cases v with
  | array a =>
    refine array_rename.2 ?_
    show (rename ρ a).select (ρ s) (List.range (rename ρ a).len).reverse = _
    rw [len_rename, arrSelect_rename]
  | _ => rfl

theorem join_rename (hρ : Function.Injective ρ) {s : Site} (h : Carries ρ s) (x y : Value) :
    (rename ρ x).join (ρ s) (rename ρ y) = rename ρ (x.join s y) := by
  have hone (v : Value) : Arr.singleton ((ρ s).sub 0) (rename ρ v) =
      rename ρ (Arr.singleton (s.sub 0) v) := by rw [← h.sub_eq, singleton_rename]
  have hconcat {a b a' b' : Arr Value} (ha : a' = rename ρ a) (hb : b' = rename ρ b) :
      (.ok (.array (a'.concat (ρ s) b')) : Result Value) =
        rename ρ (.ok (.array (a.concat s b)) : Result Value) := by
    rw [ha, hb, concat_rename]
    rfl
  -- Joined dictionaries are merged: each entry on the right answers itself to what it meets.
  have hdict (t u : Site) (l r : Dict Value) :
      (rename ρ (.dict t l : Value)).join (ρ s) (rename ρ (.dict u r : Value)) =
        rename ρ ((Value.dict t l).join s (.dict u r)) := by
    have hfns : Pointwise (FromLeft.Renamed ρ) (r.vals.values.map fun v _ _ => .ok v)
        ((rename ρ r).vals.values.map fun v _ _ => .ok v) := by
      rw [vals_rename, values_rename]
      refine (pointwise_rename r.vals.values).map ?_
      rintro v _ rfl s h x
      rfl
    exact bind_rename (mergeBy_rename hfns h hρ l r) fun m => rfl
  have hleft (x : Value) (b : Arr Value) :
      (.ok (.array ((Arr.singleton ((ρ s).sub 0) (rename ρ x)).concat (ρ s) (rename ρ b))) :
        Result Value) = rename ρ (.ok (.array ((Arr.singleton (s.sub 0) x).concat s b))) :=
    hconcat (hone x) rfl
  have hpair (x y : Value) : (.ok (.array (Arr.ofValues (ρ s) [rename ρ x, rename ρ y])) :
      Result Value) = rename ρ (.ok (.array (Arr.ofValues s [x, y]))) :=
    congrArg (fun a => Except.ok (Value.array a)) (ofValues_rename s [x, y])
  cases x with
  | array a =>
    cases y with
    | array b => exact hconcat rfl rfl
    | dict u r => exact hconcat rfl (hone (.dict u r))
    | _ => exact hconcat rfl (hone _)
  | dict t l =>
    cases y with
    | dict u r => exact hdict t u l r
    | array b => exact hleft (.dict t l) b
    | _ => exact hpair (.dict t l) _
  | _ =>
    cases y with
    | array b => exact hleft _ b
    | dict u r => exact hpair _ (.dict u r)
    | _ => exact hpair _ _

/-! ## All operators -/

theorem monadic_rename (b : Builtin) {s : Site} (h : Carries ρ s) (x : Value) :
    b.monadic (ρ s) (rename ρ x) = rename ρ (b.monadic s x) := by
  cases b with
  | subtract => exact carry_rename false negateAtom_rename x h
  | not =>
    rw [Builtin.monadic_not, Builtin.monadic_not]
    exact carry_rename true isZeroAtom_rename x h
  | join => exact congrArg (fun a => Except.ok (Value.array a)) (singleton_rename s x)
  | max => exact reverse_rename s x
  | _ => rfl

theorem dyadic_rename (hρ : Function.Injective ρ) (b : Builtin) {s : Site} (h : Carries ρ s)
    (x y : Value) : b.dyadic (ρ s) (rename ρ x) (rename ρ y) = rename ρ (b.dyadic s x y) := by
  cases b with
  | not =>
    rw [Builtin.dyadic, Builtin.dyadic, eqv_rename hρ]
    rfl
  | join => exact join_rename hρ h x y
  | identity => rfl
  | right => rfl
  | _ => exact withRight_rename hρ _ x y h

end SharedArrays
