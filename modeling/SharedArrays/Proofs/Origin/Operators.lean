import SharedArrays.Proofs.Everywhere
import SharedArrays.Operators

/-!
# Operators fail without a name

A failure carries the name of the operation that it arose in only when somebody put it there. The
operators do not: whatever an operator rejects, it answers the bare failure. So the first name
that a failure takes on is that of something which surrounds the operator.

## Main definitions

* `Unnamed` — a computation whose failures name no operation

## Main results

* `unnamed_carry`, `unnamed_withRight` — functions carried through containers
* `unnamed_monadic`, `unnamed_dyadic` — the operators
-/

namespace SharedArrays

variable {α β : Type}

/-- If the computation fails, then with a failure that names no operation. -/
def Unnamed : Result α → Prop
  | .ok _ => True
  | .error e => e.op = none

@[simp] theorem unnamed_ok (a : α) : Unnamed (.ok a : Result α) := trivial

@[simp] theorem unnamed_error (e : Failure Value) :
    Unnamed (.error e : Result α) ↔ e.op = none := Iff.rfl

theorem unnamed_iff {r : Result α} : Unnamed r ↔ ∀ e, r = .error e → e.op = none := by
  cases r <;> simp

theorem unnamed_bind {r : Result α} {f : α → Result β} (hr : Unnamed r)
    (hf : ∀ a, r = .ok a → Unnamed (f a)) : Unnamed (r >>= f) := by
  cases r with
  | ok a => exact hf a rfl
  | error e => exact hr

theorem unnamed_map {r : Result α} {g : α → β} (hr : Unnamed r) :
    Unnamed (do return g (← r)) := unnamed_bind hr fun _ _ => unnamed_ok _

theorem unnamed_of_map {r : Result α} {g : α → β} (h : Unnamed (do return g (← r))) :
    Unnamed r := by
  cases r with
  | ok a => exact unnamed_ok a
  | error e => exact h

theorem unnamed_settle (v : Value) : Unnamed v.settle := by
  cases v <;> first | exact unnamed_ok _ | exact rfl

theorem unnamed_allOk {rs : List (Result α)} (h : ∀ r ∈ rs, Unnamed r) : Unnamed (allOk rs) := by
  induction rs with
  | nil => exact unnamed_ok _
  | cons r rs ih =>
    obtain ⟨hr, hrs⟩ := List.forall_mem_cons.1 h
    exact unnamed_bind hr fun _ _ => unnamed_map (ih hrs)

/-! ## Atoms -/

theorem unnamed_onAtoms (b : Builtin) (x y : Value) : Unnamed (b.onAtoms x y) := by
  unfold Builtin.onAtoms
  split
  case h_5 => unfold Builtin.onStrings; split <;> first | exact unnamed_ok _ | exact rfl
  all_goals first | exact unnamed_ok _ | exact rfl

theorem unnamed_negateAtom (v : Value) : Unnamed (negateAtom v) := by
  cases v <;> first | exact unnamed_ok _ | exact rfl

theorem unnamed_isZeroAtom (v : Value) : Unnamed (isZeroAtom v) := by
  cases v <;> first | exact unnamed_ok _ | exact rfl

/-! ## Containers -/

theorem unnamed_select (s : Site) (a : Arr Value) (ps : List Nat) : Unnamed (a.select s ps) := by
  unfold Arr.select
  split <;> first | exact unnamed_ok _ | exact rfl

theorem unnamed_withVals (s : Site) (d : Dict Value) (vals : Arr Value) :
    Unnamed (d.withVals s vals) := by
  refine unnamed_map ?_
  unfold Dict.ofArrays?
  split <;> first | exact unnamed_ok _ | exact rfl

theorem unnamed_appendFrom (s : Site) (d r : Dict Value) (fresh : List Nat) :
    Unnamed (d.appendFrom s r fresh) := by
  unfold Dict.appendFrom
  split
  · exact unnamed_ok d
  · refine unnamed_bind (unnamed_select ..) fun ks _ =>
      unnamed_bind (unnamed_select ..) fun vs _ => ?_
    unfold Dict.append?
    split <;> first | exact unnamed_ok _ | exact rfl

theorem unnamed_mergeWith {s : Site} {threshold : Nat} {l r : Dict Value}
    {combine : List (Nat × Nat) → Arr Value → Result (Arr Value)}
    (h : ∀ common a, Unnamed (combine common a)) : Unnamed (l.mergeWith s threshold combine r) := by
  refine unnamed_bind ?_ fun vals _ => unnamed_appendFrom ..
  split <;> first | exact unnamed_ok _ | exact h ..

theorem unnamed_carry (predicate : Bool) {f : Value → Result Value} (hf : ∀ v, Unnamed (f v))
    (s : Site) (v : Value) : Unnamed (v.carry predicate f s) := by
  induction v using Value.nest_induction generalizing s with
  | leaf v hleaf => cases v <;> first | exact hf _ | cases hleaf
  | error t v => exact hf _
  | dict t keys vals _ ih =>
    have hvals : Unnamed (vals.carry predicate f (s.sub 0)) := by
      have harray := ih (s.sub 0)
      simp only [Value.carry] at harray
      exact unnamed_of_map harray
    exact unnamed_bind hvals fun a _ => unnamed_withVals ..
  | array a ih =>
    refine unnamed_map ?_
    cases a with
    | list w =>
      simp only [Arr.carry, carryCells_eq_mapIdx]
      refine unnamed_map (unnamed_allOk fun r hr => ?_)
      obtain ⟨i, hi, rfl⟩ := List.mem_mapIdx.1 (List.mem_of_mem_drop (List.mem_of_mem_take hr))
      exact ih _ (List.getElem_mem hi) _
    | _ w =>
      refine unnamed_map (unnamed_allOk fun r hr => ?_)
      obtain ⟨v, -, rfl⟩ := List.mem_map.1 hr
      exact hf v

/-! ## Two operands -/

/-- A run of steps that fail without a name. -/
theorem unnamed_revise {c : Scope} {steps : List Step} {a : Arr Value}
    (h : ∀ st ∈ steps, ∀ v, Unnamed (st.run v)) : Unnamed (a.revise c steps).toResult := by
  have hrun (a : Arr Value) : ∀ e, (a.runSteps c steps).failure = some e → e.op = none := by
    induction steps generalizing a with
    | nil => nofun
    | cons st steps ih =>
      obtain ⟨hst, hsteps⟩ := List.forall_mem_cons.1 h
      intro e he
      simp only [Arr.runSteps] at he
      split at he
      · cases he
        rfl
      · rename_i old _
        split at he
        · rename_i hrun
          cases he
          exact unnamed_iff.1 (hst old) _ hrun
        · exact ih hsteps _ e he
  simp only [Arr.revise, Outcome.toResult, Outcome.failure_map]
  cases hf : (a.runSteps c steps).failure with
  | none => exact unnamed_ok _
  | some e => exact hrun a e hf

section FromLeft

variable {fns : List FromLeft} (hfns : ∀ f ∈ fns, ∀ s x, Unnamed (f s x))
include hfns

theorem unnamed_pairs (b : Builtin) (s : Site) (a : Arr Value) :
    Unnamed (Builtin.overArray.pairs b fns s a) := by
  unfold Builtin.overArray.pairs
  split
  · refine unnamed_map (unnamed_allOk fun r hr => ?_)
    obtain ⟨i, hi, rfl⟩ := List.mem_mapIdx.1 hr
    exact hfns _ (List.of_mem_zip (List.getElem_mem hi)).2 _ _
  · exact rfl

theorem unnamed_overArray (b : Builtin) (kind : Kind) (s : Site) (x : Value) :
    Unnamed (b.overArray kind fns s x) := by
  have hatom : Unnamed (do
      return .array (gather s kind b.isPredicate (← allOk (fns.mapIdx fun k f => f (s.sub k) x)))
      : Result Value) := by
    refine unnamed_map (unnamed_allOk fun r hr => ?_)
    obtain ⟨i, hi, rfl⟩ := List.mem_mapIdx.1 hr
    exact hfns _ (List.getElem_mem hi) _ _
  cases x with
  | array a => exact unnamed_map (unnamed_pairs hfns b s a)
  | dict t d => exact unnamed_bind (unnamed_pairs hfns b ..) fun c _ => unnamed_withVals ..
  | _ => exact hatom

theorem unnamed_overVals (b : Builtin) (d : Dict Value) (s : Site) (x : Value) :
    Unnamed (b.overVals d fns s x) := by
  refine unnamed_bind (unnamed_overArray hfns b ..) fun v _ => ?_
  split
  · exact unnamed_withVals ..
  · exact rfl

theorem unnamed_mergeBy (s : Site) (l r : Dict Value) : Unnamed (l.mergeBy s fns r) := by
  refine unnamed_mergeWith fun common a => unnamed_revise fun st hst v => ?_
  obtain ⟨⟨⟨i, j⟩, k⟩, -, rfl⟩ := List.mem_map.1 hst
  refine unnamed_bind ?_ fun v _ => unnamed_settle v
  cases hj : fns[j]? with
  | none => exact unnamed_ok v
  | some f => exact hfns f (List.mem_of_getElem? hj) _ _

end FromLeft

/-- The functions of the elements are carried along, because a dictionary uses those of its
values. -/
theorem unnamed_withRight_and_elements (b : Builtin) (y : Value) :
    (∀ s x, Unnamed (withRight b y s x)) ∧
      ∀ c, y = .array c → ∀ f ∈ withRightElements b c, ∀ s x, Unnamed (f s x) := by
  have hcarry (y : Value) (s : Site) (x : Value) :
      Unnamed (x.carry b.isPredicate (b.onAtoms · y) s) :=
    unnamed_carry b.isPredicate (unnamed_onAtoms b · y) s x
  induction y using Value.nest_induction with
  | leaf y hleaf =>
    refine ⟨?_, fun c hc => by subst hc; cases hleaf⟩
    cases y <;> first | exact hcarry _ | cases hleaf
  | error t v => exact ⟨hcarry _, nofun⟩
  | array c ih =>
    have helements : ∀ f ∈ withRightElements b c, ∀ s x, Unnamed (f s x) := by
      intro f hf
      rw [withRightElements_eq_map] at hf
      obtain ⟨v, hv, rfl⟩ := List.mem_map.1 hf
      cases c with
      | list w => exact (ih v (List.mem_of_mem_drop (List.mem_of_mem_take hv))).1
      | _ w =>
        obtain ⟨x, -, rfl⟩ := List.mem_map.1 hv
        exact hcarry _
    exact ⟨fun s x => unnamed_overArray helements b _ s x, by rintro _ ⟨⟩; exact helements⟩
  | dict t keys vals _ ihv =>
    have helements := ihv.2 vals rfl
    refine ⟨fun s x => ?_, nofun⟩
    cases x with
    | dict u l => exact unnamed_map (unnamed_mergeBy helements s l _)
    | _ => exact unnamed_overVals helements b _ s _

theorem unnamed_withRight (b : Builtin) (y : Value) (s : Site) (x : Value) :
    Unnamed (withRight b y s x) := (unnamed_withRight_and_elements b y).1 s x

/-! ## The operators -/

theorem unnamed_join (s : Site) (x y : Value) : Unnamed (x.join s y) := by
  unfold Value.join
  split
  · refine unnamed_map (unnamed_mergeBy (fun f hf s x => ?_) ..)
    obtain ⟨v, -, rfl⟩ := List.mem_map.1 hf
    exact unnamed_ok v
  all_goals exact unnamed_ok _

/-- An operator with one operand fails without a name. -/
theorem unnamed_monadic (b : Builtin) (s : Site) (x : Value) : Unnamed (b.monadic s x) := by
  unfold Builtin.monadic
  split
  · exact unnamed_ok x
  · exact unnamed_ok x
  · exact unnamed_carry false unnamed_negateAtom s x
  · change Unnamed (Builtin.not.monadic s x)
    rw [Builtin.monadic_not]
    exact unnamed_carry true unnamed_isZeroAtom s x
  · exact unnamed_ok _
  · unfold Value.reverse
    split
    · exact unnamed_map (unnamed_select ..)
    · exact unnamed_ok _
  · exact rfl

/-- An operator with two operands fails without a name. -/
theorem unnamed_dyadic (b : Builtin) (s : Site) (x y : Value) : Unnamed (b.dyadic s x y) := by
  unfold Builtin.dyadic
  split
  · exact unnamed_ok y
  · exact unnamed_ok y
  · exact unnamed_ok _
  · exact unnamed_join s x y
  · exact unnamed_withRight b y s x

end SharedArrays
