import SharedArrays.Proofs.Renaming.Operators
import SharedArrays.Proofs.WellFormed.Amend
import SharedArrays.Call

/-!
# Amends under other names

An amend of a value under other names, by a function that answers the same under other names,
leaves what the amend of the value leaves, under other names. The loops for single storage
variants, the placement of keys and the levels of a path are no exception.

## Main definitions

* `Callee.Renamed` — an update function under other names
* `ArrUpdate.Renamed`, `ValueUpdate.Renamed` — updates under other names

## Main results

* `amendAt_rename`, `amendFn_rename` — amends of an array
* `amend_rename`, `amendAlong_rename`, `amendBy_rename` — amends of a value
-/

namespace SharedArrays

/-! ## Selections and operands -/

/-- Positions have no names in them. -/
instance : Renamable Selection := ⟨fun _ sel => sel⟩

instance : Renamable Operands :=
  ⟨fun ρ z => match z with
    | .absent => .absent
    | .whole z => .whole (rename ρ z)
    | .each a => .each (rename ρ a)⟩

variable {ρ : Site → Site}

theorem operandsAt?_rename (z : Operands) (k : Nat) :
    (rename ρ z).at? k = rename ρ (z.at? k) := by
  cases z with
  | each a => exact at?_rename a k
  | _ => rfl

theorem forMany_rename (count : Nat) (z : Option Value) :
    Operands.forMany count (rename ρ z) = rename ρ (Operands.forMany count z) := by
  cases z with
  | none => rfl
  | some z =>
    cases z with
    | array a =>
      show (if (rename ρ a).len = count then .ok (.each (rename ρ a))
        else .error (.length "indices vs values" count (rename ρ a).len) : Result Operands) = _
      rw [len_rename]
      simp only [Operands.forMany]
      split <;> rfl
    | _ => rfl

/-- An update function that does the same under other names. -/
structure Callee.Renamed (ρ : Site → Site) (f f' : Callee) : Prop where
  value : f'.value = rename ρ f.value
  call : ∀ s, Carries ρ s → ∀ args, f'.call (ρ s) (rename ρ args) = rename ρ (f.call s args)

theorem operands_rename {f f' : Callee} (hf : f.Renamed ρ f') (z : Option Value) (sel : Selection) :
    f'.operands (rename ρ z) sel = rename ρ (f.operands z sel) := by
  simp only [Callee.operands, hf.value, isFunction_rename, typeName_rename]
  split
  · cases sel with
    | one i => cases z <;> rfl
    | many ps => exact forMany_rename ps.length z
  · rfl

theorem ofIndex_rename (len : Nat) (y : Value) :
    Selection.ofIndex len (rename ρ y) = rename ρ (Selection.ofIndex len y) := by
  have hsame : Selection.ofIndex len (rename ρ y) = Selection.ofIndex len y := by
    cases y with
    | array a => cases a <;> rfl
    | _ => rfl
  have hnodes := everywhere_ofIndex (P := fun _ => False) len y
  rw [hsame]
  cases hsel : Selection.ofIndex len y with
  | ok sel => rfl
  | error e =>
    rw [hsel] at hnodes
    exact congrArg Except.error (failure_rename hnodes).symm

/-! ## Loops for single storage variants -/

section Loops

theorem ints?_rename (n : Nat) (z : Operands) : (rename ρ z).ints? n = z.ints? n := by
  cases z with
  | absent => rfl
  | whole z => cases z <;> rfl
  | each a => cases a <;> rfl

theorem floats?_rename (n : Nat) (z : Operands) : (rename ρ z).floats? n = z.floats? n := by
  cases z with
  | absent => rfl
  | whole z => cases z <;> rfl
  | each a => cases a <;> rfl

theorem strs?_rename (n : Nat) (z : Operands) : (rename ρ z).strs? n = z.strs? n := by
  cases z with
  | absent => rfl
  | whole z => cases z <;> rfl
  | each a => cases a <;> rfl

variable (hρ : Function.Injective ρ) (c : Scope)
include hρ

theorem updateEach_rename {α β : Type} (w : Window α) (f : α → β → α) (es : List (Nat × β)) :
    (w.rename ρ id).updateEach (rename ρ c) f es = (w.updateEach c f es).rename ρ id := by
  simp only [Window.updateEach, makePrivate_rename hρ]
  simp [Window.rename]

theorem loopOne?_rename (b : Builtin) (ps : List Nat) (a : Arr Value) :
    (rename ρ a).loopOne? (rename ρ c) b ps = rename ρ (a.loopOne? c b ps) := by
  cases a <;> simp only [rename_bools, rename_ints, rename_floats, rename_strs, rename_list,
    Arr.loopOne?, updateEach_rename hρ] <;> cases b <;>
    simp only [rename_some, rename_none, rename_bools, rename_ints, rename_floats]

theorem loopTwo?_rename (b : Builtin) (ps : List Nat) (z : Operands) (a : Arr Value) :
    (rename ρ a).loopTwo? (rename ρ c) b ps (rename ρ z) = rename ρ (a.loopTwo? c b ps z) := by
  cases a with
  | list w =>
    rw [rename_list]
    rfl
  | ints w =>
    simp only [rename_ints, Arr.loopTwo?, updateEach_rename hρ, ints?_rename]
    cases b.intLoop? with
    | none => rfl
    | some f => cases z.ints? ps.length <;> first | rfl | exact congrArg some (rename_ints _).symm
  | floats w =>
    simp only [rename_floats, Arr.loopTwo?, updateEach_rename hρ, ints?_rename, floats?_rename]
    split
    · cases z.floats? ps.length <;> first | rfl | exact congrArg some (rename_floats _).symm
    · cases b.floatLoop? with
      | none => rfl
      | some f =>
        cases z.floats? ps.length <;> cases z.ints? ps.length <;>
          first | rfl | exact congrArg some (rename_floats _).symm
  | bools w =>
    simp only [rename_bools, Arr.loopTwo?, updateEach_rename hρ, ints?_rename]
    split
    · cases z.ints? ps.length with
      | none => rfl
      | some ns =>
        simp only [Option.bind_eq_bind, Option.bind_some]
        split
        · exact congrArg some (rename_bools _).symm
        · rfl
    · rfl
  | strs w =>
    simp only [rename_strs, Arr.loopTwo?, updateEach_rename hρ, strs?_rename]
    split
    · cases z.strs? ps.length <;> first | rfl | exact congrArg some (rename_strs _).symm
    · rfl

theorem loop?_rename (f : Value) (ps : List Nat) (z : Operands) (a : Arr Value) :
    (rename ρ a).loop? (rename ρ c) (rename ρ f) ps (rename ρ z) =
      rename ρ (a.loop? c f ps z) := by
  cases f with
  | builtin b =>
    show Arr.loop? (rename ρ c) (.builtin b) ps (rename ρ z) (rename ρ a) = _
    simp only [Arr.loop?]
    split
    · rfl
    · cases z with
      | absent => exact loopOne?_rename hρ c b ps a
      | whole v => exact loopTwo?_rename hρ c b ps (.whole v) a
      | each e => exact loopTwo?_rename hρ c b ps (.each e) a
  | _ => rfl

end Loops

/-! ## Amends of an array -/

section Amends

variable (hρ : Function.Injective ρ) {f f' : Callee} (hf : f.Renamed ρ f') (settings : Settings)
include hρ hf

theorem amendAt_rename {c : Scope} (h : Carries ρ c.site) (a : Arr Value) (sel : Selection)
    (z : Option Value) :
    (rename ρ a).amendAt settings (rename ρ c) sel f' (rename ρ z) =
      rename ρ (a.amendAt settings c sel f z) := by
  have hsteps (operands : Operands) : Pointwise (Step.Renamed ρ) (Arr.steps c f operands sel)
      (Arr.steps (rename ρ c) f' (rename ρ operands) sel) := by
    refine Pointwise.map (R := Eq) (pointwise_of_forall fun _ _ => rfl) ?_
    rintro ⟨i, k⟩ _ rfl
    refine ⟨rfl, fun old => ?_⟩
    have hargs : rename ρ old :: ((rename ρ operands).at? k).toList =
        rename ρ (old :: (operands.at? k).toList) := by
      rw [operandsAt?_rename]
      cases operands.at? k <;> rfl
    show f'.call ((ρ c.site).sub (k + 1)) _ = _
    rw [hargs, ← h.sub_eq, hf.call _ (h.sub (k + 1))]
  simp only [Arr.amendAt, operands_rename hf, scope_sub_rename h, hf.value]
  cases f.operands z sel with
  | error e => rfl
  | ok operands =>
    simp only [rename_ok, loop?_rename hρ, revise_rename hρ (hsteps operands)]
    cases settings.typedLoops with
    | false => rfl
    | true => cases a.loop? (c.sub 0) f.value sel.positions operands <;> rfl

theorem amendAtIndex_rename (y : Value) {c : Scope} (h : Carries ρ c.site) (a : Arr Value)
    (z : Option Value) :
    amendAtIndex settings f' (rename ρ y) (rename ρ c) (rename ρ a) (rename ρ z) =
      rename ρ (amendAtIndex settings f y c a z) := by
  simp only [amendAtIndex, len_rename, ofIndex_rename]
  cases Selection.ofIndex a.len y with
  | error e => rfl
  | ok sel => exact amendAt_rename hρ hf settings h a sel z

end Amends

/-- The amend of arrays that does the same under other names. -/
def ArrUpdate.Renamed (ρ : Site → Site) (u u' : ArrUpdate) : Prop :=
  ∀ (c : Scope), Carries ρ c.site → ∀ a z,
    u' (rename ρ c) (rename ρ a) (rename ρ z) = rename ρ (u c a z)

theorem amendInTurn_rename {us us' : List ArrUpdate}
    (hus : Pointwise (ArrUpdate.Renamed ρ) us us') (z : Operands) {c : Scope}
    (h : Carries ρ c.site) (k : Nat) (a : Arr Value) :
    amendInTurn (rename ρ z) (rename ρ c) k us' (rename ρ a) =
      rename ρ (amendInTurn z c k us a) := by
  induction us generalizing us' k a with
  | nil =>
    rw [pointwise_nil_left.1 hus]
    rfl
  | cons u us ih =>
    obtain _ | ⟨u', us'⟩ := us'
    · cases hus.1
    obtain ⟨hu, hus⟩ := pointwise_cons.1 hus
    simp only [amendInTurn, operandsAt?_rename, scope_sub_rename h, hu (c.sub k) (h.sub k)]
    obtain ⟨b, e⟩ := u (c.sub k) a (z.at? k)
    cases e with
    | some e => rfl
    | none => exact ih hus (k + 1) b

/-- Amends of arrays at any index. -/
theorem amendFn_rename (hρ : Function.Injective ρ) {f f' : Callee} (hf : f.Renamed ρ f')
    (settings : Settings) (y : Value) :
    ArrUpdate.Renamed ρ (amendFn settings f y) (amendFn settings f' (rename ρ y)) := by
  have hindex (y : Value) (hy : amendFn settings f y = amendAtIndex settings f y)
      (hy' : amendFn settings f' (rename ρ y) = amendAtIndex settings f' (rename ρ y)) :
      ArrUpdate.Renamed ρ (amendFn settings f y) (amendFn settings f' (rename ρ y)) := by
    rw [hy, hy']
    exact fun c h a z => amendAtIndex_rename hρ hf settings y h a z
  induction y using Value.nest_induction with
  | leaf y hleaf => cases y <;> first | exact hindex _ rfl rfl | cases hleaf
  | error t v _ => exact hindex _ rfl rfl
  | dict t keys vals _ _ => exact hindex _ rfl rfl
  | array b ih =>
    cases b with
    | list w =>
      intro c h a z
      have hmembers : Pointwise (ArrUpdate.Renamed ρ) (w.items.map (amendFn settings f))
          ((w.items.map (rename ρ)).map (amendFn settings f')) := by
        refine Pointwise.map (R := fun u u' =>
          ArrUpdate.Renamed ρ (amendFn settings f u) (amendFn settings f' u'))
          ((pointwise_rename w.items).imp_of_mem ?_) fun _ _ => id
        rintro u hu _ rfl
        exact ih u (Window.mem_of_mem_items hu)
      rw [rename_array, rename_list, amendFn_list, amendFn_list, items_rename]
      have hlen : (w.rename ρ (rename ρ)).len = w.len := rfl
      rw [hlen, forMany_rename]
      cases Operands.forMany w.len z with
      | error e => rfl
      | ok operands => exact amendInTurn_rename hmembers operands h 0 a
    | _ w => exact hindex _ rfl rfl

/-! ## Amends of a dictionary -/

instance : Renamable Placement := ⟨fun ρ plan => ⟨plan.selection, rename ρ plan.missing⟩⟩

section Placement

variable (hρ : Function.Injective ρ)
include hρ

theorem newPosition_rename (len : Nat) (missing : List Value) (k : Value) :
    newPosition len (rename ρ missing) (rename ρ k) =
      ((newPosition len missing k).1, rename ρ (newPosition len missing k).2) := by
  have hlen : (rename ρ missing).length = missing.length := List.length_map _
  simp only [newPosition, findIdx?_rename hρ, hlen]
  cases missing.findIdx? (·.eqv k) with
  | some i => rfl
  | none => rw [rename_append]; rfl

theorem placeKeys_rename (len : Nat) (missing : List Value) (found : List (Value × Option Nat)) :
    placeKeys len (rename ρ missing) (found.map (Prod.map (rename ρ) id)) =
      ((placeKeys len missing found).1, rename ρ (placeKeys len missing found).2) := by
  induction found generalizing missing with
  | nil => rfl
  | cons entry found ih =>
    obtain ⟨k, p⟩ := entry
    cases p with
    | some p =>
      simp only [List.map_cons, Prod.map_apply, id_eq, placeKeys, ih]
    | none =>
      simp only [List.map_cons, Prod.map_apply, id_eq, placeKeys, newPosition_rename hρ, ih]

theorem placement_rename (settings : Settings) (d : Dict Value) (y : Value) :
    (rename ρ d).placement settings (rename ρ y) = rename ρ (d.placement settings y) := by
  have hone (k : Value) : (rename ρ d).placeOne (rename ρ k) = rename ρ (d.placeOne k) := by
    simp only [Dict.placeOne, dictFind?_rename d hρ, dictLen_rename]
    cases d.find? k <;> rfl
  cases y with
  | nil =>
    show (⟨.many (List.range (rename ρ d).len), []⟩ : Placement) = _
    rw [dictLen_rename]
    rfl
  | array keys =>
    have hzip (ps : List (Option Nat)) : (rename ρ keys).values.zip ps =
        (keys.values.zip ps).map (Prod.map (rename ρ) id) := by
      rw [values_rename]
      exact List.zip_map_left ..
    have hfind := dictFind?_rename d hρ (.array keys)
    have hplace := placeKeys_rename hρ d.len []
      (keys.values.zip (d.positions keys settings.indexThreshold))
    simp only [rename_array, Dict.placement, keys_rename, kind_rename, dictLen_rename,
      positions_rename d hρ, hzip] at hfind hplace ⊢
    rw [hfind]
    cases (if d.keys.kind = .list then d.find? (.array keys) else none) with
    | some p => rfl
    | none =>
      rw [rename_empty] at hplace
      simp only [hplace]
      rfl
  | _ => exact hone _

end Placement

theorem appended_rename (hρ : Function.Injective ρ) {c : Scope} (h : Carries ρ c.site)
    (d : Dict Value) (ks : List Value) :
    (rename ρ d).appendKeys ((rename ρ c).sub 0) (rename ρ ks) =
      rename ρ (d.appendKeys (c.sub 0) ks) := by
  rw [scope_sub_rename h]
  exact appendKeys_rename d hρ (h.sub 0) ks

theorem besideKeys_rename {c : Scope} (h : Carries ρ c.site) (keys : Arr Value) :
    ((rename ρ c).sub 1).beside [.array (rename ρ keys)] =
      rename ρ ((c.sub 1).beside [.array keys]) := by
  rw [scope_sub_rename h, ← scope_beside_rename]
  rfl

section Containers

variable (hρ : Function.Injective ρ) {f f' : Callee} (hf : f.Renamed ρ f') (settings : Settings)
  {c : Scope} (h : Carries ρ c.site) (z : Option Value)
include hρ hf h

theorem dictAmend_rename (d : Dict Value) (y : Value) :
    (rename ρ d).amend settings (rename ρ c) (rename ρ y) f' (rename ρ z) =
      rename ρ (d.amend settings c y f z) := by
  have hselection : (rename ρ (d.placement settings y)).selection =
      (d.placement settings y).selection := rfl
  simp only [Dict.amend, placement_rename hρ, hselection, operands_rename hf]
  cases f.operands z (d.placement settings y).selection with
  | error e => rfl
  | ok operands =>
    have hmissing : (rename ρ (d.placement settings y)).missing =
        rename ρ (d.placement settings y).missing := rfl
    simp only [rename_ok, hmissing, appended_rename hρ h, keys_rename, vals_rename,
      besideKeys_rename h]
    exact map_rename (amendAt_rename hρ hf settings (h.sub 1) _ _ z) fun vals => rfl

theorem amend_rename (x y : Value) :
    (rename ρ x).amend settings (rename ρ c) (rename ρ y) f' (rename ρ z) =
      rename ρ (x.amend settings c y f z) := by
  cases x with
  | array a => exact map_rename (amendFn_rename hρ hf settings y c h a z) fun b => rfl
  | dict s d =>
    refine map_rename (dictAmend_rename hρ hf settings h z d y) fun e => ?_
    rw [own_rename hρ]
    rfl
  | _ => rfl

end Containers

/-! ## Amends along a path -/

instance : Renamable Unit := ⟨fun _ u => u⟩

instance : Renamable (Selection × Operands) := ⟨fun ρ level => (level.1, rename ρ level.2)⟩

theorem ensureContainers_rename {s : Site} (h : Carries ρ s) (a : Arr Value) (ps : List Nat) :
    (rename ρ a).ensureContainers (ρ s) ps = rename ρ (a.ensureContainers s ps) := by
  have hslots : (ps.map fun i => ((rename ρ a).at? i).getD ((rename ρ a).padding (ρ s))) =
      (ps.map fun i => (a.at? i).getD (a.padding s)).map (rename ρ) := by
    rw [List.map_map]
    refine List.map_congr_left fun i _ => ?_
    show _ = rename ρ ((a.at? i).getD (a.padding s))
    rw [at?_rename, padding_rename h]
    cases a.at? i <;> rfl
  have hname : ((rename ρ a).at? 0).elim (rename ρ a).kind.name Value.typeName =
      (a.at? 0).elim a.kind.name Value.typeName := by
    rw [at?_rename, kind_rename]
    cases a.at? 0 with
    | none => rfl
    | some v => exact typeName_rename v
  have hsame : (rename ρ a).ensureContainers (ρ s) ps = a.ensureContainers s ps := by
    cases a with
    | list w =>
      rw [rename_list] at hslots ⊢
      have hfind (vs : List Value) : (vs.map (rename ρ)).find? (!·.isContainer) =
          (vs.find? (!·.isContainer)).map (rename ρ) := by
        rw [List.find?_map]
        exact congrArg (fun p => (vs.find? p).map _)
          (funext fun v => congrArg (!·) (isContainer_rename v))
      simp only [Arr.ensureContainers, hslots, hfind]
      cases List.find? _ _ with
      | none => rfl
      | some slot => exact congrArg (fun n => Except.error (Failure.depth n)) (typeName_rename slot)
    | _ w => exact congrArg (fun n => Except.error (Failure.depth n)) hname
  have hnodes := everywhere_ensureContainers (P := fun _ => False) s a ps
  rw [hsame]
  cases hopen : a.ensureContainers s ps with
  | ok _ => rfl
  | error e =>
    rw [hopen] at hnodes
    exact congrArg Except.error (failure_rename hnodes).symm

section Paths

variable {f f' : Callee} (hf : f.Renamed ρ f') {s : Site} (h : Carries ρ s) (z : Option Value)
include hf h

theorem arrOpenLevel_rename (a : Arr Value) (y : Value) :
    (rename ρ a).openLevel (ρ s) (rename ρ y) f' (rename ρ z) =
      rename ρ (a.openLevel s y f z) := by
  simp only [Arr.openLevel, len_rename, ofIndex_rename]
  refine bind_rename rfl fun sel => bind_rename (operands_rename hf z sel) fun operands => ?_
  show (if (!sel.positions.isEmpty) = true then _ else _) = _
  split
  · exact bind_rename (ensureContainers_rename h a _) fun _ => rfl
  · rfl

theorem dictOpenLevel_rename (d : Dict Value) (plan : Placement) :
    (rename ρ d).openLevel (ρ s) (rename ρ plan) f' (rename ρ z) =
      rename ρ (d.openLevel s plan f z) := by
  simp only [Dict.openLevel, vals_rename]
  refine bind_rename (operands_rename hf z plan.selection) fun operands => ?_
  show (if (!plan.selection.positions.isEmpty) = true then _ else _) = _
  split
  · exact bind_rename (ensureContainers_rename h d.vals _) fun _ => rfl
  · rfl

end Paths

/-- The update of values that does the same under other names. -/
def ValueUpdate.Renamed (ρ : Site → Site) (u u' : ValueUpdate) : Prop :=
  ∀ (c : Scope), Carries ρ c.site → ∀ x z,
    u' (rename ρ c) (rename ρ x) (rename ρ z) = rename ρ (u c x z)

instance : Renamable (Window Value) := ⟨fun ρ w => w.rename ρ (rename ρ)⟩

theorem amendElements_rename {u u' : ValueUpdate} (hu : ValueUpdate.Renamed ρ u u') (z : Operands)
    {c : Scope} (h : Carries ρ c.site) (k : Nat) (ps : List Nat) (w : Window Value) :
    amendElements u' (rename ρ z) (rename ρ c) k ps (rename ρ w) =
      rename ρ (amendElements u z c k ps w) := by
  induction ps generalizing k w with
  | nil => rfl
  | cons i ps ih =>
    have hitem : (rename ρ w).items[i]? = rename ρ w.items[i]? := by
      show (w.rename ρ (rename ρ)).items[i]? = _
      rw [items_rename, List.getElem?_map]
      rfl
    simp only [amendElements, hitem]
    cases w.items[i]? with
    | none => rfl
    | some slot =>
      have hscope : ((rename ρ c).sub (k + 1)).beside
          ((rename ρ w).buf.eraseIdx ((rename ρ w).off + i)) =
            rename ρ ((c.sub (k + 1)).beside (w.buf.eraseIdx (w.off + i))) := by
        rw [scope_sub_rename h, ← scope_beside_rename, ← eraseIdx_rename]
        rfl
      have hupdate := hu ((c.sub (k + 1)).beside (w.buf.eraseIdx (w.off + i))) (h.sub (k + 1)) slot
        (z.at? k)
      simp only [rename_some, hscope, operandsAt?_rename, hupdate]
      obtain ⟨new, e⟩ := u ((c.sub (k + 1)).beside (w.buf.eraseIdx (w.off + i))) slot (z.at? k)
      have hput : (⟨(rename ρ w).storage,
          (rename ρ w).buf.set ((rename ρ w).off + i) (rename ρ new), (rename ρ w).off,
          (rename ρ w).len, (rename ρ w).flags⟩ : Window Value) =
            rename ρ ⟨w.storage, w.buf.set (w.off + i) new, w.off, w.len, w.flags⟩ :=
        congrArg (Window.mk _ · _ _ _) List.map_set.symm
      cases e with
      | some e => exact congrArg (Outcome.failed · (rename ρ e)) hput
      | none =>
        exact (congrArg (amendElements u' (rename ρ z) (rename ρ c) (k + 1) ps) hput).trans
          (ih (k + 1) _)

theorem amendText_rename (verb : String) (f : Value) (dyadic : Bool) :
    amendText verb (rename ρ f) dyadic = amendText verb f dyadic := by
  cases f <;> rfl

section Along

variable (hρ : Function.Injective ρ)
include hρ

theorem arrAmendElements_rename {u u' : ValueUpdate} (hu : ValueUpdate.Renamed ρ u u')
    (z : Operands) {c : Scope} (h : Carries ρ c.site) (ps : List Nat) (a : Arr Value) :
    (rename ρ a).amendElements u' (rename ρ z) (rename ρ c) ps =
      rename ρ (a.amendElements u z c ps) := by
  cases a with
  | list w =>
    rw [rename_list]
    refine map_rename ?_ fun w => (rename_list w).symm
    rw [scope_sub_rename h, makePrivate_rename hρ]
    exact amendElements_rename hu z h 0 ps _
  | _ w => rfl

variable {f f' : Callee} (hf : f.Renamed ρ f') (settings : Settings)
include hf

theorem amendAlong_rename (path : List Value) :
    ValueUpdate.Renamed ρ (Value.amendAlong settings f path)
      (Value.amendAlong settings f' (rename ρ path)) := by
  have hsite (c : Scope) : (rename ρ c).site = ρ c.site := rfl
  induction path with
  | nil =>
    intro c h x z
    have hargs : rename ρ x :: (rename ρ z).toList = rename ρ (x :: z.toList) := by cases z <;> rfl
    simp only [rename_empty, Value.amendAlong, hargs, hsite, hf.call c.site h]
    cases f.call c.site (x :: z.toList) <;> rfl
  | cons y rest ih =>
    intro c h x z
    cases rest with
    | nil => exact amend_rename hρ hf settings h z x y
    | cons next rest =>
      simp only [rename_cons] at ih ⊢
      cases x with
      | array a =>
        simp only [rename_array, Value.amendAlong, hsite, arrOpenLevel_rename hf h z a y]
        cases a.openLevel c.site y f z with
        | error e => rfl
        | ok level =>
          obtain ⟨sel, operands⟩ := level
          have hlevel : rename ρ (.ok (sel, operands) : Result (Selection × Operands)) =
              .ok (sel, rename ρ operands) := rfl
          simp only [hlevel]
          split
          · rfl
          · exact map_rename (arrAmendElements_rename hρ ih operands h sel.positions a) fun b => rfl
      | dict s d =>
        -- Keys that are functions are compared by name, and so `ρ` has to be injective.
        simp only [rename_dict, Value.amendAlong, hsite, placement_rename hρ,
          dictOpenLevel_rename hf h z d]
        cases d.openLevel c.site (d.placement settings y) f z with
        | error e => rfl
        | ok operands =>
          have hselection : (rename ρ (d.placement settings y)).selection =
              (d.placement settings y).selection := rfl
          have hmissing : (rename ρ (d.placement settings y)).missing =
              rename ρ (d.placement settings y).missing := rfl
          simp only [rename_ok, hselection, hmissing, appended_rename hρ h, keys_rename,
            vals_rename, besideKeys_rename h, own_rename hρ]
          split
          · rfl
          · exact map_rename (arrAmendElements_rename hρ ih operands (h.sub 1) _ _) fun vals => rfl
      | _ => rfl

/-- Amends along a path. -/
theorem amendPath_rename {c : Scope} (h : Carries ρ c.site) (z : Option Value) (x path : Value) :
    (rename ρ x).amendPath settings (rename ρ c) (rename ρ path) f' (rename ρ z) =
      rename ρ (x.amendPath settings c path f z) := by
  have hcomponents : (rename ρ path).components = rename ρ path.components := by
    cases path with
    | array a => exact values_rename a
    | _ => rfl
  have hlen : (rename ρ path.components).length = path.components.length := List.length_map _
  simp only [Value.amendPath, hcomponents, hlen]
  split
  · rfl
  · exact amendAlong_rename hρ hf settings path.components c h x z

/-- Amends of either form, with the name of the operation on failures. -/
theorem amendBy_rename (form : Form) {c : Scope} (h : Carries ρ c.site) (z : Option Value)
    (x y : Value) :
    (rename ρ x).amendBy settings form (rename ρ c) (rename ρ y) f' (rename ρ z) =
      rename ρ (x.amendBy settings form c y f z) := by
  have htext : amendText form.symbol f'.value (rename ρ z).isSome =
      amendText form.symbol f.value z.isSome := by
    rw [hf.value, amendText_rename]
    cases z <;> rfl
  have hduring (o : Outcome Value) (op : String) :
      (⟨(rename ρ o).slot, (rename ρ o).failure.map (·.during op)⟩ : Outcome Value) =
        rename ρ (⟨o.slot, o.failure.map (·.during op)⟩ : Outcome Value) := by
    obtain ⟨v, e⟩ := o
    cases e with
    | none => rfl
    | some e =>
      obtain ⟨c, op', hint⟩ := e
      cases c <;> rfl
  simp only [Value.amendBy, htext]
  cases form with
  | flat => simp only [amend_rename hρ hf settings h, hduring]
  | path => simp only [amendPath_rename hρ hf settings h, hduring]

end Along

end SharedArrays
