import SharedArrays.Proofs.Renaming.Basic
import SharedArrays.Proofs.Lookup

/-!
# Arrays and dictionaries under other names

Whatever is done to an array under other names leaves what it leaves under the old ones, under
other names. What a function of windows, arrays or dictionaries makes new it makes at a given
site; a renaming that carries this site along carries along what is made there.

## Main definitions

* `Carries` — a renaming that moves a site together with everything below it

## Main results

* `eqv_rename` — which values are equal
* `eqv_rename_self` — a value equals itself under other names, if its functions keep theirs
* `freeze_rename`, `canonical_rename`, `put_rename`, `push_rename` — writing to arrays
* `positions_rename`, `appendKeys_rename` — dictionaries
-/

namespace SharedArrays

variable {ρ : Site → Site}

/-! ## Sites -/

/-- `ρ` moves the site `s` together with everything below it. -/
def Carries (ρ : Site → Site) (s : Site) : Prop := ∀ t, s.Covers t → ∀ k, ρ (t.sub k) = (ρ t).sub k

theorem Carries.sub_eq {s : Site} (h : Carries ρ s) (k : Nat) : ρ (s.sub k) = (ρ s).sub k :=
  h s s.covers_refl k

theorem Carries.sub {s : Site} (h : Carries ρ s) (k : Nat) : Carries ρ (s.sub k) :=
  fun t ht => h t ht.of_sub

theorem scope_sub_rename {c : Scope} (h : Carries ρ c.site) (k : Nat) :
    (rename ρ c).sub k = rename ρ (c.sub k) :=
  congrArg (Scope.mk _) (h.sub_eq k).symm

theorem scope_beside_rename (c : Scope) (vs : List Value) :
    (rename ρ c).beside (rename ρ vs) = rename ρ (c.beside vs) :=
  congrArg (Scope.mk · _) (rename_append c.held vs).symm

/-! ## Windows -/

section Windows

variable {α : Type} {g : α → α}

@[simp] theorem items_rename (w : Window α) : (w.rename ρ g).items = w.items.map g :=
  stretch_map ..

theorem isPrivate_rename (hρ : Function.Injective ρ) (c : Scope) (w : Window α) :
    (w.rename ρ g).isPrivate (rename ρ c) = w.isPrivate c :=
  congrArg (!w.flags.pinned && !·) (scope_holds_rename hρ w.storage c)

theorem makePrivate_rename (hρ : Function.Injective ρ) (c : Scope) (w : Window α) :
    (w.rename ρ g).makePrivate (rename ρ c) = (w.makePrivate c).rename ρ g := by
  unfold Window.makePrivate
  rw [isPrivate_rename hρ, items_rename]
  split <;> simp [Window.rename, Window.ofList, rename]

theorem write_rename (hρ : Function.Injective ρ) (c : Scope) (w : Window α) (i : Nat) (x : α) :
    (w.rename ρ g).write (rename ρ c) i (g x) = (w.write c i x).rename ρ g := by
  simp only [Window.write, makePrivate_rename hρ]
  simp [Window.rename, List.map_set]

theorem append_rename (hρ : Function.Injective ρ) (c : Scope) (w : Window α) (xs : List α) :
    (w.rename ρ g).append (rename ρ c) (xs.map g) = (w.append c xs).rename ρ g := by
  simp only [Window.append, makePrivate_rename hρ, items_rename, ← List.map_append]
  simp [Window.rename, Window.ofList]

theorem select_rename (s : Site) (w : Window α) (ps : List Nat) :
    (w.rename ρ g).select (ρ s) ps = (w.select s ps).rename ρ g := by
  have hitems : ps.filterMap ((w.rename ρ g).items[·]?) = (ps.filterMap (w.items[·]?)).map g := by
    simp only [items_rename, List.getElem?_map, List.map_filterMap]
  simp only [Window.select, hitems]
  simp [Window.rename, Window.ofList]

end Windows

/-! ## Reading -/

section Reading

variable (a : Arr Value)

@[simp] theorem kind_rename : (rename ρ a).kind = a.kind := by cases a <;> rfl

@[simp] theorem len_rename : (rename ρ a).len = a.len := by cases a <;> rfl

@[simp] theorem flags_rename : (rename ρ a).flags = a.flags := by cases a <;> rfl

@[simp] theorem values_rename : (rename ρ a).values = rename ρ a.values := by
  cases a with
  | list w => rw [rename_list]; exact items_rename w
  | _ w =>
    rw [rename_list_eq_map]
    show List.map _ w.items = List.map (rename ρ) (List.map _ w.items)
    rw [List.map_map]
    rfl

@[simp] theorem at?_rename (i : Nat) : (rename ρ a).at? i = rename ρ (a.at? i) := by
  rw [Arr.at?, values_rename]
  exact List.getElem?_map ..

@[simp] theorem typeName_rename (v : Value) : (rename ρ v).typeName = v.typeName := by
  cases v with
  | array a => exact congrArg Kind.name (kind_rename a)
  | _ => rfl

@[simp] theorem isFunction_rename (v : Value) : (rename ρ v).isFunction = v.isFunction := by
  cases v <;> rfl

@[simp] theorem isContainer_rename (v : Value) : (rename ρ v).isContainer = v.isContainer := by
  cases v <;> rfl

@[simp] theorem atomKind_rename (v : Value) : (rename ρ v).atomKind = v.atomKind := by
  cases v <;> rfl

end Reading

/-! ## Equality -/

theorem eqvAtom_rename (hρ : Function.Injective ρ) (u v : Value) :
    (rename ρ u).eqvAtom (rename ρ v) = u.eqvAtom v := by
  have hsite (s t : Site) : (ρ s == ρ t) = (s == t) := by
    rw [Bool.eq_iff_iff, beq_iff_eq, beq_iff_eq, hρ.eq_iff]
  cases u <;> first | rfl | (cases v <;> first | rfl | exact hsite _ _)

/-- Renamed values are equal just if the values are. -/
theorem eqv_rename (hρ : Function.Injective ρ) (u v : Value) :
    (rename ρ u).eqv (rename ρ v) = u.eqv v := by
  induction u using Value.nest_induction generalizing v with
  | leaf u hleaf => cases u <;> first | exact eqvAtom_rename hρ _ v | cases hleaf
  | error s u ih => cases v <;> first | rfl | exact ih _
  | dict s keys vals ihk ihv =>
    cases v with
    | dict t e =>
      have hk : (rename ρ keys).eqv (rename ρ e.keys) = keys.eqv e.keys := ihk (.array e.keys)
      have hv : (rename ρ vals).eqv (rename ρ e.vals) = vals.eqv e.vals := ihv (.array e.vals)
      show ((rename ρ keys).eqv (rename ρ e.keys) && (rename ρ vals).eqv (rename ρ e.vals)) = _
      rw [hk, hv]
      rfl
    | _ => rfl
  | array a ih =>
    cases v with
    | array b =>
      show (rename ρ a).eqv (rename ρ b) = a.eqv b
      cases a with
      | list w =>
        rw [rename_list, Arr.eqv_list, Arr.eqv_list, values_rename, items_rename, List.map_map]
        exact allPass_map_map (fun u hu v => ih u (Window.mem_of_mem_items hu) v) b.values
      | _ w =>
        -- The elements without tags are atoms.
        show allPass (List.map Value.eqvAtom (Arr.values _)) (rename ρ b).values = _
        rw [values_rename, values_rename, rename_list_eq_map, List.map_map]
        exact allPass_map_map (fun u _ v => eqvAtom_rename hρ u v) b.values
    | _ => rfl

theorem eqvAtom_rename_self {v : Value} (hv : v.isLeaf = true)
    (h : v.isFunction = true → ∀ t, v.name? = some t → ρ t = t) :
    v.eqvAtom (rename ρ v) = true := by
  cases v <;> first
    | exact eqvAtom_refl rfl
    | exact beq_iff_eq.2 (h rfl _ rfl).symm
    | cases hv

/-- A value equals itself under other names, as far as the functions in it keep their names. -/
theorem eqv_rename_self {v : Value}
    (h : ∀ u ∈ v.nodes, u.isFunction = true → ∀ t, u.name? = some t → ρ t = t) :
    v.eqv (rename ρ v) = true := by
  induction v using Value.nest_induction with
  | leaf v hleaf =>
    -- Comparing reads the names of functions, and of no other leaf.
    have hself : v.isFunction = true → ∀ t, v.name? = some t → ρ t = t := fun hfun t ht => by
      cases v <;> first
        | exact h _ (List.mem_cons_self ..) rfl t ht
        | exact absurd hfun Bool.false_ne_true
        | cases ht
    cases v <;> first | exact eqvAtom_rename_self hleaf hself | cases hleaf
  | error s u ih => exact ih fun v hv => h v (List.mem_cons_of_mem _ hv)
  | dict s keys vals ihk ihv =>
    have hk : keys.eqv (rename ρ keys) = true :=
      ihk fun u hu => h u (List.mem_cons_of_mem _ (List.mem_append_left _ hu))
    have hv : vals.eqv (rename ρ vals) = true :=
      ihv fun u hu => h u (List.mem_cons_of_mem _ (List.mem_append_right _ hu))
    show (keys.eqv (rename ρ keys) && vals.eqv (rename ρ vals)) = true
    rw [hk, hv]
    rfl
  | array a ih =>
    show a.eqv (rename ρ a) = true
    have hall {test : Value → Value → Bool} {us : List Value}
        (htest : ∀ u ∈ us, test u (rename ρ u) = true) :
        allPass (us.map test) (rename ρ us) = true := by
      induction us with
      | nil => rfl
      | cons u us ih =>
        obtain ⟨hu, hus⟩ := List.forall_mem_cons.1 htest
        rw [List.map_cons, rename_cons, allPass, hu, ih hus]
        rfl
    cases a with
    | list w =>
      rw [Arr.eqv_list, values_rename]
      refine hall fun u hu => ih u (Window.mem_of_mem_items hu) fun v hv => h v ?_
      refine List.mem_cons_of_mem _ ?_
      rw [nodesOfCells_eq]
      exact List.mem_flatMap.2 ⟨u, Window.mem_of_mem_items hu, hv⟩
    | _ w =>
      show allPass (List.map Value.eqvAtom _) _ = true
      rw [values_rename]
      refine hall fun u hu => ?_
      obtain ⟨x, -, rfl⟩ := List.mem_map.1 hu
      exact eqvAtom_rename_self rfl fun hfun => absurd hfun Bool.false_ne_true

/-! ## Sharing -/

/-- Values that differ in sharing only differ in sharing only under other names. -/
theorem alike_rename {u v : Value} (h : Alike u v) : Alike (rename ρ u) (rename ρ v) := by
  have harray {a b : Arr Value} (hab : Alike a b)
      (ih : ∀ u ∈ a.values, ∀ v, Alike u v → Alike (rename ρ u) (rename ρ v)) :
      Alike (rename ρ a) (rename ρ b) := by
    obtain ⟨hkind, hfacts, hvalues⟩ := alike_arr_iff.1 hab
    refine alike_arr_iff.2 ⟨?_, ?_, ?_⟩
    · rw [kind_rename, kind_rename, hkind]
    · rw [flags_rename, flags_rename, hfacts]
    · rw [values_rename, values_rename]
      generalize a.values = us at hvalues ih
      generalize b.values = vs at hvalues
      induction us generalizing vs with
      | nil =>
        rw [alike_nil.1 hvalues]
        exact .refl _
      | cons u us ihus =>
        obtain ⟨v, vs, rfl, huv, hvalues⟩ := hvalues.exists_cons
        obtain ⟨hu, hus⟩ := List.forall_mem_cons.1 ih
        exact alike_cons.2 ⟨hu v huv, ihus hus vs hvalues⟩
  induction u using Value.elements_induction generalizing v with
  | leaf u hleaf =>
    rw [h.eq_of_isLeaf hleaf]
    exact .refl _
  | array a ih =>
    rcases alike_value_cases h with ⟨_, b, ⟨⟩, rfl, hab⟩ | ⟨_, _, _, _, ⟨⟩, -⟩ |
      ⟨_, _, _, _, ⟨⟩, -⟩ | ⟨hleaf, -⟩
    · exact alike_array.2 (harray hab fun u hu v => ih u hu)
    · cases hleaf
  | dict s keys vals ihk ihv =>
    rcases alike_value_cases h with ⟨_, _, ⟨⟩, -⟩ | ⟨_, t, _, e, ⟨⟩, rfl, hde⟩ |
      ⟨_, _, _, _, ⟨⟩, -⟩ | ⟨hleaf, -⟩
    · obtain ⟨hk, hv⟩ := alike_entries.1 hde
      exact alike_dict.2 (alike_entries.2 ⟨alike_array.1 (ihk (alike_array.2 hk)),
        alike_array.1 (ihv (alike_array.2 hv))⟩)
    · cases hleaf
  | error s u ih =>
    rcases alike_value_cases h with ⟨_, _, ⟨⟩, -⟩ | ⟨_, _, _, _, ⟨⟩, -⟩ |
      ⟨_, t, _, u', ⟨⟩, rfl, huu⟩ | ⟨hleaf, -⟩
    · exact congrArg (Value.error ⟨[]⟩) (ih huu)
    · cases hleaf

/-! ## Searching -/

theorem findIdx?_rename (hρ : Function.Injective ρ) (us : List Value) (k : Value) :
    (rename ρ us).findIdx? (·.eqv (rename ρ k)) = us.findIdx? (·.eqv k) := by
  rw [rename_list_eq_map, List.findIdx?_map]
  exact congrArg (us.findIdx? ·) (funext fun u => eqv_rename hρ u k)

theorem find?_rename (hρ : Function.Injective ρ) (a : Arr Value) (k : Value) :
    (rename ρ a).find? (rename ρ k) = a.find? k := by
  cases a with
  | list w =>
    have hlist (w : Window Value) (k : Value) :
        (Arr.list w).find? k = w.items.findIdx? (·.eqv k) := by cases k <;> rfl
    rw [rename_list, hlist, hlist, items_rename]
    exact findIdx?_rename hρ w.items k
  | _ w => cases k <;> rfl

/-! ## Freezing and canonical storage -/

theorem eraseIdx_rename (vs : List Value) (i : Nat) :
    (rename ρ vs).eraseIdx i = rename ρ (vs.eraseIdx i) := by
  induction vs generalizing i with
  | nil => rfl
  | cons v vs ih =>
    cases i with
    | zero => rfl
    | succ i => exact congrArg (rename ρ v :: ·) (ih i)

theorem freeze_rename (hρ : Function.Injective ρ) (c : Scope) (v : Value) :
    (rename ρ v).freeze (rename ρ c) = rename ρ (v.freeze c) := by
  induction v using Value.nest_induction generalizing c with
  | leaf v hleaf => cases v <;> first | rfl | cases hleaf
  | error s v _ => rfl
  | dict s keys vals ihk ihv =>
    have hk := Value.array.inj (ihk (c.beside [.array vals]))
    have hv := Value.array.inj (ihv (c.beside [.array keys]))
    show (Value.dict (ρ s) ⟨rename ρ keys, rename ρ vals⟩).freeze (rename ρ c) = _
    simp only [Value.freeze, scope_holds_rename hρ]
    split
    · rfl
    · refine congrArg (Value.dict (ρ s)) ?_
      show (⟨(rename ρ keys).freeze ((rename ρ c).beside (rename ρ [.array vals])),
        (rename ρ vals).freeze ((rename ρ c).beside (rename ρ [.array keys]))⟩ : Dict Value) = _
      rw [scope_beside_rename, scope_beside_rename]
      exact congr (congrArg Dict.mk hk) hv
  | array a ih =>
    refine congrArg Value.array ?_
    cases a with
    | list w =>
      have hcells : (w.rename ρ (rename ρ)).frozenCells (rename ρ c) =
          (w.frozenCells c).map (rename ρ) := by
        apply List.ext_getElem
        · simp [Window.frozenCells, Window.rename]
        · intro i hi hi'
          have hcell : i < w.buf.length := by simpa [Window.frozenCells] using hi'
          simp only [Window.frozenCells, Window.rename, List.getElem_map, List.getElem_mapIdx]
          split
          · have heach := ih _ (List.getElem_mem hcell) (c.beside (w.buf.eraseIdx i))
            rw [← heach, ← scope_beside_rename, ← eraseIdx_rename]
            rfl
          · rfl
      show (rename ρ (Arr.list w)).freeze (rename ρ c) = rename ρ ((Arr.list w).freeze c)
      have hheld : (rename ρ c).holds (w.rename ρ (rename ρ)).storage = c.holds w.storage :=
        scope_holds_rename hρ w.storage c
      rw [rename_list, Arr.freeze_list, Arr.freeze_list, rename_list, hcells, hheld]
      split <;> rfl
    | _ w => rfl

theorem arrFreeze_rename (hρ : Function.Injective ρ) (c : Scope) (a : Arr Value) :
    (rename ρ a).freeze (rename ρ c) = rename ρ (a.freeze c) :=
  Value.array.inj (freeze_rename hρ c (.array a))

@[simp] theorem tightKind_rename (vs : List Value) : tightKind (rename ρ vs) = tightKind vs := by
  cases vs with
  | nil => rfl
  | cons v vs =>
    rw [rename_cons, tightKind, tightKind, rename_list_eq_map, List.all_map]
    simp only [Function.comp_def, atomKind_rename]

theorem pack_rename (s : Site) (vs : List Value) (k : Kind) :
    Arr.pack (ρ s) (rename ρ vs) k = rename ρ (Arr.pack s vs k) := by
  have hfilter {α : Type} (g : Value → Option α) (hg : ∀ v, g (rename ρ v) = g v) :
      (rename ρ vs).filterMap g = vs.filterMap g := by
    rw [rename_list_eq_map, List.filterMap_map]
    exact congrArg (vs.filterMap ·) (funext hg)
  cases k <;> simp only [Arr.pack] <;> first
    | (rw [hfilter _ fun v => by cases v <;> rfl]; rfl)
    | (rw [rename_list]; simp [Window.ofList, Window.rename, rename_list_eq_map])

theorem ofValues_rename (s : Site) (vs : List Value) :
    Arr.ofValues (ρ s) (rename ρ vs) = rename ρ (Arr.ofValues s vs) := by
  rw [Arr.ofValues, tightKind_rename, pack_rename]
  rfl

theorem canonical_rename (hρ : Function.Injective ρ) (c : Scope) (a : Arr Value) :
    (rename ρ a).canonical (rename ρ c) = rename ρ (a.canonical c) := by
  cases a with
  | list w =>
    have hkind : tightKind (w.items.map (rename ρ)) = tightKind w.items := tightKind_rename w.items
    rw [rename_list, Arr.canonical, Arr.canonical, items_rename, hkind]
    split
    · show (if w.flags.pinned = true then _ else _) =
        rename ρ (if w.flags.pinned = true then _ else _)
      split
      · rw [← rename_list]
        exact arrFreeze_rename hρ c (.list w)
      · rw [rename_list]
    · exact pack_rename c.site w.items _
  | _ w => rfl

/-! ## Writing -/

theorem store_rename {edit edit' : ∀ {β : Type}, Window β → β → Window β}
    (h : ∀ {β : Type} (g : β → β) (w : Window β) (x : β),
      edit' (w.rename ρ g) (g x) = (edit w x).rename ρ g) (a : Arr Value) (v : Value) :
    (rename ρ a).store edit' (rename ρ v) =
      match a.store edit v with
      | .ok b => .ok (rename ρ b)
      | .error u => .error (rename ρ u) := by
  cases a with
  | bools w =>
    rw [rename_bools]
    cases v with
    | int n =>
      show (if n == 0 || n == 1 then Except.ok (Arr.bools (edit' (w.rename ρ id) (id (n == 1))))
        else Except.error (Value.int n)) = _
      rw [h id w (n == 1), ← rename_bools]
      simp only [Arr.store]
      split <;> rfl
    | _ => rfl
  | ints w =>
    rw [rename_ints]
    cases v with
    | int n => exact congrArg Except.ok ((congrArg Arr.ints (h id w n)).trans (rename_ints _).symm)
    | _ => rfl
  | floats w =>
    rw [rename_floats]
    cases v with
    | float x =>
      exact congrArg Except.ok ((congrArg Arr.floats (h id w x)).trans (rename_floats _).symm)
    | _ => rfl
  | strs w =>
    rw [rename_strs]
    cases v with
    | str s => exact congrArg Except.ok ((congrArg Arr.strs (h id w s)).trans (rename_strs _).symm)
    | _ => rfl
  | list w =>
    have hlist (edit : ∀ {β : Type}, Window β → β → Window β) (w : Window Value) (v : Value) :
        (Arr.list w).store edit v = .ok (.list (edit w v)) := by cases v <;> rfl
    rw [rename_list, hlist, hlist, h (rename ρ) w v, ← rename_list]

theorem ofList_rename (s : Site) (vs : List Value) :
    (.list (.ofList (ρ s) (rename ρ vs)) : Arr Value) = rename ρ (.list (.ofList s vs)) := by
  rw [rename_list]
  simp [Window.ofList, Window.rename, rename_list_eq_map]

theorem put_rename (hρ : Function.Injective ρ) (c : Scope) (a : Arr Value) (i : Nat) (v : Value) :
    (rename ρ a).put (rename ρ c) i (rename ρ v) = rename ρ (a.put c i v) := by
  have hset := @store_rename ρ (fun w x => w.write c i x) (fun w x => w.write (rename ρ c) i x)
    (fun _ w x => write_rename hρ c w i x) a v
  simp only [Arr.put, Arr.set, hset]
  cases a.store (fun w x => w.write c i x) v with
  | ok b => rfl
  | error u =>
    simp only [values_rename]
    rw [← ofList_rename, rename_list_eq_map, rename_list_eq_map, List.map_set]
    rfl

theorem push_rename (hρ : Function.Injective ρ) (c : Scope) (a : Arr Value) (v : Value) :
    (rename ρ a).push (rename ρ c) (rename ρ v) = rename ρ (a.push c v) := by
  have happend := @store_rename ρ (fun w x => w.append c [x]) (fun w x => w.append (rename ρ c) [x])
    (fun _ w x => append_rename hρ c w [x]) a v
  simp only [Arr.push, happend]
  cases a.store (fun w x => w.append c [x]) v with
  | ok b => rfl
  | error u =>
    simp only [values_rename]
    rw [← ofList_rename, rename_append]
    rfl

theorem arrSelect_rename (s : Site) (a : Arr Value) (ps : List Nat) :
    (rename ρ a).select (ρ s) ps = rename ρ (a.select s ps) := by
  simp only [Arr.select, len_rename]
  split
  · rfl
  · cases a <;> simp only [rename_bools, rename_ints, rename_floats, rename_strs, rename_list,
      Arr.update, select_rename, rename_ok]

theorem concat_rename (s : Site) (a b : Arr Value) :
    (rename ρ a).concat (ρ s) (rename ρ b) = rename ρ (a.concat s b) := by
  have hmixed : (if (rename ρ b).len = 0 then rename ρ a
      else if (rename ρ a).len = 0 then rename ρ b
      else .ofValues (ρ s) ((rename ρ a).values ++ (rename ρ b).values)) =
        rename ρ (if b.len = 0 then a else if a.len = 0 then b
          else .ofValues s (a.values ++ b.values)) := by
    simp only [len_rename, values_rename, ← rename_append, ofValues_rename]
    split
    · rfl
    · split <;> rfl
  cases a <;> cases b <;> first | exact hmixed | rfl

/-! ## Neutral values -/

theorem empty_rename (s : Site) (k : Kind) :
    (Arr.empty (ρ s) k : Arr Value) = rename ρ (Arr.empty s k) := by
  cases k <;> rfl

theorem neutral_rename {s : Site} (h : Carries ρ s) (v : Value) :
    (rename ρ v).neutral (ρ s) = rename ρ (v.neutral s) := by
  cases v with
  | array a =>
    show Value.array (.empty (ρ s) (rename ρ a).kind) = _
    rw [kind_rename, empty_rename]
    rfl
  | dict t d =>
    show Value.dict (ρ s) ⟨.empty ((ρ s).sub 0) .list, .empty ((ρ s).sub 1) .list⟩ = _
    rw [← h.sub_eq, ← h.sub_eq]
    rfl
  | _ => rfl

theorem padding_rename {s : Site} (h : Carries ρ s) (a : Arr Value) :
    (rename ρ a).padding (ρ s) = rename ρ (a.padding s) := by
  cases a with
  | list w =>
    rw [rename_list]
    simp only [Arr.padding, items_rename, List.head?_map]
    cases w.items.head? with
    | none => rfl
    | some v => exact neutral_rename h v
  | _ => rfl

/-! ## Dictionaries -/

section Dictionaries

variable (d : Dict Value)

@[simp] theorem keys_rename : (rename ρ d).keys = rename ρ d.keys := rfl

@[simp] theorem vals_rename : (rename ρ d).vals = rename ρ d.vals := rfl

@[simp] theorem dictLen_rename : (rename ρ d).len = d.len := len_rename d.keys

theorem dictFind?_rename (hρ : Function.Injective ρ) (k : Value) :
    (rename ρ d).find? (rename ρ k) = d.find? k := find?_rename hρ d.keys k

theorem positions_rename (hρ : Function.Injective ρ) (keys : Arr Value) (threshold : Nat) :
    (rename ρ d).positions (rename ρ keys) threshold = d.positions keys threshold := by
  have hmap {g g' : Value → Option Nat} (hg : ∀ k, g (rename ρ k) = g' k) :
      (rename ρ keys).values.map g = keys.values.map g' := by
    rw [values_rename, rename_list_eq_map, List.map_map]
    exact congrArg (List.map · _) (funext hg)
  simp only [Dict.positions, len_rename]
  split
  · exact hmap (dictFind?_rename d hρ)
  · refine hmap fun k => ?_
    rw [KeyIndex.find?_ofKeys_eq, KeyIndex.find?_ofKeys_eq, keys_rename, values_rename]
    exact findIdx?_rename hρ d.keys.values k

theorem appendKey_rename (hρ : Function.Injective ρ) {c : Scope} (h : Carries ρ c.site)
    (k : Value) :
    (rename ρ d).appendKey (rename ρ c) (rename ρ k) = rename ρ (d.appendKey c k) := by
  have hsite : (rename ρ c).site.sub 3 = ρ (c.site.sub 3) := (h.sub_eq 3).symm
  have harray (a : Arr Value) : [Value.array (rename ρ a)] = rename ρ [Value.array a] := rfl
  simp only [Dict.appendKey, keys_rename, vals_rename, harray, scope_sub_rename h,
    scope_beside_rename, push_rename hρ, canonical_rename hρ, hsite, padding_rename (h.sub 3)]
  rfl

theorem appendKeys_rename (hρ : Function.Injective ρ) {c : Scope} (h : Carries ρ c.site)
    (ks : List Value) :
    (rename ρ d).appendKeys (rename ρ c) (rename ρ ks) = rename ρ (d.appendKeys c ks) := by
  have hfrom (n : Nat) (d : Dict Value) :
      Dict.appendKeysFrom (rename ρ c) n (rename ρ ks) (rename ρ d) =
        rename ρ (Dict.appendKeysFrom c n ks d) := by
    induction ks generalizing n d with
    | nil => rfl
    | cons k ks ih =>
      rw [rename_cons, Dict.appendKeysFrom, scope_sub_rename h, appendKey_rename d hρ (h.sub n)]
      exact ih (n + 1) _
  rw [Dict.appendKeys_eq, Dict.appendKeys_eq]
  exact hfrom 0 d

theorem append?_rename {s : Site} (h : Carries ρ s) (keys vals : Arr Value) :
    (rename ρ d).append? (ρ s) (rename ρ keys) (rename ρ vals) =
      rename ρ (d.append? s keys vals) := by
  simp only [Dict.append?, len_rename, keys_rename, vals_rename, ← h.sub_eq, concat_rename]
  split <;> rfl

theorem ofArrays?_rename (keys vals : Arr Value) :
    Dict.ofArrays? (rename ρ keys) (rename ρ vals) = rename ρ (Dict.ofArrays? keys vals) := by
  simp only [Dict.ofArrays?, len_rename]
  split <;> rfl

end Dictionaries

theorem own_rename (hρ : Function.Injective ρ) (c : Scope) (s : Site) :
    (rename ρ c).own (ρ s) = ρ (c.own s) := by
  simp only [Scope.own, scope_holds_rename hρ]
  split <;> rfl

end SharedArrays
