import SharedArrays.Proofs.Store.Basic
import SharedArrays.Arr.Freeze
import SharedArrays.Value.Equality
import SharedArrays.Value.Text

/-!
# Names are only names

The names of shared objects are compared with each other and never looked at in any other way. So
a program that runs on values under other names does the same, under other names, as long as
different objects keep different names. This file gives the objects of a value other names, and
shows that what can be asked about a value does not change by that.

## Main definitions

* `Value.rename`, `Renamable` — values, and what holds values, under other names

## Main results

* `holds_rename` — which objects a value keeps alive
* `rename_eq_self` — names that are kept
-/

namespace SharedArrays

/-! ## Other names -/

mutual

/-- The value with the names that `ρ` gives. -/
def Value.rename (ρ : Site → Site) : Value → Value
  | .array a => .array (a.rename ρ)
  | .dict s ⟨keys, vals⟩ => .dict (ρ s) ⟨keys.rename ρ, vals.rename ρ⟩
  | .error s v => .error (ρ s) (v.rename ρ)
  | .lambda s name arity body => .lambda (ρ s) name arity (body.rename ρ)
  | .compose s outer inner => .compose (ρ s) (outer.rename ρ) (inner.rename ρ)
  | .project s f args => .project (ρ s) (f.rename ρ) (renameArgs ρ args)
  | .nil => .nil
  | .int n => .int n
  | .float x => .float x
  | .str s => .str s
  | .builtin b => .builtin b

/-- The array with the names that `ρ` gives. -/
def Arr.rename (ρ : Site → Site) : Arr Value → Arr Value
  | .bools w => .bools { w with storage := ρ w.storage }
  | .ints w => .ints { w with storage := ρ w.storage }
  | .floats w => .floats { w with storage := ρ w.storage }
  | .strs w => .strs { w with storage := ρ w.storage }
  | .list ⟨s, buf, off, len, flags⟩ => .list ⟨ρ s, renameCells ρ buf, off, len, flags⟩

/-- The elements of a buffer with the names that `ρ` gives. -/
def renameCells (ρ : Site → Site) : List Value → List Value
  | [] => []
  | v :: vs => v.rename ρ :: renameCells ρ vs

/-- The arguments of a projection with the names that `ρ` gives. -/
def renameArgs (ρ : Site → Site) : List (Option Value) → List (Option Value)
  | [] => []
  | none :: vs => none :: renameArgs ρ vs
  | some v :: vs => some (v.rename ρ) :: renameArgs ρ vs

/-- The body of a user function with the names that `ρ` gives. -/
def Body.rename (ρ : Site → Site) : Body Value → Body Value
  | .arg k => .arg k
  | .const v => .const (v.rename ρ)
  | .call f args => .call (f.rename ρ) (renameBodies ρ args)
  | .raise b => .raise (b.rename ρ)
  -- Of all causes only this one holds a value.
  | .fail ⟨.raised v, op, hint⟩ => .fail ⟨.raised (v.rename ρ), op, hint⟩
  | .fail e => .fail e
  | .branch c t e => .branch (c.rename ρ) (t.rename ρ) (e.rename ρ)
  | .amend form x y f => .amend form (x.rename ρ) (y.rename ρ) (f.rename ρ)
  | .amendWith form x y f z =>
    .amendWith form (x.rename ρ) (y.rename ρ) (f.rename ρ) (z.rename ρ)

/-- Several bodies with the names that `ρ` gives. -/
def renameBodies (ρ : Site → Site) : List (Body Value) → List (Body Value)
  | [] => []
  | b :: bs => b.rename ρ :: renameBodies ρ bs

end

/-- What has names that can be changed. -/
class Renamable (α : Type) where
  /-- The same with other names. -/
  rename : (Site → Site) → α → α

export Renamable (rename)

instance : Renamable Site := ⟨fun ρ s => ρ s⟩

instance : Renamable Value := ⟨Value.rename⟩

instance : Renamable (Arr Value) := ⟨Arr.rename⟩

instance : Renamable (Body Value) := ⟨Body.rename⟩

instance : Renamable (Dict Value) := ⟨fun ρ d => ⟨d.keys.rename ρ, d.vals.rename ρ⟩⟩

instance {α : Type} [Renamable α] : Renamable (List α) := ⟨fun ρ => List.map (rename ρ)⟩

instance {α : Type} [Renamable α] : Renamable (Option α) := ⟨fun ρ => Option.map (rename ρ)⟩

instance : Renamable (Failure Value) :=
  ⟨fun ρ e => match e.cause with
    | .raised v => { e with cause := .raised (v.rename ρ) }
    | _ => e⟩

instance {α : Type} [Renamable α] : Renamable (Result α) :=
  ⟨fun ρ r => match r with
    | .ok a => .ok (rename ρ a)
    | .error e => .error (rename ρ e)⟩

instance {α : Type} [Renamable α] : Renamable (Outcome α) :=
  ⟨fun ρ o => ⟨rename ρ o.slot, rename ρ o.failure⟩⟩

instance : Renamable Scope := ⟨fun ρ c => ⟨rename ρ c.held, ρ c.site⟩⟩

/-- A window on a buffer with another name, its elements changed. -/
def Window.rename {α : Type} (ρ : Site → Site) (g : α → α) (w : Window α) : Window α :=
  ⟨ρ w.storage, w.buf.map g, w.off, w.len, w.flags⟩

variable {ρ : Site → Site}

theorem renameCells_eq (vs : List Value) : renameCells ρ vs = rename ρ vs := by
  induction vs with
  | nil => rfl
  | cons v vs ih => rw [renameCells, ih]; rfl

theorem renameArgs_eq (vs : List (Option Value)) : renameArgs ρ vs = rename ρ vs := by
  induction vs with
  | nil => rfl
  | cons v vs ih => cases v <;> rw [renameArgs, ih] <;> rfl

theorem renameBodies_eq (bs : List (Body Value)) : renameBodies ρ bs = rename ρ bs := by
  induction bs with
  | nil => rfl
  | cons b bs ih => rw [renameBodies, ih]; rfl

/-! ## Parts -/

@[simp] theorem rename_array (a : Arr Value) : rename ρ (.array a : Value) = .array (rename ρ a) :=
  rfl

@[simp] theorem rename_dict (s : Site) (d : Dict Value) :
    rename ρ (.dict s d : Value) = .dict (ρ s) (rename ρ d) := rfl

@[simp] theorem rename_bools (w : Window Bool) :
    rename ρ (.bools w : Arr Value) = .bools (w.rename ρ id) := by
  simp only [Window.rename, List.map_id]
  rfl

@[simp] theorem rename_ints (w : Window Int64) :
    rename ρ (.ints w : Arr Value) = .ints (w.rename ρ id) := by
  simp only [Window.rename, List.map_id]
  rfl

@[simp] theorem rename_floats (w : Window Double) :
    rename ρ (.floats w : Arr Value) = .floats (w.rename ρ id) := by
  simp only [Window.rename, List.map_id]
  rfl

@[simp] theorem rename_strs (w : Window String) :
    rename ρ (.strs w : Arr Value) = .strs (w.rename ρ id) := by
  simp only [Window.rename, List.map_id]
  rfl

@[simp] theorem rename_list (w : Window Value) :
    rename ρ (.list w : Arr Value) = .list (w.rename ρ (rename ρ)) := by
  obtain ⟨s, buf, off, len, flags⟩ := w
  show Arr.list ⟨ρ s, renameCells ρ buf, off, len, flags⟩ = _
  rw [renameCells_eq]
  rfl

section Containers

variable {α : Type} [Renamable α]

@[simp] theorem rename_empty : rename ρ ([] : List α) = [] := rfl

@[simp] theorem rename_cons (x : α) (xs : List α) :
    rename ρ (x :: xs) = rename ρ x :: rename ρ xs := rfl

@[simp] theorem rename_append (xs ys : List α) :
    rename ρ (xs ++ ys) = rename ρ xs ++ rename ρ ys := List.map_append

theorem rename_list_eq_map (xs : List α) : rename ρ xs = xs.map (rename ρ) := rfl

@[simp] theorem rename_none : rename ρ (none : Option α) = none := rfl

@[simp] theorem rename_some (x : α) : rename ρ (some x) = some (rename ρ x) := rfl

@[simp] theorem rename_ok (x : α) : rename ρ (.ok x : Result α) = .ok (rename ρ x) := rfl

@[simp] theorem rename_error (e : Failure Value) :
    rename ρ (.error e : Result α) = .error (rename ρ e) := rfl

@[simp] theorem rename_done (x : α) : rename ρ (Outcome.done x) = .done (rename ρ x) := rfl

@[simp] theorem rename_failed (x : α) (e : Failure Value) :
    rename ρ (Outcome.failed x e) = .failed (rename ρ x) (rename ρ e) := rfl

end Containers

/-! ## Handles -/

@[simp] theorem name?_rename (v : Value) : (rename ρ v).name? = v.name?.map ρ := by
  cases v with
  | array a => cases a <;> rfl
  | _ => rfl

mutual

theorem Value.nodes_rename (ρ : Site → Site) : ∀ v : Value,
    (v.rename ρ).nodes = v.nodes.map (Value.rename ρ)
  | .array a => a.nodes_rename ρ
  | .dict s ⟨keys, vals⟩ => by
    simp only [Value.rename, Value.nodes, keys.nodes_rename, vals.nodes_rename, List.map_cons,
      List.map_append]
  | .error s v => by simp only [Value.rename, Value.nodes, v.nodes_rename, List.map_cons]
  | .lambda s name arity body => by
    simp only [Value.rename, Value.nodes, body.nodes_rename, List.map_cons]
  | .compose s outer inner => by
    simp only [Value.rename, Value.nodes, outer.nodes_rename, inner.nodes_rename, List.map_cons,
      List.map_append]
  | .project s f args => by
    simp only [Value.rename, Value.nodes, f.nodes_rename, nodesOfArgs_rename, List.map_cons,
      List.map_append]
  | .nil => rfl
  | .int _ => rfl
  | .float _ => rfl
  | .str _ => rfl
  | .builtin _ => rfl

theorem Arr.nodes_rename (ρ : Site → Site) : ∀ a : Arr Value,
    (a.rename ρ).nodes = a.nodes.map (Value.rename ρ)
  | .bools _ => rfl
  | .ints _ => rfl
  | .floats _ => rfl
  | .strs _ => rfl
  | .list ⟨s, buf, off, len, flags⟩ => by
    simp only [Arr.rename, Arr.nodes, nodesOfCells_rename, List.map_cons, Value.rename]

theorem nodesOfCells_rename (ρ : Site → Site) : ∀ vs : List Value,
    nodesOfCells (renameCells ρ vs) = (nodesOfCells vs).map (Value.rename ρ)
  | [] => rfl
  | v :: vs => by
    simp only [renameCells, nodesOfCells, v.nodes_rename, nodesOfCells_rename ρ vs, List.map_append]

theorem nodesOfArgs_rename (ρ : Site → Site) : ∀ vs : List (Option Value),
    nodesOfArgs (renameArgs ρ vs) = (nodesOfArgs vs).map (Value.rename ρ)
  | [] => rfl
  | none :: vs => nodesOfArgs_rename ρ vs
  | some v :: vs => by
    simp only [renameArgs, nodesOfArgs, v.nodes_rename, nodesOfArgs_rename ρ vs, List.map_append]

theorem Body.nodes_rename (ρ : Site → Site) : ∀ b : Body Value,
    (b.rename ρ).nodes = b.nodes.map (Value.rename ρ)
  | .arg _ => rfl
  | .const v => v.nodes_rename ρ
  | .call f args => by
    simp only [Body.rename, Body.nodes, f.nodes_rename, nodesOfBodies_rename, List.map_append]
  | .raise b => b.nodes_rename ρ
  | .fail ⟨.raised v, _, _⟩ => v.nodes_rename ρ
  | .fail ⟨.outOfBounds .., _, _⟩ => rfl
  | .fail ⟨.length .., _, _⟩ => rfl
  | .fail ⟨.type .., _, _⟩ => rfl
  | .fail ⟨.depth .., _, _⟩ => rfl
  | .fail ⟨.domain .., _, _⟩ => rfl
  | .fail ⟨.arity .., _, _⟩ => rfl
  | .branch c t e => by
    simp only [Body.rename, Body.nodes, c.nodes_rename, t.nodes_rename, e.nodes_rename,
      List.map_append]
  | .amend form x y f => by
    simp only [Body.rename, Body.nodes, x.nodes_rename, y.nodes_rename, f.nodes_rename,
      List.map_append]
  | .amendWith form x y f z => by
    simp only [Body.rename, Body.nodes, x.nodes_rename, y.nodes_rename, f.nodes_rename,
      z.nodes_rename, List.map_append]

theorem nodesOfBodies_rename (ρ : Site → Site) : ∀ bs : List (Body Value),
    nodesOfBodies (renameBodies ρ bs) = (nodesOfBodies bs).map (Value.rename ρ)
  | [] => rfl
  | b :: bs => by
    simp only [renameBodies, nodesOfBodies, b.nodes_rename, nodesOfBodies_rename ρ bs,
      List.map_append]

end

theorem names_rename (hρ : Function.Injective ρ) (t : Site) (v : Value) :
    Names (ρ t) (rename ρ v) ↔ Names t v := by
  have hnodes : allNodes (rename ρ v) = (allNodes v).map (rename ρ) := v.nodes_rename ρ
  simp only [Names, hnodes, List.mem_map]
  constructor
  · rintro ⟨_, ⟨u, hu, rfl⟩, hname⟩
    rw [name?_rename] at hname
    obtain ⟨t', ht', heq⟩ := Option.map_eq_some_iff.1 hname
    exact ⟨u, hu, ht'.trans (congrArg some (hρ heq))⟩
  · rintro ⟨u, hu, hname⟩
    exact ⟨rename ρ u, ⟨u, hu, rfl⟩, by rw [name?_rename, hname]; rfl⟩

/-- A renamed value keeps alive the renamed objects. -/
theorem holds_rename (hρ : Function.Injective ρ) (t : Site) (v : Value) :
    (rename ρ v).holds (ρ t) = v.holds t := by
  rw [Bool.eq_iff_iff, holds_iff, holds_iff, names_rename hρ]

theorem scope_holds_rename (hρ : Function.Injective ρ) (t : Site) (c : Scope) :
    (rename ρ c).holds (ρ t) = c.holds t := by
  show (c.held.map (rename ρ)).any (·.holds (ρ t)) = c.held.any (·.holds t)
  simp only [List.any_map, Function.comp_def, holds_rename hρ]

/-! ## Kept names -/

/-- The names of all of these values are kept. -/
def KeepsNames (ρ : Site → Site) (us : List Value) : Prop :=
  ∀ u ∈ us, ∀ t, u.name? = some t → ρ t = t

@[simp] theorem keepsNames_cons (u : Value) (us : List Value) :
    KeepsNames ρ (u :: us) ↔ (∀ t, u.name? = some t → ρ t = t) ∧ KeepsNames ρ us :=
  List.forall_mem_cons

@[simp] theorem keepsNames_append (us vs : List Value) :
    KeepsNames ρ (us ++ vs) ↔ KeepsNames ρ us ∧ KeepsNames ρ vs :=
  List.forall_mem_append

mutual

theorem Value.rename_of_keepsNames : ∀ v : Value, KeepsNames ρ v.nodes → v.rename ρ = v
  | .array a, h => congrArg Value.array (a.rename_of_keepsNames h)
  | .dict s ⟨keys, vals⟩, h => by
    simp only [Value.nodes, keepsNames_cons, keepsNames_append] at h
    rw [Value.rename, h.1 s rfl, keys.rename_of_keepsNames h.2.1, vals.rename_of_keepsNames h.2.2]
  | .error s v, h => by
    simp only [Value.nodes, keepsNames_cons] at h
    rw [Value.rename, h.1 s rfl, v.rename_of_keepsNames h.2]
  | .lambda s name arity body, h => by
    simp only [Value.nodes, keepsNames_cons] at h
    rw [Value.rename, h.1 s rfl, body.rename_of_keepsNames h.2]
  | .compose s outer inner, h => by
    simp only [Value.nodes, keepsNames_cons, keepsNames_append] at h
    rw [Value.rename, h.1 s rfl, outer.rename_of_keepsNames h.2.1,
      inner.rename_of_keepsNames h.2.2]
  | .project s f args, h => by
    simp only [Value.nodes, keepsNames_cons, keepsNames_append] at h
    rw [Value.rename, h.1 s rfl, f.rename_of_keepsNames h.2.1, renameArgs_of_keepsNames args h.2.2]
  | .nil, _ => rfl
  | .int _, _ => rfl
  | .float _, _ => rfl
  | .str _, _ => rfl
  | .builtin _, _ => rfl

theorem Arr.rename_of_keepsNames : ∀ a : Arr Value, KeepsNames ρ a.nodes → a.rename ρ = a
  | .bools w, h => by rw [Arr.rename, (List.forall_mem_singleton.1 h) w.storage rfl]
  | .ints w, h => by rw [Arr.rename, (List.forall_mem_singleton.1 h) w.storage rfl]
  | .floats w, h => by rw [Arr.rename, (List.forall_mem_singleton.1 h) w.storage rfl]
  | .strs w, h => by rw [Arr.rename, (List.forall_mem_singleton.1 h) w.storage rfl]
  | .list ⟨s, buf, off, len, flags⟩, h => by
    simp only [Arr.nodes, keepsNames_cons] at h
    rw [Arr.rename, h.1 s rfl, renameCells_of_keepsNames buf h.2]

theorem renameCells_of_keepsNames : ∀ vs : List Value, KeepsNames ρ (nodesOfCells vs) →
    renameCells ρ vs = vs
  | [], _ => rfl
  | v :: vs, h => by
    simp only [nodesOfCells, keepsNames_append] at h
    rw [renameCells, v.rename_of_keepsNames h.1, renameCells_of_keepsNames vs h.2]

theorem renameArgs_of_keepsNames : ∀ vs : List (Option Value), KeepsNames ρ (nodesOfArgs vs) →
    renameArgs ρ vs = vs
  | [], _ => rfl
  | none :: vs, h => congrArg _ (renameArgs_of_keepsNames vs h)
  | some v :: vs, h => by
    simp only [nodesOfArgs, keepsNames_append] at h
    rw [renameArgs, v.rename_of_keepsNames h.1, renameArgs_of_keepsNames vs h.2]

theorem Body.rename_of_keepsNames : ∀ b : Body Value, KeepsNames ρ b.nodes → b.rename ρ = b
  | .arg _, _ => rfl
  | .const v, h => congrArg Body.const (v.rename_of_keepsNames h)
  | .call f args, h => by
    simp only [Body.nodes, keepsNames_append] at h
    rw [Body.rename, f.rename_of_keepsNames h.1, renameBodies_of_keepsNames args h.2]
  | .raise b, h => congrArg Body.raise (b.rename_of_keepsNames h)
  | .fail ⟨.raised v, _, _⟩, h => by rw [Body.rename, v.rename_of_keepsNames h]
  | .fail ⟨.outOfBounds .., _, _⟩, _ => rfl
  | .fail ⟨.length .., _, _⟩, _ => rfl
  | .fail ⟨.type .., _, _⟩, _ => rfl
  | .fail ⟨.depth .., _, _⟩, _ => rfl
  | .fail ⟨.domain .., _, _⟩, _ => rfl
  | .fail ⟨.arity .., _, _⟩, _ => rfl
  | .branch c t e, h => by
    simp only [Body.nodes, keepsNames_append] at h
    rw [Body.rename, c.rename_of_keepsNames h.1.1, t.rename_of_keepsNames h.1.2,
      e.rename_of_keepsNames h.2]
  | .amend form x y f, h => by
    simp only [Body.nodes, keepsNames_append] at h
    rw [Body.rename, x.rename_of_keepsNames h.1.1, y.rename_of_keepsNames h.1.2,
      f.rename_of_keepsNames h.2]
  | .amendWith form x y f z, h => by
    simp only [Body.nodes, keepsNames_append] at h
    rw [Body.rename, x.rename_of_keepsNames h.1.1.1, y.rename_of_keepsNames h.1.1.2,
      f.rename_of_keepsNames h.1.2, z.rename_of_keepsNames h.2]

theorem renameBodies_of_keepsNames : ∀ bs : List (Body Value), KeepsNames ρ (nodesOfBodies bs) →
    renameBodies ρ bs = bs
  | [], _ => rfl
  | b :: bs, h => by
    simp only [nodesOfBodies, keepsNames_append] at h
    rw [renameBodies, b.rename_of_keepsNames h.1, renameBodies_of_keepsNames bs h.2]

end

/-- A value whose names are all kept stays as it is. -/
theorem rename_eq_self {v : Value} (h : ∀ t, Names t v → ρ t = t) : rename ρ v = v :=
  v.rename_of_keepsNames fun u hu t ht => h t ⟨u, hu, ht⟩

end SharedArrays
