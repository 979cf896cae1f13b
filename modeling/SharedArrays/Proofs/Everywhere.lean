import SharedArrays.Value.Basic

/-!
# What is inside of a value

A value keeps other values alive: the elements of its buffers (also those outside of the
windows), the keys and values of dictionaries, the parts of functions and the constants of
function bodies. This file lists the handles among them, and says what it means that a property
of single handles holds everywhere inside of a value.

Arrays, dictionaries, bodies, failures and answers refer to values too. They share the
vocabulary through a class.

## Main definitions

* `Value.nodes` — the handles inside of a value, its own included
* `HasNodes` — what refers to values
* `Everywhere` — a property of all handles inside
* `Arr.cells` — the values in the buffer of an array

## Main results

* `Value.nest_induction` — induction over arrays, dictionaries and error values
* `CallCases.value`, `CallCases.body` — induction over function values and bodies
* `everywhere_values` — the elements of an array inherit what holds everywhere in it
-/

namespace SharedArrays

/-! ## Nodes -/

mutual

/-- The handles inside of a value, its own included. Atoms are no handles. -/
def Value.nodes : Value → List Value
  | .array a => a.nodes
  | .dict s ⟨keys, vals⟩ => .dict s ⟨keys, vals⟩ :: (keys.nodes ++ vals.nodes)
  | .error s v => .error s v :: v.nodes
  | .lambda s name arity body => .lambda s name arity body :: body.nodes
  | .compose s outer inner => .compose s outer inner :: (outer.nodes ++ inner.nodes)
  | .project s f args => .project s f args :: (f.nodes ++ nodesOfArgs args)
  | .nil => []
  | .int _ => []
  | .float _ => []
  | .str _ => []
  | .builtin _ => []

/-- The handles inside of an array, its own included. -/
def Arr.nodes : Arr Value → List Value
  | .bools w => [.array (.bools w)]
  | .ints w => [.array (.ints w)]
  | .floats w => [.array (.floats w)]
  | .strs w => [.array (.strs w)]
  | .list ⟨s, buf, off, len, flags⟩ =>
    .array (.list ⟨s, buf, off, len, flags⟩) :: nodesOfCells buf

/-- The handles inside of the elements of a buffer. -/
def nodesOfCells : List Value → List Value
  | [] => []
  | v :: vs => v.nodes ++ nodesOfCells vs

/-- The handles inside of the arguments that a projection has bound. -/
def nodesOfArgs : List (Option Value) → List Value
  | [] => []
  | none :: vs => nodesOfArgs vs
  | some v :: vs => v.nodes ++ nodesOfArgs vs

/-- The handles inside of the constants of a function body. -/
def Body.nodes : Body Value → List Value
  | .arg _ => []
  | .const v => v.nodes
  | .call f args => f.nodes ++ nodesOfBodies args
  | .raise b => b.nodes
  -- Of all causes only this one holds a value.
  | .fail ⟨.raised v, _, _⟩ => v.nodes
  | .fail _ => []
  | .branch c t e => c.nodes ++ t.nodes ++ e.nodes
  | .amend _ x y f => x.nodes ++ y.nodes ++ f.nodes
  | .amendWith _ x y f z => x.nodes ++ y.nodes ++ f.nodes ++ z.nodes

/-- The handles inside of the constants of several bodies. -/
def nodesOfBodies : List (Body Value) → List Value
  | [] => []
  | b :: bs => b.nodes ++ nodesOfBodies bs

end

/-- What refers to values. -/
class HasNodes (α : Type) where
  /-- The handles inside. -/
  allNodes : α → List Value

export HasNodes (allNodes)

instance : HasNodes Value := ⟨Value.nodes⟩

instance : HasNodes (Arr Value) := ⟨Arr.nodes⟩

instance : HasNodes (Dict Value) := ⟨fun d => d.keys.nodes ++ d.vals.nodes⟩

instance : HasNodes (Body Value) := ⟨Body.nodes⟩

instance {α : Type} [HasNodes α] : HasNodes (Option α) := ⟨fun x => x.elim [] allNodes⟩

instance {α : Type} [HasNodes α] : HasNodes (List α) := ⟨fun xs => xs.flatMap allNodes⟩

instance {α β : Type} [HasNodes α] [HasNodes β] : HasNodes (α × β) :=
  ⟨fun x => allNodes x.1 ++ allNodes x.2⟩

instance : HasNodes (Failure Value) :=
  ⟨fun e => match e.cause with
    | .raised v => v.nodes
    | _ => []⟩

instance {α : Type} [HasNodes α] : HasNodes (Result α) :=
  ⟨fun r => match r with
    | .ok a => allNodes a
    | .error e => allNodes e⟩

instance {α : Type} [HasNodes α] : HasNodes (Outcome α) :=
  ⟨fun o => allNodes o.slot ++ allNodes o.failure⟩

theorem nodesOfCells_eq (vs : List Value) : nodesOfCells vs = allNodes vs := by
  induction vs with
  | nil => rfl
  | cons v vs ih => simp only [nodesOfCells, ih]; rfl

theorem nodesOfArgs_eq (vs : List (Option Value)) : nodesOfArgs vs = allNodes vs := by
  induction vs with
  | nil => rfl
  | cons v vs ih => cases v <;> simp only [nodesOfArgs, ih] <;> rfl

theorem nodesOfBodies_eq (bs : List (Body Value)) : nodesOfBodies bs = allNodes bs := by
  induction bs with
  | nil => rfl
  | cons b bs ih => simp only [nodesOfBodies, ih]; rfl

/-- The values in the buffer of an array. -/
def Arr.cells : Arr Value → List Value
  | list w => w.buf
  | _ => []

theorem Arr.nodes_eq (a : Arr Value) : a.nodes = .array a :: allNodes a.cells := by
  cases a with
  | list w => cases w; simp [Arr.nodes, nodesOfCells_eq, Arr.cells]
  | _ => rfl

/-! ## Properties that hold everywhere -/

/-- All handles inside of `x` have the property. -/
def Everywhere {α : Type} [HasNodes α] (P : Value → Prop) (x : α) : Prop := ∀ u ∈ allNodes x, P u

section Everywhere

variable {P Q : Value → Prop} {α : Type} [HasNodes α]

theorem Everywhere.mono {x : α} (h : Everywhere P x) (hPQ : ∀ u, P u → Q u) : Everywhere Q x :=
  fun u hu => hPQ u (h u hu)

@[simp] theorem everywhere_nil : Everywhere P Value.nil := List.forall_mem_nil P

@[simp] theorem everywhere_int (n : Int64) : Everywhere P (.int n : Value) :=
  List.forall_mem_nil P

@[simp] theorem everywhere_float (x : Double) : Everywhere P (.float x : Value) :=
  List.forall_mem_nil P

@[simp] theorem everywhere_str (s : String) : Everywhere P (.str s : Value) :=
  List.forall_mem_nil P

@[simp] theorem everywhere_builtin (b : Builtin) : Everywhere P (.builtin b : Value) :=
  List.forall_mem_nil P

@[simp] theorem everywhere_cons (x : α) (xs : List α) :
    Everywhere P (x :: xs) ↔ Everywhere P x ∧ Everywhere P xs :=
  List.forall_mem_append

@[simp] theorem everywhere_empty : Everywhere P ([] : List α) := List.forall_mem_nil P

@[simp] theorem everywhere_append (xs ys : List α) :
    Everywhere P (xs ++ ys) ↔ Everywhere P xs ∧ Everywhere P ys := by
  induction xs with
  | nil => exact (and_iff_right everywhere_empty).symm
  | cons x xs ih => rw [List.cons_append, everywhere_cons, everywhere_cons, ih, and_assoc]

theorem everywhere_iff_forall {xs : List α} : Everywhere P xs ↔ ∀ x ∈ xs, Everywhere P x := by
  induction xs with
  | nil => simp
  | cons x xs ih => simp [ih]

@[simp] theorem everywhere_pair {β : Type} [HasNodes β] (x : α) (y : β) :
    Everywhere P (x, y) ↔ Everywhere P x ∧ Everywhere P y :=
  List.forall_mem_append

@[simp] theorem everywhere_none : Everywhere P (none : Option α) := List.forall_mem_nil P

@[simp] theorem everywhere_some (x : α) : Everywhere P (some x) ↔ Everywhere P x := Iff.rfl

theorem everywhere_of_subset {xs ys : List α} (h : Everywhere P ys) (hsub : ∀ x ∈ xs, x ∈ ys) :
    Everywhere P xs :=
  everywhere_iff_forall.2 fun x hx => everywhere_iff_forall.1 h x (hsub x hx)

theorem everywhere_singleton {x : α} : Everywhere P [x] ↔ Everywhere P x :=
  (everywhere_cons x []).trans (and_iff_left everywhere_empty)

theorem everywhere_toList {x : Option α} : Everywhere P x.toList ↔ Everywhere P x := by
  cases x with
  | none => exact ⟨fun _ => everywhere_none, fun _ => everywhere_empty⟩
  | some x => exact everywhere_singleton

@[simp] theorem everywhere_ok (x : α) : Everywhere P (.ok x : Result α) ↔ Everywhere P x := Iff.rfl

theorem everywhere_of_ok {r : Result α} {x : α} (hr : Everywhere P r) (h : r = .ok x) :
    Everywhere P x := by
  subst h
  exact hr

@[simp] theorem everywhere_error (e : Failure Value) :
    Everywhere P (.error e : Result α) ↔ Everywhere P e := Iff.rfl

theorem everywhere_bind {β : Type} [HasNodes β] {r : Result α} {f : α → Result β}
    (hr : Everywhere P r) (hf : ∀ a, r = .ok a → Everywhere P a → Everywhere P (f a)) :
    Everywhere P (r >>= f) := by
  cases r with
  | ok a => exact hf a rfl hr
  | error e => exact hr

theorem everywhere_bind_pure {β : Type} [HasNodes β] {r : Result α} {g : α → β}
    (hg : ∀ a, Everywhere P (g a) ↔ Everywhere P a) :
    Everywhere P (r >>= fun a => pure (g a)) ↔ Everywhere P r := by
  cases r with
  | ok a => exact hg a
  | error e => exact Iff.rfl

theorem everywhere_outcome {o : Outcome α} :
    Everywhere P o ↔ Everywhere P o.slot ∧ Everywhere P o.failure :=
  List.forall_mem_append

@[simp] theorem everywhere_done (x : α) : Everywhere P (Outcome.done x) ↔ Everywhere P x :=
  everywhere_outcome.trans (and_iff_left everywhere_none)

@[simp] theorem everywhere_failed (x : α) (e : Failure Value) :
    Everywhere P (Outcome.failed x e) ↔ Everywhere P x ∧ Everywhere P e :=
  everywhere_outcome

theorem everywhere_arr {a : Arr Value} :
    Everywhere P a ↔ P (.array a) ∧ Everywhere P a.cells := by
  show (∀ u ∈ a.nodes, P u) ↔ _
  rw [Arr.nodes_eq, List.forall_mem_cons]
  exact Iff.rfl

@[simp] theorem everywhere_array (a : Arr Value) :
    Everywhere P (.array a : Value) ↔ Everywhere P a := Iff.rfl

@[simp] theorem everywhere_bools (w : Window Bool) :
    Everywhere P (.bools w : Arr Value) ↔ P (.array (.bools w)) :=
  everywhere_arr.trans (and_iff_left everywhere_empty)

@[simp] theorem everywhere_ints (w : Window Int64) :
    Everywhere P (.ints w : Arr Value) ↔ P (.array (.ints w)) :=
  everywhere_arr.trans (and_iff_left everywhere_empty)

@[simp] theorem everywhere_floats (w : Window Double) :
    Everywhere P (.floats w : Arr Value) ↔ P (.array (.floats w)) :=
  everywhere_arr.trans (and_iff_left everywhere_empty)

@[simp] theorem everywhere_strs (w : Window String) :
    Everywhere P (.strs w : Arr Value) ↔ P (.array (.strs w)) :=
  everywhere_arr.trans (and_iff_left everywhere_empty)

@[simp] theorem everywhere_list (w : Window Value) :
    Everywhere P (.list w : Arr Value) ↔ P (.array (.list w)) ∧ Everywhere P w.buf :=
  everywhere_arr

theorem everywhere_entries {d : Dict Value} :
    Everywhere P d ↔ Everywhere P d.keys ∧ Everywhere P d.vals :=
  List.forall_mem_append

@[simp] theorem everywhere_dict (s : Site) (d : Dict Value) :
    Everywhere P (.dict s d : Value) ↔
      P (.dict s d) ∧ Everywhere P d.keys ∧ Everywhere P d.vals :=
  List.forall_mem_cons.trans (and_congr_right' List.forall_mem_append)

@[simp] theorem everywhere_errorValue (s : Site) (v : Value) :
    Everywhere P (.error s v : Value) ↔ P (.error s v) ∧ Everywhere P v :=
  List.forall_mem_cons

@[simp] theorem everywhere_lambda (s : Site) (name : String) (arity : Nat) (body : Body Value) :
    Everywhere P (.lambda s name arity body : Value) ↔
      P (.lambda s name arity body) ∧ Everywhere P body :=
  List.forall_mem_cons

@[simp] theorem everywhere_compose (s : Site) (outer inner : Value) :
    Everywhere P (.compose s outer inner : Value) ↔
      P (.compose s outer inner) ∧ Everywhere P outer ∧ Everywhere P inner :=
  List.forall_mem_cons.trans (and_congr_right' List.forall_mem_append)

@[simp] theorem everywhere_project (s : Site) (f : Value) (args : List (Option Value)) :
    Everywhere P (.project s f args : Value) ↔
      P (.project s f args) ∧ Everywhere P f ∧ Everywhere P args := by
  refine List.forall_mem_cons.trans (and_congr_right' (List.forall_mem_append.trans ?_))
  rw [nodesOfArgs_eq]
  exact Iff.rfl

@[simp] theorem everywhere_body_arg (k : Nat) : Everywhere P (.arg k : Body Value) :=
  List.forall_mem_nil P

@[simp] theorem everywhere_body_const (v : Value) :
    Everywhere P (.const v : Body Value) ↔ Everywhere P v := Iff.rfl

@[simp] theorem everywhere_body_call (f : Value) (args : List (Body Value)) :
    Everywhere P (.call f args : Body Value) ↔ Everywhere P f ∧ Everywhere P args := by
  refine List.forall_mem_append.trans ?_
  rw [nodesOfBodies_eq]
  exact Iff.rfl

@[simp] theorem everywhere_body_raise (b : Body Value) :
    Everywhere P (.raise b : Body Value) ↔ Everywhere P b := Iff.rfl

@[simp] theorem everywhere_body_fail (e : Failure Value) :
    Everywhere P (.fail e : Body Value) ↔ Everywhere P e := by
  obtain ⟨cause, op, hint⟩ := e
  cases cause <;> exact Iff.rfl

@[simp] theorem everywhere_body_branch (c t e : Body Value) :
    Everywhere P (.branch c t e : Body Value) ↔
      (Everywhere P c ∧ Everywhere P t) ∧ Everywhere P e :=
  List.forall_mem_append.trans (and_congr_left' List.forall_mem_append)

@[simp] theorem everywhere_body_amend (form : Form) (x y : Body Value) (f : Value) :
    Everywhere P (.amend form x y f : Body Value) ↔
      (Everywhere P x ∧ Everywhere P y) ∧ Everywhere P f :=
  List.forall_mem_append.trans (and_congr_left' List.forall_mem_append)

@[simp] theorem everywhere_body_amendWith (form : Form) (x y : Body Value) (f : Value)
    (z : Body Value) :
    Everywhere P (.amendWith form x y f z : Body Value) ↔
      ((Everywhere P x ∧ Everywhere P y) ∧ Everywhere P f) ∧ Everywhere P z :=
  List.forall_mem_append.trans
    (and_congr_left' (List.forall_mem_append.trans (and_congr_left' List.forall_mem_append)))

@[simp] theorem everywhere_raised (v : Value) (op hint : Option String) :
    Everywhere P (⟨.raised v, op, hint⟩ : Failure Value) ↔ Everywhere P v := Iff.rfl

/-- A failure that holds no value has every property everywhere. -/
theorem everywhere_failure {e : Failure Value} (h : e.cause.holdsValue = false) :
    Everywhere P e := by
  obtain ⟨cause, op, hint⟩ := e
  cases cause with
  | raised v => cases h
  | _ => exact List.forall_mem_nil P

theorem everywhere_error_of_cause {e : Failure Value} (h : e.cause.holdsValue = false) :
    Everywhere P (.error e : Result α) := everywhere_failure h

theorem everywhere_failed_of_cause {x : α} {e : Failure Value} (hx : Everywhere P x)
    (h : e.cause.holdsValue = false) : Everywhere P (Outcome.failed x e) :=
  (everywhere_failed x e).2 ⟨hx, everywhere_failure h⟩

theorem everywhere_noted {o : Outcome α} {op : String} :
    Everywhere P (⟨o.slot, o.failure.map (·.during op)⟩ : Outcome α) ↔ Everywhere P o := by
  obtain ⟨slot, failure⟩ := o
  cases failure <;> exact Iff.rfl

/-- The elements of an array inherit what holds everywhere in it. -/
theorem everywhere_values {a : Arr Value} (h : Everywhere P a) : Everywhere P a.values := by
  rw [everywhere_iff_forall]
  intro v hv
  cases a with
  | list w =>
    have hbuf := everywhere_iff_forall.1 ((everywhere_list w).1 h).2
    exact hbuf v (List.mem_of_mem_drop (List.mem_of_mem_take hv))
  | _ =>
    -- Elements without a tag are atoms.
    obtain ⟨x, -, rfl⟩ := List.mem_map.1 hv
    simp

end Everywhere

/-! ## Induction -/

namespace Value

/-- The values inside of which only functions can hold further values. -/
def isLeaf : Value → Bool
  | array _ | dict .. | error .. => false
  | _ => true

end Value

theorem sizeOf_lt_of_mem_cells {a : Arr Value} {v : Value} (h : v ∈ a.cells) :
    sizeOf v < sizeOf (Value.array a) := by
  cases a with
  | list w =>
    obtain ⟨s, buf, off, len, flags⟩ := w
    have : sizeOf v < sizeOf buf := List.sizeOf_lt_of_mem h
    simp only [Value.array.sizeOf_spec, Arr.list.sizeOf_spec, Window.mk.sizeOf_spec]
    omega
  | _ => simp [Arr.cells] at h

/-- Induction over the nesting of arrays, dictionaries and error values. A statement about an
array may assume the statement about all values in its buffer. -/
theorem Value.nest_induction {motive : Value → Prop}
    (leaf : ∀ v : Value, v.isLeaf → motive v)
    (array : ∀ a : Arr Value, (∀ v ∈ a.cells, motive v) → motive (.array a))
    (dict : ∀ s keys vals, motive (.array keys) → motive (.array vals) →
      motive (.dict s ⟨keys, vals⟩))
    (error : ∀ s v, motive v → motive (.error s v)) (v : Value) : motive v := by
  induction h : sizeOf v using Nat.strongRecOn generalizing v with
  | ind n ih =>
    subst h
    cases v with
    | array a => exact array a fun v hv => ih _ (sizeOf_lt_of_mem_cells hv) v rfl
    | dict s d =>
      obtain ⟨keys, vals⟩ := d
      exact dict s keys vals (ih _ (by simp; omega) _ rfl) (ih _ (by simp; omega) _ rfl)
    | error s v => exact error s v (ih _ (by simp only [Value.error.sizeOf_spec]; omega) _ rfl)
    | _ => exact leaf _ rfl

/-- The cases of an induction over what a call goes through: function values, and the bodies of
user functions. -/
structure CallCases (P : Value → Prop) (Q : Body Value → Prop) : Prop where
  other : ∀ v : Value, v.isFunction = false → P v
  builtin : ∀ b, P (.builtin b)
  lambda : ∀ s name arity body, Q body → P (.lambda s name arity body)
  compose : ∀ s outer inner, P outer → P inner → P (.compose s outer inner)
  project : ∀ s f args, P f → P (.project s f args)
  arg : ∀ k, Q (.arg k)
  const : ∀ v, Q (.const v)
  call : ∀ f args, P f → (∀ b ∈ args, Q b) → Q (.call f args)
  raise : ∀ b, Q b → Q (.raise b)
  fail : ∀ e, Q (.fail e)
  branch : ∀ c t e, Q c → Q t → Q e → Q (.branch c t e)
  amend : ∀ form x y f, Q x → Q y → P f → Q (.amend form x y f)
  amendWith : ∀ form x y f z, Q x → Q y → P f → Q z → Q (.amendWith form x y f z)

section CallCases

variable {P : Value → Prop} {Q : Body Value → Prop}

mutual

theorem CallCases.value (h : CallCases P Q) (v : Value) : P v :=
  match v with
  | .nil => h.other _ rfl
  | .int _ => h.other _ rfl
  | .float _ => h.other _ rfl
  | .str _ => h.other _ rfl
  | .array _ => h.other _ rfl
  | .dict .. => h.other _ rfl
  | .error .. => h.other _ rfl
  | .builtin b => h.builtin b
  | .lambda s name arity body => h.lambda s name arity body (h.body body)
  | .compose s outer inner => h.compose s outer inner (h.value outer) (h.value inner)
  | .project s f args => h.project s f args (h.value f)

theorem CallCases.body (h : CallCases P Q) (b : Body Value) : Q b :=
  match b with
  | .arg k => h.arg k
  | .const v => h.const v
  | .call f args => h.call f args (h.value f) (h.bodies args)
  | .raise b => h.raise b (h.body b)
  | .fail e => h.fail e
  | .branch c t e => h.branch c t e (h.body c) (h.body t) (h.body e)
  | .amend form x y f => h.amend form x y f (h.body x) (h.body y) (h.value f)
  | .amendWith form x y f z =>
    h.amendWith form x y f z (h.body x) (h.body y) (h.value f) (h.body z)

theorem CallCases.bodies (h : CallCases P Q) (bs : List (Body Value)) : ∀ b ∈ bs, Q b :=
  match bs with
  | [] => nofun
  | b :: bs => List.forall_mem_cons.2 ⟨h.body b, h.bodies bs⟩

end

end CallCases

end SharedArrays
