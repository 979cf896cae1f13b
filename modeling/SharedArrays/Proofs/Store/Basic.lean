import SharedArrays.Value.Handles
import SharedArrays.Proofs.Everywhere

/-!
# The store behind values

Values carry the contents of the buffers and objects that they refer to. A program keeps each
content once, in a store, and a handle is a name. The two pictures agree as long as handles with
one name carry one content. This file says when a value lies in a store, and lists what follows
from that for the names that occur in it.

## Main definitions

* `Object`, `Store` — contents, and contents by name
* `LiesIn` — each handle inside carries what the store has under its name
* `Names` — a name that occurs inside
* `Store.writeBack` — the store after the objects of a value have been written

## Main results

* `holds_iff` — a value keeps alive what is named inside of it
* `name?_ne_of_mem_nodes` — no object lies inside of itself
-/

namespace SharedArrays

/-- The content of a shared object. -/
inductive Object where
  | bools (buf : List Bool)
  | ints (buf : List Int64)
  | floats (buf : List Double)
  | strs (buf : List String)
  | list (buf : List Value)
  | dict (d : Dict Value)
  | error (v : Value)
  | lambda (name : String) (arity : Nat) (body : Body Value)
  | compose (outer inner : Value)
  | project (f : Value) (args : List (Option Value))

/-- The content of the buffer of an array. -/
def Arr.object : Arr Value → Object
  | bools w => .bools w.buf
  | ints w => .ints w.buf
  | floats w => .floats w.buf
  | strs w => .strs w.buf
  | list w => .list w.buf

/-- The name and the content of the object to which a handle refers. -/
def Value.target? : Value → Option (Site × Object)
  | .array a => some (a.storage, a.object)
  | .dict s d => some (s, .dict d)
  | .error s v => some (s, .error v)
  | .lambda s name arity body => some (s, .lambda name arity body)
  | .compose s outer inner => some (s, .compose outer inner)
  | .project s f args => some (s, .project f args)
  | _ => none

/-- The name of the object to which a handle refers. -/
def Value.name? (v : Value) : Option Site := v.target?.map (·.1)

/-- Contents by name. -/
abbrev Store := Site → Option Object

/-- The store has the content that the handle carries. -/
def Value.ShownBy (st : Store) (u : Value) : Prop := ∀ s o, u.target? = some (s, o) → st s = some o

/-- The store has the contents that all handles inside carry. -/
abbrev LiesIn {α : Type} [HasNodes α] (st : Store) (x : α) : Prop :=
  Everywhere (Value.ShownBy st) x

/-- The object `t` is referred to from inside. -/
def Names {α : Type} [HasNodes α] (t : Site) (x : α) : Prop := ∃ u ∈ allNodes x, u.name? = some t

/-- The site `t` is `s` or lies below it. -/
def Site.Covers (s t : Site) : Prop := s.path <:+ t.path

/-! ## Sites -/

namespace Site

variable {s t u : Site} {j k : Nat}

theorem covers_refl (s : Site) : s.Covers s := List.suffix_refl _

theorem covers_of_eq (h : t = s) : s.Covers t := h ▸ s.covers_refl

theorem Covers.trans (hst : s.Covers t) (htu : t.Covers u) : s.Covers u :=
  List.IsSuffix.trans hst htu

theorem covers_sub (s : Site) (k : Nat) : s.Covers (s.sub k) := List.suffix_cons k s.path

theorem Covers.of_sub (h : (s.sub k).Covers t) : s.Covers t := (s.covers_sub k).trans h

theorem not_sub_covers (s : Site) (k : Nat) : ¬(s.sub k).Covers s := by
  intro h
  have hlen := h.length_le
  simp only [sub, List.length_cons] at hlen
  omega

/-- The parts of an operation have nothing in common. -/
theorem eq_of_sub_covers (hj : (s.sub j).Covers t) (hk : (s.sub k).Covers t) : j = k := by
  obtain ⟨xs, hxs⟩ := hj
  obtain ⟨ys, hys⟩ := hk
  have hrev : s.path.reverse ++ j :: xs.reverse = s.path.reverse ++ k :: ys.reverse := by
    have h := congrArg List.reverse (hxs.trans hys.symm)
    simpa [sub] using h
  exact (List.cons.inj (List.append_cancel_left hrev)).1

theorem apart_sub (hjk : j ≠ k) (t : Site) (hj : (s.sub j).Covers t) : ¬(s.sub k).Covers t :=
  fun hk => hjk (eq_of_sub_covers hj hk)

/-- Neither of two sites lies at the other one or below it. -/
structure Apart (s t : Site) : Prop where
  left : ¬s.Covers t
  right : ¬t.Covers s

theorem Apart.symm (h : s.Apart t) : t.Apart s := ⟨h.right, h.left⟩

theorem Apart.sub (hjk : j ≠ k) : (s.sub j).Apart (s.sub k) :=
  ⟨fun h => hjk (eq_of_sub_covers h (covers_refl _)),
    fun h => hjk (eq_of_sub_covers (covers_refl _) h)⟩

/-- Sites that are apart cover nothing in common. -/
theorem Apart.not_covers (h : s.Apart t) (hu : s.Covers u) : ¬t.Covers u := by
  intro hu'
  rcases Nat.le_total s.path.length t.path.length with hle | hle
  · exact h.left (List.suffix_of_suffix_length_le hu hu' hle)
  · exact h.right (List.suffix_of_suffix_length_le hu' hu hle)

/-- What lies at or below sites that are apart is apart. -/
theorem Apart.of_covers {u' : Site} (h : s.Apart t) (hs : s.Covers u) (ht : t.Covers u') :
    u.Apart u' :=
  ⟨fun hcovers => h.not_covers (hs.trans hcovers) ht,
    fun hcovers => h.symm.not_covers (ht.trans hcovers) hs⟩

end Site

/-! ## Names and handles -/

mutual

theorem Value.objects_handles (p : Place) : ∀ v : Value,
    (v.handles p).map (·.object) = v.nodes.filterMap Value.name?
  | .array a => a.objects_handles p
  | .dict s ⟨keys, vals⟩ => by
    rw [Value.handles, List.map_cons, List.map_append, keys.objects_handles, vals.objects_handles,
      ← List.filterMap_append]
    rfl
  | .error s v => by
    rw [Value.handles, List.map_cons, v.objects_handles]
    rfl
  | .lambda s name arity body => by
    rw [Value.handles, List.map_cons, body.objects_handles]
    rfl
  | .compose s outer inner => by
    rw [Value.handles, List.map_cons, List.map_append, outer.objects_handles,
      inner.objects_handles, ← List.filterMap_append]
    rfl
  | .project s f args => by
    rw [Value.handles, List.map_cons, List.map_append, f.objects_handles, objects_handlesOfArgs,
      ← List.filterMap_append]
    rfl
  | .nil => rfl
  | .int _ => rfl
  | .float _ => rfl
  | .str _ => rfl
  | .builtin _ => rfl

theorem Arr.objects_handles (p : Place) : ∀ a : Arr Value,
    (a.handles p).map (·.object) = a.nodes.filterMap Value.name?
  | .bools _ => rfl
  | .ints _ => rfl
  | .floats _ => rfl
  | .strs _ => rfl
  | .list ⟨s, buf, off, len, flags⟩ => by
    rw [Arr.handles, List.map_cons, objects_handlesOfCells]
    rfl

theorem objects_handlesOfCells (s : Site) (i : Nat) : ∀ vs : List Value,
    (handlesOfCells s i vs).map (·.object) = (nodesOfCells vs).filterMap Value.name?
  | [] => rfl
  | v :: vs => by
    rw [handlesOfCells, List.map_append, v.objects_handles, objects_handlesOfCells s (i + 1) vs,
      ← List.filterMap_append]
    rfl

theorem objects_handlesOfArgs (s : Site) (i : Nat) : ∀ vs : List (Option Value),
    (handlesOfArgs s i vs).map (·.object) = (nodesOfArgs vs).filterMap Value.name?
  | [] => rfl
  | none :: vs => objects_handlesOfArgs s (i + 1) vs
  | some v :: vs => by
    rw [handlesOfArgs, List.map_append, v.objects_handles, objects_handlesOfArgs s (i + 1) vs,
      ← List.filterMap_append]
    rfl

theorem Body.objects_handles (s : Site) (path : List Nat) : ∀ b : Body Value,
    (b.handles s path).map (·.object) = b.nodes.filterMap Value.name?
  | .arg _ => rfl
  | .const v => v.objects_handles _
  | .call f args => by
    rw [Body.handles, List.map_append, f.objects_handles, objects_handlesOfBodies,
      ← List.filterMap_append]
    rfl
  | .raise b => b.objects_handles s (0 :: path)
  | .fail ⟨.raised v, _, _⟩ => v.objects_handles _
  | .fail ⟨.outOfBounds .., _, _⟩ => rfl
  | .fail ⟨.length .., _, _⟩ => rfl
  | .fail ⟨.type .., _, _⟩ => rfl
  | .fail ⟨.depth .., _, _⟩ => rfl
  | .fail ⟨.domain .., _, _⟩ => rfl
  | .fail ⟨.arity .., _, _⟩ => rfl
  | .branch c t e => by
    rw [Body.handles, List.map_append, List.map_append, c.objects_handles, t.objects_handles,
      e.objects_handles, ← List.filterMap_append, ← List.filterMap_append]
    rfl
  | .amend form x y f => by
    rw [Body.handles, List.map_append, List.map_append, x.objects_handles, y.objects_handles,
      f.objects_handles, ← List.filterMap_append, ← List.filterMap_append]
    rfl
  | .amendWith form x y f z => by
    rw [Body.handles, List.map_append, List.map_append, List.map_append, x.objects_handles,
      y.objects_handles, f.objects_handles, z.objects_handles, ← List.filterMap_append,
      ← List.filterMap_append, ← List.filterMap_append]
    rfl

theorem objects_handlesOfBodies (s : Site) (i : Nat) (path : List Nat) :
    ∀ bs : List (Body Value),
      (handlesOfBodies s i path bs).map (·.object) = (nodesOfBodies bs).filterMap Value.name?
  | [] => rfl
  | b :: bs => by
    rw [handlesOfBodies, List.map_append, b.objects_handles,
      objects_handlesOfBodies s (i + 1) path bs, ← List.filterMap_append]
    rfl

end

/-- A value keeps alive just the objects that are named inside of it. -/
theorem holds_iff (t : Site) (v : Value) : v.holds t = true ↔ Names t v := by
  have hobjects := Value.objects_handles (.root 0) v
  have hany : v.holds t = ((v.handles (.root 0)).map (·.object)).any (· == t) := by
    rw [List.any_map]
    rfl
  rw [hany, hobjects, List.any_eq_true]
  constructor
  · rintro ⟨s, hs, heq⟩
    obtain ⟨u, hu, hname⟩ := List.mem_filterMap.1 hs
    exact ⟨u, hu, hname.trans (congrArg some (eq_of_beq heq))⟩
  · rintro ⟨u, hu, hname⟩
    exact ⟨t, List.mem_filterMap.2 ⟨u, hu, hname⟩, beq_self_eq_true t⟩

section Names

variable {α : Type} [HasNodes α] {t : Site}

theorem names_cons {x : α} {xs : List α} : Names t (x :: xs) ↔ Names t x ∨ Names t xs := by
  constructor
  · rintro ⟨u, hu, hname⟩
    exact (List.mem_append.1 hu).imp (⟨u, ·, hname⟩) (⟨u, ·, hname⟩)
  · rintro (⟨u, hu, hname⟩ | ⟨u, hu, hname⟩)
    · exact ⟨u, List.mem_append_left _ hu, hname⟩
    · exact ⟨u, List.mem_append_right _ hu, hname⟩

theorem names_iff_exists {xs : List α} : Names t xs ↔ ∃ x ∈ xs, Names t x := by
  constructor
  · rintro ⟨u, hu, hname⟩
    obtain ⟨x, hx, hu⟩ := List.mem_flatMap.1 hu
    exact ⟨x, hx, u, hu, hname⟩
  · rintro ⟨x, hx, u, hu, hname⟩
    exact ⟨u, List.mem_flatMap.2 ⟨x, hx, hu⟩, hname⟩

theorem scope_holds_iff (c : Scope) : c.holds t = true ↔ Names t c.held := by
  rw [Scope.holds, List.any_eq_true, names_iff_exists]
  simp only [holds_iff]

end Names

/-! ## Stores -/

namespace Store

/-- The store with the content `o` under the name `s`. -/
def insert (st : Store) (s : Site) (o : Object) : Store := fun t => if t = s then some o else st t

/-- The store without the name `s`. -/
def erase (st : Store) (s : Site) : Store := fun t => if t = s then none else st t

/-- Nothing has been made at the site `s` or below. -/
def Free (st : Store) (s : Site) : Prop := ∀ t, s.Covers t → st t = none

/-- The store after the objects of `x` have been written: those that have a name in it are
replaced, and those that do not are new. -/
def writeBack {α : Type} [HasNodes α] (st : Store) (x : α) : Store := fun t =>
  match (allNodes x).find? (·.name? == some t) with
  | some u => u.target?.map (·.2)
  | none => st t

@[simp] theorem insert_self (st : Store) (s : Site) (o : Object) : st.insert s o s = some o :=
  if_pos rfl

theorem insert_of_ne {st : Store} {s t : Site} {o : Object} (h : t ≠ s) :
    st.insert s o t = st t := if_neg h

@[simp] theorem erase_self (st : Store) (s : Site) : st.erase s s = none := if_pos rfl

theorem erase_of_ne {st : Store} {s t : Site} (h : t ≠ s) : st.erase s t = st t := if_neg h

end Store

section LiesIn

variable {α : Type} [HasNodes α] {x : α} {st st' : Store} {t : Site}

theorem LiesIn.exists_of_names (h : LiesIn st x) (ht : Names t x) : ∃ o, st t = some o := by
  obtain ⟨u, hu, hname⟩ := ht
  obtain ⟨⟨s, o⟩, htarget, hs⟩ := Option.map_eq_some_iff.1 hname
  cases hs
  exact ⟨o, h u hu _ _ htarget⟩

theorem LiesIn.ne_none (h : LiesIn st x) (ht : Names t x) : st t ≠ none := by
  obtain ⟨o, ho⟩ := h.exists_of_names ht
  rw [ho]
  exact Option.some_ne_none o

/-- Only the names inside matter. -/
theorem LiesIn.congr (h : LiesIn st x) (hst : ∀ t, Names t x → st' t = st t) : LiesIn st' x := by
  intro u hu s o htarget
  rw [hst s ⟨u, hu, congrArg (Option.map _) htarget⟩]
  exact h u hu s o htarget

/-- A new object disturbs nothing that lies in the store. -/
theorem LiesIn.insert (h : LiesIn st x) (ht : st t = none) (o : Object) :
    LiesIn (st.insert t o) x := by
  refine h.congr fun s hs => Store.insert_of_ne ?_
  rintro rfl
  exact h.ne_none hs ht

theorem LiesIn.erase (h : LiesIn st x) (ht : ¬Names t x) : LiesIn (st.erase t) x := by
  refine h.congr fun s hs => Store.erase_of_ne ?_
  rintro rfl
  exact ht hs

end LiesIn

/-! ## Nesting -/

/-- The handles inside of an object. -/
def Object.nodes : Object → List Value
  | list buf => allNodes buf
  | dict d => allNodes d
  | error v => v.nodes
  | lambda _ _ body => body.nodes
  | compose outer inner => outer.nodes ++ inner.nodes
  | project f args => f.nodes ++ allNodes args
  | _ => []

theorem Value.nodes_eq {v : Value} {s : Site} {o : Object} (h : v.target? = some (s, o)) :
    v.nodes = v :: o.nodes := by
  cases v with
  | array a =>
    cases h
    cases a with
    | list w => exact (Arr.list w).nodes_eq
    | _ => rfl
  | project s f args =>
    cases h
    rw [Value.nodes, nodesOfArgs_eq]
    rfl
  | _ => cases h <;> rfl

/-- The handle `u`, if it is among the nodes `us`, has no more nodes than those. -/
def FitsAmong (u : Value) (us : List Value) : Prop := u ∈ us → u.nodes.length ≤ us.length

theorem fitsAmong_append {u : Value} {us vs : List Value} (hu : FitsAmong u us)
    (hv : FitsAmong u vs) : FitsAmong u (us ++ vs) := by
  intro h
  rw [List.length_append]
  rcases List.mem_append.1 h with h | h
  · exact Nat.le_add_right_of_le (hu h)
  · exact Nat.le_add_left_of_le (hv h)

theorem fitsAmong_cons {u v : Value} {us : List Value} (hv : v.nodes = v :: us)
    (hu : FitsAmong u us) : FitsAmong u (v :: us) := by
  intro h
  rcases List.mem_cons.1 h with rfl | h
  · exact Nat.le_of_eq (congrArg List.length hv)
  · exact Nat.le_succ_of_le (hu h)

mutual

theorem fitsAmong_value (u : Value) : ∀ v : Value, FitsAmong u v.nodes
  | .array a => fitsAmong_arr u a
  | .dict _ ⟨keys, vals⟩ =>
    fitsAmong_cons rfl (fitsAmong_append (fitsAmong_arr u keys) (fitsAmong_arr u vals))
  | .error _ v => fitsAmong_cons rfl (fitsAmong_value u v)
  | .lambda _ _ _ body => fitsAmong_cons rfl (fitsAmong_body u body)
  | .compose _ outer inner =>
    fitsAmong_cons rfl (fitsAmong_append (fitsAmong_value u outer) (fitsAmong_value u inner))
  | .project _ f args =>
    fitsAmong_cons rfl (fitsAmong_append (fitsAmong_value u f) (fitsAmong_args u args))
  | .nil => nofun
  | .int _ => nofun
  | .float _ => nofun
  | .str _ => nofun
  | .builtin _ => nofun

theorem fitsAmong_arr (u : Value) : ∀ a : Arr Value, FitsAmong u a.nodes
  | .bools _ => fitsAmong_cons rfl nofun
  | .ints _ => fitsAmong_cons rfl nofun
  | .floats _ => fitsAmong_cons rfl nofun
  | .strs _ => fitsAmong_cons rfl nofun
  | .list ⟨_, buf, _, _, _⟩ => fitsAmong_cons rfl (fitsAmong_cells u buf)

theorem fitsAmong_cells (u : Value) : ∀ vs : List Value, FitsAmong u (nodesOfCells vs)
  | [] => nofun
  | v :: vs => fitsAmong_append (fitsAmong_value u v) (fitsAmong_cells u vs)

theorem fitsAmong_args (u : Value) : ∀ vs : List (Option Value), FitsAmong u (nodesOfArgs vs)
  | [] => nofun
  | none :: vs => fitsAmong_args u vs
  | some v :: vs => fitsAmong_append (fitsAmong_value u v) (fitsAmong_args u vs)

theorem fitsAmong_body (u : Value) : ∀ b : Body Value, FitsAmong u b.nodes
  | .arg _ => nofun
  | .const v => fitsAmong_value u v
  | .call f args => fitsAmong_append (fitsAmong_value u f) (fitsAmong_bodies u args)
  | .raise b => fitsAmong_body u b
  | .fail ⟨.raised v, _, _⟩ => fitsAmong_value u v
  | .fail ⟨.outOfBounds .., _, _⟩ => nofun
  | .fail ⟨.length .., _, _⟩ => nofun
  | .fail ⟨.type .., _, _⟩ => nofun
  | .fail ⟨.depth .., _, _⟩ => nofun
  | .fail ⟨.domain .., _, _⟩ => nofun
  | .fail ⟨.arity .., _, _⟩ => nofun
  | .branch c t e =>
    fitsAmong_append (fitsAmong_append (fitsAmong_body u c) (fitsAmong_body u t))
      (fitsAmong_body u e)
  | .amend _ x y f =>
    fitsAmong_append (fitsAmong_append (fitsAmong_body u x) (fitsAmong_body u y))
      (fitsAmong_value u f)
  | .amendWith _ x y f z =>
    fitsAmong_append (fitsAmong_append (fitsAmong_append (fitsAmong_body u x) (fitsAmong_body u y))
      (fitsAmong_value u f)) (fitsAmong_body u z)

theorem fitsAmong_bodies (u : Value) : ∀ bs : List (Body Value), FitsAmong u (nodesOfBodies bs)
  | [] => nofun
  | b :: bs => fitsAmong_append (fitsAmong_body u b) (fitsAmong_bodies u bs)

end

theorem fitsAmong_object (u : Value) : ∀ o : Object, FitsAmong u o.nodes
  | .bools _ => nofun
  | .ints _ => nofun
  | .floats _ => nofun
  | .strs _ => nofun
  | .list buf => by
    rw [Object.nodes, ← nodesOfCells_eq]
    exact fitsAmong_cells u buf
  | .dict d => fitsAmong_append (fitsAmong_arr u d.keys) (fitsAmong_arr u d.vals)
  | .error v => fitsAmong_value u v
  | .lambda _ _ body => fitsAmong_body u body
  | .compose outer inner => fitsAmong_append (fitsAmong_value u outer) (fitsAmong_value u inner)
  | .project f args => by
    rw [Object.nodes, ← nodesOfArgs_eq]
    exact fitsAmong_append (fitsAmong_value u f) (fitsAmong_args u args)

/-- An object does not lie inside of itself. -/
theorem name?_ne_of_mem_nodes {st : Store} {v : Value} {s : Site} {o : Object}
    (h : LiesIn st v) (htarget : v.target? = some (s, o)) {u : Value} (hu : u ∈ o.nodes) :
    u.name? ≠ some s := by
  intro hname
  have hnodes := Value.nodes_eq htarget
  have hshown : ∀ w ∈ v.nodes, w.ShownBy st := h
  rw [hnodes] at hshown
  obtain ⟨⟨s', o'⟩, htarget', hs⟩ := Option.map_eq_some_iff.1 hname
  have hs : s' = s := hs
  subst hs
  -- Both handles carry the one content that the store has, so that it would be its own part.
  have ho := (hshown v (List.mem_cons_self ..) _ _ htarget).symm.trans
    (hshown u (List.mem_cons_of_mem _ hu) _ _ htarget')
  cases ho
  have hfits := fitsAmong_object u o hu
  rw [Value.nodes_eq htarget', List.length_cons] at hfits
  omega

end SharedArrays
