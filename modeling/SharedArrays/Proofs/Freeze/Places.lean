import SharedArrays.Session.Step
import SharedArrays.Proofs.Alike.Basic
import SharedArrays.Proofs.Store.Basic

/-!
# Freezing along a way

Freezing enters a container only if nothing else refers to it. Who else refers to a container is
a question about all live handles, and each of them sits at one place. This file follows a way
from a value into its containers. If every container on the way has a single handle, then none of
them is held from outside of the way, so that freezing gets to its end and pins the array there.

## Main definitions

* `ClosedOver` — handles that sit at given places, or inside of objects among them
* `Value.UnsharedTo` — a way through containers that have one handle each
* `Scope.Away` — surroundings whose handles all sit away from a value

## Main results

* `Value.closedOver_handles` — the handles of a value sit at its place or inside of the value
* `Scope.Away.not_holds` — surroundings do not hold an object that has one handle
* `Scope.Away.freeze_part` — freezing takes a step on an unshared way
* `Scope.Away.part?_freeze` — freezing pins the array at the end of an unshared way
-/

namespace SharedArrays

/-! ## Where handles sit -/

/-- The place is inside of the object `s`. -/
def Place.In (s : Site) (p : Place) : Prop := ∃ path, p = .inside s path

/-- Each handle sits at one of the places `P`, or inside of an object that one of the handles
refers to. -/
def ClosedOver (P : Place → Prop) (hs : List Handle) : Prop :=
  ∀ h ∈ hs, P h.place ∨ ∃ t, h.place.In t ∧ ∃ h' ∈ hs, h'.object = t

section ClosedOver

variable {P : Place → Prop} {hs hs' : List Handle} {s : Site}

theorem closedOver_nil : ClosedOver P [] := List.forall_mem_nil _

theorem ClosedOver.append (h : ClosedOver P hs) (h' : ClosedOver P hs') :
    ClosedOver P (hs ++ hs') := by
  intro e he
  rcases List.mem_append.1 he with he | he
  · rcases h e he with hin | ⟨t, ht, e', he', heq⟩
    · exact .inl hin
    · exact .inr ⟨t, ht, e', List.mem_append_left _ he', heq⟩
  · rcases h' e he with hin | ⟨t, ht, e', he', heq⟩
    · exact .inl hin
    · exact .inr ⟨t, ht, e', List.mem_append_right _ he', heq⟩

/-- A handle at `p`, and those inside of its object. -/
theorem ClosedOver.object (h : ClosedOver (Place.In s) hs) (p : Place) :
    ClosedOver (· = p) (⟨p, s⟩ :: hs) := by
  intro e he
  rcases List.mem_cons.1 he with rfl | he
  · exact .inl rfl
  · refine .inr ?_
    rcases h e he with hin | ⟨t, ht, e', he', heq⟩
    · exact ⟨s, hin, _, List.mem_cons_self .., rfl⟩
    · exact ⟨t, ht, e', List.mem_cons_of_mem _ he', heq⟩

/-- What sits at a place inside of the object `s`. -/
theorem ClosedOver.inside {path : List Nat} (h : ClosedOver (· = .inside s path) hs) :
    ClosedOver (Place.In s) hs :=
  fun e he => (h e he).imp_left fun heq => ⟨path, heq⟩

end ClosedOver

mutual

/-- The handles of a value sit at its place, or inside of the value. -/
theorem Value.closedOver_handles (p : Place) : ∀ v : Value, ClosedOver (· = p) (v.handles p)
  | .array a => a.closedOver_handles p
  | .dict _ ⟨keys, vals⟩ =>
    .object (.append (keys.closedOver_handles _).inside (vals.closedOver_handles _).inside) p
  | .error _ v => .object (v.closedOver_handles _).inside p
  | .lambda s _ _ body => .object (body.closedOver_handles s []) p
  | .compose _ outer inner =>
    .object (.append (outer.closedOver_handles _).inside (inner.closedOver_handles _).inside) p
  | .project s f args =>
    .object (.append (f.closedOver_handles _).inside (closedOver_handlesOfArgs s 0 args)) p
  | .nil => closedOver_nil
  | .int _ => closedOver_nil
  | .float _ => closedOver_nil
  | .str _ => closedOver_nil
  | .builtin _ => closedOver_nil

theorem Arr.closedOver_handles (p : Place) : ∀ a : Arr Value, ClosedOver (· = p) (a.handles p)
  | .bools _ => .object closedOver_nil p
  | .ints _ => .object closedOver_nil p
  | .floats _ => .object closedOver_nil p
  | .strs _ => .object closedOver_nil p
  | .list ⟨s, buf, _, _, _⟩ => .object (closedOver_handlesOfCells s 0 buf) p

theorem closedOver_handlesOfCells (s : Site) (i : Nat) : ∀ vs : List Value,
    ClosedOver (Place.In s) (handlesOfCells s i vs)
  | [] => closedOver_nil
  | v :: vs => .append (v.closedOver_handles _).inside (closedOver_handlesOfCells s (i + 1) vs)

theorem closedOver_handlesOfArgs (s : Site) (i : Nat) : ∀ vs : List (Option Value),
    ClosedOver (Place.In s) (handlesOfArgs s i vs)
  | [] => closedOver_nil
  | none :: vs => closedOver_handlesOfArgs s (i + 1) vs
  | some v :: vs => .append (v.closedOver_handles _).inside (closedOver_handlesOfArgs s (i + 1) vs)

theorem Body.closedOver_handles (s : Site) (path : List Nat) : ∀ b : Body Value,
    ClosedOver (Place.In s) (b.handles s path)
  | .arg _ => closedOver_nil
  | .const v => (v.closedOver_handles _).inside
  | .call f args =>
    .append (f.closedOver_handles _).inside (closedOver_handlesOfBodies s 1 path args)
  | .raise b => b.closedOver_handles s (0 :: path)
  | .fail ⟨.raised v, _, _⟩ => (v.closedOver_handles _).inside
  | .fail ⟨.outOfBounds .., _, _⟩ => closedOver_nil
  | .fail ⟨.length .., _, _⟩ => closedOver_nil
  | .fail ⟨.type .., _, _⟩ => closedOver_nil
  | .fail ⟨.depth .., _, _⟩ => closedOver_nil
  | .fail ⟨.domain .., _, _⟩ => closedOver_nil
  | .fail ⟨.arity .., _, _⟩ => closedOver_nil
  | .branch c t e =>
    .append (.append (c.closedOver_handles s _) (t.closedOver_handles s _))
      (e.closedOver_handles s _)
  | .amend _ x y f =>
    .append (.append (x.closedOver_handles s _) (y.closedOver_handles s _))
      (f.closedOver_handles _).inside
  | .amendWith _ x y f z =>
    .append (.append (.append (x.closedOver_handles s _) (y.closedOver_handles s _))
      (f.closedOver_handles _).inside) (z.closedOver_handles s _)

theorem closedOver_handlesOfBodies (s : Site) (i : Nat) (path : List Nat) :
    ∀ bs : List (Body Value), ClosedOver (Place.In s) (handlesOfBodies s i path bs)
  | [] => closedOver_nil
  | b :: bs =>
    .append (b.closedOver_handles s _) (closedOver_handlesOfBodies s (i + 1) path bs)

end

section Handles

variable {v : Value} {p : Place} {s t : Site} {h : Handle}

theorem names_of_mem_handles (hh : h ∈ v.handles p) : Names h.object v := by
  have hmem : h.object ∈ (v.handles p).map (·.object) := List.mem_map_of_mem hh
  rw [Value.objects_handles] at hmem
  exact List.mem_filterMap.1 hmem

theorem exists_handle_of_names (p : Place) (ht : Names t v) :
    ∃ h ∈ v.handles p, h.object = t := by
  have hmem : t ∈ (v.handles p).map (·.object) := by
    rw [Value.objects_handles]
    exact List.mem_filterMap.2 ht
  exact List.mem_map.1 hmem

theorem mem_handles_of_name (hs : v.name? = some s) : ⟨p, s⟩ ∈ v.handles p := by
  cases v with
  | array a =>
    cases hs
    cases a <;> exact List.mem_cons_self ..
  | _ => cases hs <;> exact List.mem_cons_self ..

/-- The handles of values that sit at numbered places. -/
theorem mem_listed {q : Nat → Place} {g : Nat → List Value → List Handle}
    (hnil : ∀ k, g k [] = []) (hcons : ∀ k v vs, g k (v :: vs) = v.handles (q k) ++ g (k + 1) vs)
    {k : Nat} {vs : List Value} :
    h ∈ g k vs ↔ ∃ (i : Nat) (v : Value), vs[i]? = some v ∧ h ∈ v.handles (q (k + i)) := by
  induction vs generalizing k with
  | nil =>
    rw [hnil]
    refine iff_of_false List.not_mem_nil ?_
    rintro ⟨i, v, hv, -⟩
    cases hv
  | cons v vs ih =>
    rw [hcons, List.mem_append, ih]
    constructor
    · rintro (hv | ⟨i, w, hw, hh⟩)
      · exact ⟨0, v, rfl, hv⟩
      · exact ⟨i + 1, w, hw, by rwa [Nat.add_right_comm, Nat.add_assoc] at hh⟩
    · rintro ⟨i, w, hw, hh⟩
      cases i with
      | zero =>
        cases hw
        exact .inl hh
      | succ i => exact .inr ⟨i, w, hw, by rwa [Nat.add_right_comm, Nat.add_assoc]⟩

theorem mem_handlesOfCells {vs : List Value} {k : Nat} :
    h ∈ handlesOfCells s k vs ↔
      ∃ (i : Nat) (v : Value), vs[i]? = some v ∧ h ∈ v.handles (.inside s [k + i]) :=
  mem_listed (q := fun i => .inside s [i]) (fun _ => rfl) fun _ _ _ => rfl

theorem mem_handlesOfRoots {vs : List Value} {k : Nat} :
    h ∈ handleCount.handlesOfRoots k vs ↔
      ∃ (i : Nat) (v : Value), vs[i]? = some v ∧ h ∈ v.handles (.root (k + i)) :=
  mem_listed (q := .root) (fun _ => rfl) fun _ _ _ => rfl

/-- All handles on the object `s` sit at one place. -/
def Lone (live : List Handle) (s : Site) : Prop :=
  ∀ h ∈ live, ∀ h' ∈ live, h.object = s → h'.object = s → h.place = h'.place

theorem lone_of_handleCount {roots : List Value} (hcount : handleCount roots s = 1) :
    Lone (handleCount.handlesOfRoots 0 roots) s := by
  intro h hh h' hh' hs hs'
  obtain ⟨e, he⟩ := List.length_eq_one_iff.1 hcount
  have hmem (h : Handle) (hh : h ∈ handleCount.handlesOfRoots 0 roots) (hs : h.object = s) :
      h = e := by
    have hfiltered : h ∈ ((handleCount.handlesOfRoots 0 roots).filter (·.object == s)).eraseDups :=
      List.mem_eraseDups.2 (List.mem_filter.2 ⟨hh, beq_iff_eq.2 hs⟩)
    rw [he] at hfiltered
    exact List.mem_singleton.1 hfiltered
  rw [hmem h hh hs, hmem h' hh' hs']

end Handles

/-! ## Ways into a value -/

theorem part?_cons (v : Value) (p : Part) (ps : List Part) :
    v.part? (p :: ps) = (v.part? [p]).bind (·.part? ps) := by
  simp only [Value.part?]
  split
  · rename_i w i
    cases w.items[i]? <;> rfl
  all_goals rfl

theorem part?_element {w : Window Value} {i : Nat} {u : Value} :
    (Value.array (.list w)).part? [.element i] = some u ↔ w.items[i]? = some u := by
  rw [Value.part?]
  exact ⟨fun h => by
    obtain ⟨_, hi, hu⟩ := Option.bind_eq_some_iff.1 h
    cases hu
    exact hi, fun h => by rw [h]; rfl⟩

theorem nodes_subset_of_part? {v u : Value} {p : Part} (h : v.part? [p] = some u) :
    ∀ x ∈ u.nodes, x ∈ v.nodes := by
  intro x hx
  cases v with
  | array a =>
    cases a with
    | list w =>
      cases p with
      | element i =>
        have hu : u ∈ w.buf := Window.mem_of_mem_items (List.mem_of_getElem? (part?_element.1 h))
        rw [Value.nodes, Arr.nodes_eq]
        exact List.mem_cons_of_mem _ (List.mem_flatMap.2 ⟨u, hu, hx⟩)
      | _ => cases h
    | _ => cases h
  | dict s d =>
    obtain ⟨keys, vals⟩ := d
    cases p with
    | element i => cases h
    | keys =>
      cases h
      exact List.mem_cons_of_mem _ (List.mem_append_left _ hx)
    | vals =>
      cases h
      exact List.mem_cons_of_mem _ (List.mem_append_right _ hx)
  | _ => cases h

theorem mem_nodes_of_part? {v : Value} {ps : List Part} {a : Arr Value}
    (h : v.part? ps = some (.array a)) : .array a ∈ v.nodes := by
  induction ps generalizing v with
  | nil =>
    cases h
    rw [Value.nodes, Arr.nodes_eq]
    exact List.mem_cons_self ..
  | cons p ps ih =>
    rw [part?_cons] at h
    obtain ⟨u, hu, h⟩ := Option.bind_eq_some_iff.1 h
    exact nodes_subset_of_part? hu _ (ih h)

/-- Each container that the way leads through has a single handle. -/
def Value.UnsharedTo (roots : List Value) : Value → List Part → Prop
  | _, [] => True
  | v, p :: ps =>
    (∀ s, v.name? = some s → handleCount roots s = 1) ∧
      ∀ u, v.part? [p] = some u → u.UnsharedTo roots ps

/-- Among the live handles, those by which the surroundings `c` keep objects alive sit away from
the value `v` at the place `p`. -/
structure Scope.Away (c : Scope) (live : List Handle) (v : Value) (p : Place)
    (away : Handle → Prop) : Prop where
  /-- What the surroundings hold, they hold by a handle that is away. -/
  held : ∀ t, c.holds t = true → ∃ h, away h ∧ h.object = t
  mem : ∀ h, away h → h ∈ live
  own : ∀ h ∈ v.handles p, h ∈ live
  apart : ∀ h, away h → h.place ≠ p
  /-- A handle that is away is not inside of the value, or only by way of others that are away. -/
  closed : ∀ h, away h → ∀ t, h.place.In t → ¬Names t v ∨ ∃ h', away h' ∧ h'.object = t

section Away

variable {c : Scope} {live : List Handle} {v u : Value} {p : Place} {away : Handle → Prop}
  {s : Site} {o : Object}

theorem names_of_name (hs : v.name? = some s) : Names s v := by
  obtain ⟨⟨s', o⟩, htarget, heq⟩ := Option.map_eq_some_iff.1 hs
  cases heq
  refine ⟨v, ?_, hs⟩
  show v ∈ v.nodes
  rw [Value.nodes_eq htarget]
  exact List.mem_cons_self ..

theorem Scope.Away.not_of_lone (h : c.Away live v p away) (hs : v.name? = some s)
    (hlone : Lone live s) {e : Handle} (he : away e) : e.object ≠ s := by
  intro heq
  exact h.apart e he
    (hlone e (h.mem e he) ⟨p, s⟩ (h.own _ (mem_handles_of_name hs)) heq rfl)

/-- An object with one handle is not held by surroundings that are away. -/
theorem Scope.Away.not_holds (h : c.Away live v p away) (hs : v.name? = some s)
    (hlone : Lone live s) : c.holds s = false := by
  rw [← Bool.not_eq_true]
  intro hholds
  obtain ⟨e, he, heq⟩ := h.held s hholds
  exact h.not_of_lone hs hlone he heq

/-- On the way into the object of `v`, to the value `u` at the place `q` in it. The other values in
the object become part of the surroundings. -/
theorem Scope.Away.enter {st : Store} (h : c.Away live v p away) (hv : LiesIn st v)
    (htarget : v.target? = some (s, o)) (hlone : Lone live s) {q : List Nat} {others : List Value}
    (within : List Nat → Value → Prop) (hnodes : ∀ w ∈ u.nodes, w ∈ o.nodes)
    (hu : ∀ e ∈ u.handles (.inside s q), e ∈ v.handles p)
    (hwithin : ∀ q' w, within q' w → q' ≠ q ∧ (∀ x ∈ w.nodes, x ∈ o.nodes) ∧
      ∀ e ∈ w.handles (.inside s q'), e ∈ v.handles p)
    (hothers : ∀ w ∈ others, ∃ q', within q' w) :
    (c.beside others).Away live u (.inside s q)
      fun e => away e ∨ ∃ q' w, within q' w ∧ e ∈ w.handles (.inside s q') := by
  have hs : v.name? = some s := congrArg (Option.map _) htarget
  -- What lies in an object does not lead back to it.
  have hself {w : Value} (hw : ∀ x ∈ w.nodes, x ∈ o.nodes) : ¬Names s w := by
    rintro ⟨x, hx, hname⟩
    exact name?_ne_of_mem_nodes hv htarget (hw x hx) hname
  constructor
  · intro t ht
    -- The surroundings hold what they held, and what stands beside `u` in the object.
    rw [Scope.holds_beside, Bool.or_eq_true] at ht
    rcases ht with ht | ht
    · obtain ⟨e, he, heq⟩ := h.held t ht
      exact ⟨e, .inl he, heq⟩
    · obtain ⟨w, hw, ht⟩ := List.any_eq_true.1 ht
      obtain ⟨q', hq'⟩ := hothers w hw
      obtain ⟨e, he, heq⟩ := exists_handle_of_names (.inside s q') ((holds_iff t w).1 ht)
      exact ⟨e, .inr ⟨q', w, hq', he⟩, heq⟩
  · rintro e (he | ⟨q', w, hw, he⟩)
    · exact h.mem e he
    · exact h.own e ((hwithin q' w hw).2.2 e he)
  · exact fun e he => h.own e (hu e he)
  · rintro e (he | ⟨q', w, hw, he⟩) heq
    · -- The handle would be inside of `s`, which only handles that are away could lead to.
      rcases h.closed e he s ⟨q, heq⟩ with hnot | ⟨e', he', hobject⟩
      · exact hnot (names_of_name hs)
      · exact h.not_of_lone hs hlone he' hobject
    · obtain ⟨hne, hin, -⟩ := hwithin q' w hw
      rcases w.closedOver_handles _ e he with hplace | ⟨t, ⟨path, hplace⟩, e', he', hobject⟩
      · rw [hplace] at heq
        exact hne (Place.inside.inj heq).2
      · rw [hplace] at heq
        have hts : t = s := (Place.inside.inj heq).1
        exact hself hin (hts ▸ hobject ▸ names_of_mem_handles he')
  · rintro e (he | ⟨q', w, hw, he⟩) t ht
    · rcases h.closed e he t ht with hnot | ⟨e', he', hobject⟩
      · refine .inl ?_
        rintro ⟨x, hx, hname⟩
        refine hnot ⟨x, ?_, hname⟩
        show x ∈ v.nodes
        rw [Value.nodes_eq htarget]
        exact List.mem_cons_of_mem _ (hnodes x hx)
      · exact .inr ⟨e', .inl he', hobject⟩
    · obtain ⟨path, ht⟩ := ht
      rcases w.closedOver_handles _ e he with hplace | ⟨t', ⟨path', hplace⟩, e', he', hobject⟩
      · rw [hplace] at ht
        cases ht
        exact .inl (hself hnodes)
      · rw [hplace] at ht
        cases ht
        exact .inr ⟨e', .inr ⟨q', w, hw, he'⟩, hobject⟩

/-- On the way to a cell of a list, the other cells become part of the surroundings. -/
theorem Scope.Away.enterCell {st : Store} {w : Window Value} {j : Nat}
    (h : c.Away live (.array (.list w)) p away) (hv : LiesIn st (.array (.list w) : Value))
    (hlone : Lone live w.storage) (hu : w.buf[j]? = some u) :
    ∃ away', (c.beside (w.buf.eraseIdx j)).Away live u (.inside w.storage [j]) away' := by
  have hnodes {k : Nat} {x : Value} (hx : w.buf[k]? = some x) :
      ∀ y ∈ x.nodes, y ∈ (Object.list w.buf).nodes := fun y hy =>
    List.mem_flatMap.2 ⟨x, List.mem_of_getElem? hx, hy⟩
  have hhandles {k : Nat} {x : Value} (hx : w.buf[k]? = some x) :
      ∀ e ∈ x.handles (.inside w.storage [k]), e ∈ (Value.array (.list w)).handles p := by
    intro e he
    refine List.mem_cons_of_mem _ (mem_handlesOfCells.2 ⟨k, x, hx, ?_⟩)
    rwa [Nat.zero_add]
  refine ⟨_, h.enter hv rfl hlone (fun q x => ∃ k, k ≠ j ∧ q = [k] ∧ w.buf[k]? = some x)
    (hnodes hu) (hhandles hu) ?_ ?_⟩
  · rintro q x ⟨k, hk, rfl, hx⟩
    exact ⟨fun heq => hk (List.singleton_inj.1 heq), hnodes hx, hhandles hx⟩
  · intro x hx
    obtain ⟨k, hk, hx⟩ := List.mem_eraseIdx_iff_getElem?.1 hx
    exact ⟨[k], k, hk, rfl, hx⟩

section Entries

variable {keys vals : Arr Value} {st : Store}

/-- On the way to the keys of a dictionary, its values become part of the surroundings. -/
theorem Scope.Away.enterKeys (h : c.Away live (.dict s ⟨keys, vals⟩) p away)
    (hv : LiesIn st (.dict s ⟨keys, vals⟩ : Value)) (hlone : Lone live s) :
    ∃ away', (c.beside [.array vals]).Away live (.array keys) (.inside s [0]) away' := by
  refine ⟨_, h.enter hv rfl hlone (fun q x => q = [1] ∧ x = .array vals) ?_ ?_ ?_ ?_⟩
  · exact fun x hx => List.mem_append_left _ hx
  · exact fun e he => List.mem_cons_of_mem _ (List.mem_append_left _ he)
  · rintro q x ⟨rfl, rfl⟩
    exact ⟨by decide, fun x hx => List.mem_append_right _ hx,
      fun e he => List.mem_cons_of_mem _ (List.mem_append_right _ he)⟩
  · exact fun x hx => ⟨[1], rfl, List.mem_singleton.1 hx⟩

/-- On the way to the values of a dictionary, its keys become part of the surroundings. -/
theorem Scope.Away.enterVals (h : c.Away live (.dict s ⟨keys, vals⟩) p away)
    (hv : LiesIn st (.dict s ⟨keys, vals⟩ : Value)) (hlone : Lone live s) :
    ∃ away', (c.beside [.array keys]).Away live (.array vals) (.inside s [1]) away' := by
  refine ⟨_, h.enter hv rfl hlone (fun q x => q = [0] ∧ x = .array keys) ?_ ?_ ?_ ?_⟩
  · exact fun x hx => List.mem_append_right _ hx
  · exact fun e he => List.mem_cons_of_mem _ (List.mem_append_right _ he)
  · rintro q x ⟨rfl, rfl⟩
    exact ⟨by decide, fun x hx => List.mem_append_left _ hx,
      fun e he => List.mem_cons_of_mem _ (List.mem_append_left _ he)⟩
  · exact fun x hx => ⟨[0], rfl, List.mem_singleton.1 hx⟩

end Entries

/-! ## Freezing -/

theorem flags_pinned_freeze (c : Scope) (a : Arr Value) : (a.freeze c).flags.pinned = true := by
  cases a <;> rfl

theorem storage_freeze (c : Scope) (a : Arr Value) : (a.freeze c).storage = a.storage := by
  cases a <;> rfl

theorem getElem?_buf_of_items {w : Window Value} {i : Nat} (hu : w.items[i]? = some u) :
    w.buf[w.off + i]? = some u := by
  rw [Window.items, stretch, List.getElem?_take] at hu
  split at hu
  · rwa [List.getElem?_drop] at hu
  · cases hu

/-- Freezing gets to the elements of a list just if nothing else refers to the list. -/
theorem part?_freeze_element (c : Scope) (w : Window Value) (i : Nat) :
    (Value.freeze c (.array (.list w))).part? [.element i] = (w.items[i]?).map fun u =>
      if c.holds w.storage then u else u.freeze (c.beside (w.buf.eraseIdx (w.off + i))) := by
  rw [Value.freeze, Arr.freeze_list, Value.part?]
  simp only [Window.items, stretch, List.getElem?_take]
  by_cases hi : i < w.len
  · have hrange : w.off ≤ w.off + i ∧ w.off + i < w.off + w.len := by omega
    simp only [if_pos hi, List.getElem?_drop]
    split
    · cases w.buf[w.off + i]? <;> rfl
    · rw [Window.frozenCells, List.getElem?_mapIdx]
      cases w.buf[w.off + i]? with
      | none => rfl
      | some u => simp only [Option.map_some, if_pos hrange, Option.bind_some]; rfl
  · rw [if_neg hi, if_neg hi]
    rfl

/-- Freezing takes one step on the way, if the container has a single handle. What it comes to is
away from its surroundings in its turn. -/
theorem Scope.Away.freeze_part {st : Store} {roots : List Value} {q : Part}
    (h : c.Away (handleCount.handlesOfRoots 0 roots) v p away) (hv : LiesIn st v)
    (hcount : ∀ s, v.name? = some s → handleCount roots s = 1) (hu : v.part? [q] = some u) :
    LiesIn st u ∧ ∃ c' p' away', (v.freeze c).part? [q] = some (u.freeze c') ∧
      c'.Away (handleCount.handlesOfRoots 0 roots) u p' away' := by
  cases v with
  | array b =>
    cases b with
    | list w =>
      cases q with
      | element i =>
        -- The one handle on the list is the one that led here, so that the surroundings hold none.
        have hlone := lone_of_handleCount (hcount w.storage rfl)
        have hown : c.holds w.storage = false := h.not_holds rfl hlone
        have hcell := getElem?_buf_of_items (part?_element.1 hu)
        obtain ⟨away', haway⟩ := h.enterCell hv hlone hcell
        refine ⟨everywhere_iff_forall.1 ((everywhere_list w).1 hv).2 u
          (List.mem_of_getElem? hcell), _, _, _, ?_, haway⟩
        rw [part?_freeze_element, part?_element.1 hu, hown]
        rfl
      | _ => cases hu
    | _ => cases hu
  | dict s d =>
    obtain ⟨keys, vals⟩ := d
    have hlone := lone_of_handleCount (hcount s rfl)
    have hown : c.holds s = false := h.not_holds rfl hlone
    obtain ⟨-, hkeys, hvals⟩ := (everywhere_dict ..).1 hv
    rw [Value.freeze, if_neg (Bool.not_eq_true _ ▸ hown)]
    cases q with
    | element i => cases hu
    | keys =>
      cases hu
      obtain ⟨away', haway⟩ := h.enterKeys hv hlone
      exact ⟨hkeys, _, _, _, rfl, haway⟩
    | vals =>
      cases hu
      obtain ⟨away', haway⟩ := h.enterVals hv hlone
      exact ⟨hvals, _, _, _, rfl, haway⟩
  | _ => cases hu

/-- Freezing a value pins the array at the end of a way through containers with one handle each.
It stays the handle that it was in all other respects. -/
theorem Scope.Away.part?_freeze {st : Store} {roots : List Value} {ps : List Part}
    (h : c.Away (handleCount.handlesOfRoots 0 roots) v p away) (hv : LiesIn st v)
    (hps : v.UnsharedTo roots ps) {a : Arr Value} (ha : v.part? ps = some (.array a)) :
    ∃ b, (v.freeze c).part? ps = some (.array b) ∧ b.flags.pinned = true ∧
      b.storage = a.storage ∧ Alike b a := by
  -- Induction on the way. Each container on it is entered, since its one handle is on the way.
  induction ps generalizing c v p away with
  | nil =>
    cases ha
    exact ⟨a.freeze c, rfl, flags_pinned_freeze c a, storage_freeze c a, alike_arrFreeze c a⟩
  | cons q ps ih =>
    rw [part?_cons] at ha ⊢
    obtain ⟨u, hu, hua⟩ := Option.bind_eq_some_iff.1 ha
    obtain ⟨hcount, hrest⟩ := hps
    obtain ⟨hlies, c', p', away', hfreeze, haway⟩ := h.freeze_part hv hcount hu
    rw [hfreeze]
    exact ih haway hlies (hrest u hu) hua

end Away

end SharedArrays
