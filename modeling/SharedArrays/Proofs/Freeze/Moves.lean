import SharedArrays.Proofs.Freeze.Places
import SharedArrays.Proofs.Store.Path

/-!
# What an amend moves

An amend comes to some places of its slot: to the arrays that its path leads through, and to the
keys and values of the dictionaries on it. At each of these places it finds an array that it may
write in place, or one that it has to move to a new buffer first. A pinned array always moves. So
the arrays that the amend leaves at these places are on buffers that it has made, or on the
buffers that they were on, and then a pinned one is as it was.

At all other places an amend writes nothing. What stands there has been in the slot before, or has
been brought along, by an answer of the update function or by a new key.

## Main definitions

* `AmendReaches` — the places that an amend of some depth comes to
* `Arr.Kept`, `Arr.Stays` — arrays that are left alone, and arrays that are still on their buffer
* `Inputs.Brings` — what can come to stand at the other places
* `Value.Moves` — how an amend leaves the places of a value

## Main results

* `moves_array`, `moves_dict` — containers, from what they hold
* `moves_put`, `moves_push` — writes
* `moves_freeze`, `moves_canonical` — pins and canonical storage
-/

namespace SharedArrays

/-- An amend of `n` levels comes to the place at the end of the way. It takes a level to enter an
element of an array. Entering the values of a dictionary takes none, and of the keys an amend
writes to the array alone. -/
def AmendReaches : Nat → List Part → Prop
  | 0, _ => False
  | _ + 1, [] => True
  | n + 1, .element _ :: ps => AmendReaches n ps
  | _ + 1, .keys :: ps => ps = []
  | n + 1, .vals :: ps => AmendReaches (n + 1) ps

theorem not_amendReaches_zero (ps : List Part) : ¬AmendReaches 0 ps := by
  cases ps <;> exact id

/-- The array `b` is the handle `a`, but for pins that may have been set in it. -/
structure Arr.Kept (a b : Arr Value) : Prop where
  storage : b.storage = a.storage
  pinned : a.flags.pinned = true → b.flags.pinned = true
  alike : Alike b a

/-- The array `b` is on the buffer of `a`, and if `a` is pinned, then `b` is `a` itself. -/
structure Arr.Stays (a b : Arr Value) : Prop where
  storage : b.storage = a.storage
  kept : a.flags.pinned = true → a.Kept b

/-- What goes into an amend in place, and the site at which it makes its objects. -/
structure Inputs where
  slot : Value
  index : Value
  callee : Callee
  operand : Option Value
  site : Site

/-- What can come to stand at a place that the amend does not come to itself: parts of the slot,
of the index and of the answers of the function, and new objects. The function is called with
such values and with parts of the right operand. -/
inductive Inputs.Brings (I : Inputs) : Value → Prop
  | slot : I.Brings I.slot
  | index {k : Value} (h : Everywhere (· ∈ I.index.nodes) k) : I.Brings k
  | answer {s : Site} {v u : Value} {z : Option Value} (hs : I.site.Covers s) (hv : I.Brings v)
    (hz : Everywhere (· ∈ allNodes I.operand) z) (h : I.callee.call s (v :: z.toList) = .ok u) :
    I.Brings u
  | new {v : Value} (h : ∀ t, Names t v → I.site.Covers t) : I.Brings v
  | part {v u : Value} {p : Part} (hv : I.Brings v) (hu : v.part? [p] = some u) : I.Brings u
  | frozen {v : Value} (c : Scope) (hv : I.Brings v) : I.Brings (v.freeze c)

/-- At all places of `v` to which an amend of `n` levels does not come stands what the amend can
bring there. -/
def Value.Beyond (I : Inputs) (n : Nat) (v : Value) : Prop :=
  ∀ ps u, ¬AmendReaches n ps → v.part? ps = some u → I.Brings u

/-- The array `b` is on a new buffer, or stays on that of `a`. -/
def Arr.Settles (I : Inputs) (a b : Arr Value) : Prop := I.site.Covers b.storage ∨ a.Stays b

/-- How an amend of `n` levels leaves a value `v` where `x` has been before. -/
structure Value.Moves (I : Inputs) (n : Nat) (x : Option Value) (v : Value) : Prop where
  /-- The arrays at the places that the amend comes to are on new buffers, or have been there. -/
  reached : ∀ ps b, AmendReaches n ps → v.part? ps = some (.array b) →
    I.site.Covers b.storage ∨ ∃ a, x.bind (·.part? ps) = some (.array a) ∧ a.Stays b
  /-- What stands at the other places has been brought there. -/
  beyond : (∀ u, x = some u → u.Beyond I n) → v.Beyond I n

/-! ## Single arrays -/

section Settles

variable {I : Inputs} {a b e : Arr Value} {c : Scope}

theorem Arr.Kept.refl (a : Arr Value) : a.Kept a := ⟨rfl, id, .refl a⟩

theorem Arr.Kept.trans (h : a.Kept b) (h' : b.Kept e) : a.Kept e :=
  ⟨h'.storage.trans h.storage, fun hpinned => h'.pinned (h.pinned hpinned), h'.alike.trans h.alike⟩

theorem Arr.Kept.stays (h : a.Kept b) : a.Stays b := ⟨h.storage, fun _ => h⟩

theorem Arr.Stays.trans (h : a.Stays b) (h' : b.Stays e) : a.Stays e := by
  refine ⟨h'.storage.trans h.storage, fun hpinned => ?_⟩
  have hkept := h.kept hpinned
  exact hkept.trans (h'.kept (hkept.pinned hpinned))

theorem kept_freeze (c : Scope) (a : Arr Value) : a.Kept (a.freeze c) :=
  ⟨storage_freeze c a, fun _ => flags_pinned_freeze c a, alike_arrFreeze c a⟩

/-- A write leaves an array on its buffer only if the array is not pinned. -/
theorem storage_makePrivate_or {α : Type} (c : Scope) (w : Window α) :
    (w.makePrivate c).storage = c.site ∨
      (w.makePrivate c).storage = w.storage ∧ w.flags.pinned = false :=
  (storage_makePrivate_cases w).symm.imp_right fun h => ⟨h.1, h.2.1⟩

theorem settles_of_storage (hI : I.site.Covers c.site)
    (h : b.storage = c.site ∨ b.storage = a.storage ∧ a.flags.pinned = false) :
    a.Settles I b := by
  rcases h with h | ⟨h, hpinned⟩
  · exact .inl (h ▸ hI)
  · exact .inr ⟨h, fun hpinned' => by rw [hpinned] at hpinned'; cases hpinned'⟩

theorem settles_of_store {edit : ∀ {β : Type}, Window β → β → Window β} {v : Value}
    (hI : I.site.Covers c.site)
    (hedit : ∀ {β : Type} (w : Window β) (x : β), (edit w x).storage = (w.makePrivate c).storage)
    (h : a.store edit v = .ok b) : a.Settles I b := by
  have hmoved {β : Type} (w : Window β) (x : β) : (edit w x).storage = c.site ∨
      (edit w x).storage = w.storage ∧ w.flags.pinned = false := by
    rw [hedit]
    exact storage_makePrivate_or c w
  unfold Arr.store at h
  split at h
  · split at h <;> cases h
    exact settles_of_storage hI (hmoved _ _)
  all_goals cases h
  all_goals exact settles_of_storage hI (hmoved _ _)

theorem settles_put (hI : I.site.Covers c.site) (a : Arr Value) (i : Nat) (v : Value) :
    a.Settles I (a.put c i v) := by
  unfold Arr.put
  split
  · rename_i b hb
    have hstore : a.store (fun w x => w.write c i x) v = .ok b := hb
    refine settles_of_store hI ?_ hstore
    exact fun _ _ => rfl
  · exact .inl hI

theorem settles_push (hI : I.site.Covers c.site) (a : Arr Value) (v : Value) :
    a.Settles I (a.push c v) := by
  unfold Arr.push
  split
  · rename_i b hb
    have hstore : a.store (fun w x => w.append c [x]) v = .ok b := hb
    refine settles_of_store hI ?_ hstore
    exact fun _ _ => rfl
  · exact .inl hI

end Settles

/-! ## What stands beyond -/

section Beyond

variable {I : Inputs} {n : Nat} {u v : Value} {a : Arr Value} {d : Dict Value} {s : Site}

theorem Inputs.Brings.parts (h : I.Brings v) {ps : List Part} (hu : v.part? ps = some u) :
    I.Brings u := by
  induction ps generalizing v with
  | nil =>
    cases hu
    exact h
  | cons p ps ih =>
    rw [part?_cons] at hu
    obtain ⟨w, hw, hu⟩ := Option.bind_eq_some_iff.1 hu
    exact ih (h.part hw) hu

theorem Inputs.Brings.beyond (h : I.Brings v) (n : Nat) : v.Beyond I n :=
  fun _ _ _ hu => h.parts hu

theorem brings_of_nodes (h : v.nodes = []) : I.Brings v := by
  refine .new ?_
  rintro t ⟨u, hu, -⟩
  have hu : u ∈ v.nodes := hu
  rw [h] at hu
  cases hu

theorem beyond_array (h : ∀ i u, (Value.array a).part? [.element i] = some u → u.Beyond I n) :
    (Value.array a).Beyond I (n + 1) := by
  intro ps u hnot hu
  cases ps with
  | nil => exact absurd trivial hnot
  | cons p ps =>
    rw [part?_cons] at hu
    obtain ⟨w, hw, hwu⟩ := Option.bind_eq_some_iff.1 hu
    cases p with
    | element i => exact h i w hw ps u hnot hwu
    | _ => cases a <;> cases hw

theorem Value.Beyond.element (h : (Value.array a).Beyond I (n + 1)) {i : Nat}
    (hu : (Value.array a).part? [.element i] = some u) : u.Beyond I n := by
  intro ps w hnot hw
  refine h (.element i :: ps) w hnot ?_
  rw [part?_cons, hu]
  exact hw

/-- An amend comes to the keys of a dictionary as it would if they were all that it works on. -/
theorem amendReaches_keys {ps : List Part} (h : ((Value.array a).part? ps).isSome = true) :
    AmendReaches (n + 1) (.keys :: ps) ↔ AmendReaches 1 ps := by
  cases ps with
  | nil => exact iff_of_true rfl trivial
  | cons p ps =>
    refine iff_of_false (fun h => by cases h) fun hreaches => ?_
    cases p with
    | element i => exact not_amendReaches_zero ps hreaches
    | _ => cases a <;> cases h

theorem beyond_dict (hkeys : (Value.array d.keys).Beyond I 1)
    (hvals : (Value.array d.vals).Beyond I (n + 1)) : (Value.dict s d).Beyond I (n + 1) := by
  intro ps u hnot hu
  cases ps with
  | nil => exact absurd trivial hnot
  | cons p ps =>
    cases p with
    | element i => cases hu
    | vals => exact hvals ps u hnot hu
    | keys =>
      have hu : (Value.array d.keys).part? ps = some u := hu
      have hsome : ((Value.array d.keys).part? ps).isSome = true := by rw [hu]; rfl
      exact hkeys ps u (mt (amendReaches_keys hsome).2 hnot) hu

theorem Value.Beyond.keys (h : (Value.dict s d).Beyond I (n + 1)) :
    (Value.array d.keys).Beyond I 1 := by
  intro ps u hnot hu
  have hsome : ((Value.array d.keys).part? ps).isSome = true := by rw [hu]; rfl
  exact h (.keys :: ps) u (mt (amendReaches_keys hsome).1 hnot) hu

theorem Value.Beyond.vals (h : (Value.dict s d).Beyond I (n + 1)) :
    (Value.array d.vals).Beyond I (n + 1) :=
  fun ps u hnot hu => h (.vals :: ps) u hnot hu

end Beyond

/-! ## All places of a value -/

section Moves

variable {I : Inputs} {n : Nat} {x : Option Value} {u v w : Value} {a b : Arr Value} {c : Scope}

/-- A value that is left alone, or only frozen. -/
theorem moves_of_kept (h : ∀ ps b, v.part? ps = some (.array b) →
    ∃ a, x.bind (·.part? ps) = some (.array a) ∧ a.Kept b)
    (hbeyond : (∀ u, x = some u → u.Beyond I n) → v.Beyond I n) : v.Moves I n x := by
  refine ⟨fun ps b _ hb => ?_, hbeyond⟩
  obtain ⟨a, ha, hkept⟩ := h ps b hb
  exact .inr ⟨a, ha, hkept.stays⟩

theorem Value.Moves.refl (I : Inputs) (n : Nat) (v : Value) : v.Moves I n (some v) :=
  moves_of_kept (fun _ b hb => ⟨b, hb, .refl b⟩) fun h => h v rfl

theorem Value.Moves.beyond_of (h : v.Moves I n (some u)) (hu : u.Beyond I n) : v.Beyond I n := by
  refine h.beyond ?_
  rintro _ ⟨⟩
  exact hu

theorem Value.Moves.trans (h : v.Moves I n x) (h' : w.Moves I n (some v)) : w.Moves I n x := by
  refine ⟨fun ps e hreaches he => ?_, fun hx => h'.beyond_of (h.beyond hx)⟩
  rcases h'.reached ps e hreaches he with hnew | ⟨b, hb, hstays⟩
  · exact .inl hnew
  · rcases h.reached ps b hreaches hb with hnew | ⟨a, ha, hstays'⟩
    · exact .inl (hstays.storage ▸ hnew)
    · exact .inr ⟨a, ha, hstays'.trans hstays⟩

/-- What names new objects only. -/
theorem moves_of_names (h : ∀ t, Names t v → I.site.Covers t) : v.Moves I n x :=
  ⟨fun _ _ _ hb => .inl (h _ ⟨_, mem_nodes_of_part? hb, rfl⟩),
    fun _ => (Inputs.Brings.new h).beyond n⟩

/-- What is brought along to a place to which the amend does not come. -/
theorem moves_brought (h : I.Brings v) : v.Moves I 0 x :=
  ⟨fun ps _ hreaches => absurd hreaches (not_amendReaches_zero ps), fun _ => h.beyond 0⟩

theorem moves_array (h : a.Settles I b)
    (hcells : ∀ i u, (Value.array b).part? [.element i] = some u →
      u.Moves I n ((Value.array a).part? [.element i])) :
    (Value.array b).Moves I (n + 1) (some (.array a)) := by
  refine ⟨fun ps e hreaches he => ?_, fun hx => beyond_array fun i u hu => ?_⟩
  · cases ps with
    | nil =>
      cases he
      exact h.imp_right fun h => ⟨a, rfl, h⟩
    | cons p ps =>
      rw [part?_cons] at he
      obtain ⟨u, hu, hue⟩ := Option.bind_eq_some_iff.1 he
      cases p with
      | element i =>
        rw [Option.bind_some, part?_cons]
        exact (hcells i u hu).reached ps e hreaches hue
      | _ => cases b <;> cases hu
  · exact (hcells i u hu).beyond fun u' hu' => (hx _ rfl).element hu'

theorem moves_dict {s t : Site} {d e : Dict Value}
    (hkeys : (Value.array e.keys).Moves I 1 (some (.array d.keys)))
    (hvals : (Value.array e.vals).Moves I (n + 1) (some (.array d.vals))) :
    (Value.dict t e).Moves I (n + 1) (some (.dict s d)) := by
  refine ⟨fun ps b hreaches hb => ?_, fun hx =>
    beyond_dict (hkeys.beyond_of (hx _ rfl).keys) (hvals.beyond_of (hx _ rfl).vals)⟩
  cases ps with
  | nil => cases hb
  | cons p ps =>
    cases p with
    | element i => cases hb
    | vals => exact hvals.reached ps b hreaches hb
    | keys =>
      have hb : (Value.array e.keys).part? ps = some (.array b) := hb
      have hsome : ((Value.array e.keys).part? ps).isSome = true := by rw [hb]; rfl
      exact hkeys.reached ps b ((amendReaches_keys hsome).1 hreaches) hb

/-! ## Elements -/

theorem values_of_part? {i : Nat} (h : (Value.array b).part? [.element i] = some u) :
    b.values[i]? = some u := by
  cases b with
  | list w => exact part?_element.1 h
  | _ => cases h

/-- Elements of lists are at places of their own, and other elements have nothing inside. -/
theorem part?_or_nodes {i : Nat} (h : a.values[i]? = some u) :
    (Value.array a).part? [.element i] = some u ∨ u.nodes = [] := by
  cases a with
  | list w => exact .inl (part?_element.2 h)
  | _ =>
    obtain ⟨y, -, rfl⟩ := List.mem_map.1 (List.mem_of_getElem? h)
    exact .inr rfl

/-- An element that has been in the array before. -/
theorem moves_of_values {i : Nat} (h : a.values[i]? = some u) :
    u.Moves I n ((Value.array a).part? [.element i]) := by
  rcases part?_or_nodes h with h | h
  · rw [h]
    exact .refl I n u
  · refine moves_of_names ?_
    rintro t ⟨w, hw, -⟩
    have hw : w ∈ u.nodes := hw
    rw [h] at hw
    cases hw

theorem moves_put (hI : I.site.Covers c.site) (a : Arr Value) (i : Nat) (hv : I.Brings v) :
    (Value.array (a.put c i v)).Moves I 1 (some (.array a)) := by
  refine moves_array (settles_put hI a i v) fun j u hu => ?_
  have hu := values_of_part? hu
  rw [Arr.values_put] at hu
  by_cases hij : i = j
  · subst hij
    rw [List.getElem?_set_self'] at hu
    obtain ⟨_, -, rfl⟩ := Option.map_eq_some_iff.1 hu
    exact moves_brought hv
  · rw [List.getElem?_set_ne hij] at hu
    exact moves_of_values hu

theorem moves_push (hI : I.site.Covers c.site) (a : Arr Value) (hv : ∀ x, v.Moves I n x) :
    (Value.array (a.push c v)).Moves I (n + 1) (some (.array a)) := by
  refine moves_array (settles_push hI a v) fun i u hu => ?_
  have hu := values_of_part? hu
  rw [Arr.values_push, List.getElem?_append] at hu
  split at hu
  · exact moves_of_values hu
  · cases List.mem_singleton.1 (List.mem_of_getElem? hu)
    exact hv _

theorem Arr.Looped.moves (hI : I.site.Covers c.site) (h : a.Looped c b) :
    (Value.array b).Moves I 1 (some (.array a)) := by
  have hsettles : a.Settles I b := by
    cases h <;> exact settles_of_storage hI (storage_makePrivate_or c _)
  refine moves_array hsettles fun i u hu => ?_
  cases h <;> cases hu

/-! ## Pins and canonical storage -/

/-- One step into a frozen value leads to a part of the value, which may be frozen in its turn. -/
theorem part?_freeze_cases {p : Part} (h : (v.freeze c).part? [p] = some u) :
    ∃ u', v.part? [p] = some u' ∧ (u = u' ∨ ∃ c', u = u'.freeze c') := by
  cases v with
  | array a =>
    cases a with
    | list w =>
      cases p with
      | element i =>
        rw [part?_freeze_element] at h
        obtain ⟨u', hu', hu⟩ := Option.map_eq_some_iff.1 h
        refine ⟨u', part?_element.2 hu', ?_⟩
        split at hu
        · exact .inl hu.symm
        · exact .inr ⟨_, hu.symm⟩
      | _ => cases h
    | _ => cases h
  | dict s d =>
    obtain ⟨keys, vals⟩ := d
    rw [Value.freeze] at h
    split at h
    · exact ⟨u, h, .inl rfl⟩
    · cases p with
      | element i => cases h
      | keys =>
        cases h
        exact ⟨.array keys, rfl, .inr ⟨c.beside [.array vals], rfl⟩⟩
      | vals =>
        cases h
        exact ⟨.array vals, rfl, .inr ⟨c.beside [.array keys], rfl⟩⟩
  | _ => cases h

/-- The same for a way. -/
theorem parts_freeze_cases {ps : List Part} (h : (v.freeze c).part? ps = some u) :
    ∃ u', v.part? ps = some u' ∧ (u = u' ∨ ∃ c', u = u'.freeze c') := by
  induction ps generalizing v c with
  | nil =>
    cases h
    exact ⟨v, rfl, .inr ⟨c, rfl⟩⟩
  | cons p ps ih =>
    rw [part?_cons] at h ⊢
    obtain ⟨w, hw, h⟩ := Option.bind_eq_some_iff.1 h
    obtain ⟨w', hw', rfl | ⟨c', rfl⟩⟩ := part?_freeze_cases hw
    · rw [hw']
      exact ⟨u, h, .inl rfl⟩
    · rw [hw']
      exact ih h

/-- Freezing makes an array of an array only. -/
theorem exists_kept_of_freeze (h : v.freeze c = .array b) : ∃ a, v = .array a ∧ a.Kept b := by
  cases v with
  | array a =>
    cases h
    exact ⟨a, rfl, kept_freeze c a⟩
  | dict s d =>
    rw [Value.freeze] at h
    split at h <;> cases h
  | _ => cases h

theorem moves_freeze (c : Scope) (v : Value) : (v.freeze c).Moves I n (some v) := by
  refine moves_of_kept (fun ps b hb => ?_) fun h ps u hnot hu => ?_
  · obtain ⟨u', hu', heq | ⟨c', hfreeze⟩⟩ := parts_freeze_cases hb
    · exact ⟨b, heq ▸ hu', .refl b⟩
    · obtain ⟨a, rfl, hkept⟩ := exists_kept_of_freeze hfreeze.symm
      exact ⟨a, hu', hkept⟩
  · obtain ⟨u', hu', rfl | ⟨c', rfl⟩⟩ := parts_freeze_cases hu
    · exact h v rfl ps u hnot hu'
    · exact (h v rfl ps u' hnot hu').frozen c'

theorem moves_canonical (hI : I.site.Covers c.site) (a : Arr Value) :
    (Value.array (a.canonical c)).Moves I (n + 1) (some (.array a)) := by
  cases a with
  | list w =>
    rw [Arr.canonical]
    split
    · split
      · exact moves_freeze c (.array (.list w))
      · exact .refl I _ _
    · have hsite : (Arr.pack c.site w.items (tightKind w.items)).storage = c.site := by
        cases tightKind w.items <;> rfl
      refine moves_array (.inl (hsite.symm ▸ hI)) fun i u hu => ?_
      have hu := values_of_part? hu
      rw [show (Arr.pack c.site w.items (tightKind w.items)).values = w.items from
        Arr.values_ofValues c.site w.items] at hu
      exact moves_of_values hu
  | _ => exact .refl I _ _

end Moves

end SharedArrays
