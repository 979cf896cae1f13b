import SharedArrays.Proofs.InPlace

/-!
# Writes as updates of lists

An array that is written to is a stretch of a buffer with an offset, flags and perhaps other handles
on it, stored in one of five variants. For its elements all of this has no meaning: writing an
element replaces it in the list of elements, and appending puts elements behind them. What the
variant decides is whether the array keeps it; what the other handles decide is on which buffer it
ends up.

The variants meet in two places. Whether an array can store a value is one table, and what storing
does to the window is another; `store_cases` says that they agree, and everything here goes through
it. In place, a write may touch the one cell of the buffer where the element lies. This is more than
what the array itself can show, and is said of all other windows on the buffer.

## Main definitions

* `Arr.Becomes` — an array with new elements, and what of the old one is left
* `Arr.showing` — another window on the buffer of an array
* `EditsAs` — an edit of windows that does to their elements what a function does to lists

## Main results

* `becomes_put`, `becomes_push`, `becomes_extend?` — writing, by the list of elements
* `values_showing_put` — a write in place touches one cell
* `writes_update_lists` — changes of a register that holds an array
-/

namespace SharedArrays

/-- The array `b` has come from `a` by a write, and shows `vs`. If what was written `fits` the
variant of `a`, it is of that variant, on the buffer of `a` if this was private and else on a new
one; otherwise it is a list on a new buffer. -/
structure Arr.Becomes (c : Scope) (fits : Bool) (vs : List Value) (a b : Arr Value) : Prop where
  values : b.values = vs
  inBounds : b.InBounds
  kind_iff : b.kind = a.kind ↔ fits = true
  kind_of_not_fits : fits = false → b.kind = .list
  flags : b.flags = {}
  storage : b.storage = if fits && a.isPrivate c then a.storage else c.site

/-- The window of `len` elements from position `off` on, on the buffer of the array. -/
def Arr.showing (off len : Nat) (a : Arr Value) : Arr Value := a.update ({ · with off, len })

section Writes

variable {c : Scope} {a b : Arr Value} {v : Value}

/-- An edit makes windows private first, and does to their elements what `onList` does to lists. -/
structure EditsAs (c : Scope) (edit : ∀ {β : Type}, Window β → β → Window β)
    (onList : ∀ {β : Type}, List β → β → List β) : Prop where
  items : ∀ {β : Type} (w : Window β) (x : β), (edit w x).items = onList w.items x
  map : ∀ {β γ : Type} (f : β → γ) (xs : List β) (x : β),
    (onList xs x).map f = onList (xs.map f) (f x)
  inBounds : ∀ {β : Type} (w : Window β) (x : β), w.InBounds → (edit w x).InBounds
  flags : ∀ {β : Type} (w : Window β) (x : β), (edit w x).flags = {}
  storage : ∀ {β : Type} (w : Window β) (x : β), (edit w x).storage = (w.makePrivate c).storage

theorem editsAs_write (c : Scope) (i : Nat) :
    EditsAs c (fun w x => w.write c i x) fun xs x => xs.set i x where
  items w x := w.items_write c i x
  map _ _ _ := List.map_set ..
  inBounds _ x hw := hw.write c i x
  flags w _ := w.flags_makePrivate c
  storage _ _ := rfl

theorem editsAs_append (c : Scope) :
    EditsAs c (fun w x => w.append c [x]) fun xs x => xs ++ [x] where
  items w x := w.items_append c [x]
  map _ _ _ := List.map_append ..
  inBounds w x _ := w.inBounds_append c [x]
  flags _ _ := rfl
  storage _ _ := rfl

/-- What an edit does to lists of elements, storing with it does to arrays. -/
theorem EditsAs.becomes {edit : ∀ {β : Type}, Window β → β → Window β}
    {onList : ∀ {β : Type}, List β → β → List β} (hedit : EditsAs c edit onList)
    (ha : a.InBounds) (h : a.store edit v = .ok b) :
    a.Becomes c true (onList a.values v) b where
  values := Arr.values_of_store onList hedit.items hedit.map h
  inBounds := inBounds_store hedit.inBounds ha h
  kind_iff := iff_of_true (Arr.kind_of_store h) rfl
  kind_of_not_fits := nofun
  flags := Arr.flags_of_store hedit.flags h
  storage := by
    rw [storage_of_store hedit.storage h, storage_arrMakePrivate, Bool.true_and]

/-- What does not fit goes into a list on a new buffer. -/
theorem becomes_newList (h : a.canStore v = false) (vs : List Value) :
    a.Becomes c false vs (.list (.ofList c.site vs)) where
  values := Window.items_ofList ..
  inBounds := Window.inBounds_ofList ..
  kind_iff := by
    refine iff_of_false (fun hkind => ?_) Bool.false_ne_true
    cases a with
    | list w => cases h
    | _ w => cases hkind
  kind_of_not_fits _ := rfl
  flags := rfl
  storage := rfl

theorem becomes_put (ha : a.InBounds) (i : Nat) (v : Value) :
    a.Becomes c (a.canStore v) (a.values.set i v) (a.put c i v) := by
  rw [Arr.put, Arr.set]
  rcases a.store_cases (fun w x => w.write c i x) v with ⟨hstore, b, hb⟩ | ⟨hstore, hb⟩
  · rw [hb, hstore]
    exact (editsAs_write c i).becomes ha hb
  · rw [hb, hstore]
    exact becomes_newList hstore _

theorem becomes_push (ha : a.InBounds) (v : Value) :
    a.Becomes c (a.canStore v) (a.values ++ [v]) (a.push c v) := by
  rw [Arr.push]
  rcases a.store_cases (fun w x => w.append c [x]) v with ⟨hstore, b, hb⟩ | ⟨hstore, hb⟩
  · rw [hb, hstore]
    exact (editsAs_append c).becomes ha hb
  · rw [hb, hstore]
    exact becomes_newList hstore _

/-- Arrays of one variant can be appended to one another. -/
theorem becomes_extend? (hkind : b.kind = a.kind) :
    ∃ e, a.extend? c b = some e ∧ a.Becomes c true (a.values ++ b.values) e := by
  obtain ⟨e, he⟩ : ∃ e, a.extend? c b = some e := by
    cases a <;> cases b <;> first | exact ⟨_, rfl⟩ | cases hkind
  refine ⟨e, he, Arr.values_extend? he, ?_, iff_of_true ?_ rfl, nofun, ?_, ?_⟩
  · cases a <;> cases b <;> cases he <;> exact Window.inBounds_append ..
  · cases a <;> cases b <;> cases he <;> rfl
  · cases a <;> cases b <;> cases he <;> rfl
  · rw [Bool.true_and, ← storage_arrMakePrivate]
    cases a <;> cases b <;> cases he <;> rfl

/-! ## Other windows on the buffer -/

theorem stretch_set_of_outside {α : Type} {off len k : Nat} (h : ¬(off ≤ k ∧ k < off + len))
    (x : α) (xs : List α) : stretch off len (xs.set k x) = stretch off len xs := by
  refine List.ext_getElem? fun j => ?_
  simp only [stretch, List.getElem?_take, List.getElem?_drop]
  split
  · have hne : k ≠ off + j := by omega
    rw [List.getElem?_set_ne hne]
  · rfl

/-- A write in place is seen by those windows on the buffer that show the element. -/
theorem items_showing_write {α : Type} {w : Window α} (hprivate : w.isPrivate c = true)
    {i off len : Nat} (h : ¬(off ≤ w.off + i ∧ w.off + i < off + len)) (x : α) :
    ({ w.write c i x with off, len } : Window α).items =
      ({ w with off, len } : Window α).items := by
  rw [Window.write, Window.makePrivate, if_pos hprivate]
  exact stretch_set_of_outside h x w.buf

theorem values_showing_put (hprivate : a.isPrivate c = true) (hv : a.canStore v = true)
    {i off len : Nat} (h : ¬(off ≤ a.off + i ∧ a.off + i < off + len)) :
    ((a.put c i v).showing off len).values = (a.showing off len).values := by
  obtain ⟨b, hb⟩ := (Arr.canStore_iff (fun w x => w.write c i x) a v).1 hv
  have hput : a.put c i v = b := by rw [Arr.put, Arr.set, hb]
  rw [hput]
  unfold Arr.store at hb
  split at hb
  · split at hb <;> cases hb
    exact congrArg (List.map _) (items_showing_write hprivate h _)
  · cases hb; exact congrArg (List.map _) (items_showing_write hprivate h _)
  · cases hb; exact congrArg (List.map _) (items_showing_write hprivate h _)
  · cases hb; exact congrArg (List.map _) (items_showing_write hprivate h _)
  · cases hb; exact items_showing_write hprivate h _
  · cases hb

/-! ## Changes of a register -/

theorem run_setAt (settings : Settings) (c : Scope) (a : Arr Value) (i : Nat) (v : Value) :
    Change.run settings c (.array a) (.setAt i v) =
      match a.set c i v with
      | .ok b => .ok (changed (.array b) .nothing)
      | .error w => .ok (changed (.array a) (.refused w)) := rfl

theorem run_extend (settings : Settings) (c : Scope) (a d : Arr Value) :
    Change.run settings c (.array a) (.extend (.array d)) =
      match a.extend? c d with
      | some b => .ok (changed (.array b) .nothing)
      | none => .error Refusal.notArray := rfl

end Writes

/-- What changes do to a register that holds an array. Setting an element is refused if the variant
cannot store the value; then the register keeps the very array, and the value is handed back.
Otherwise it does what putting the element there does. That, and appending, always go through: the
elements are those of the updated list, those that are not written are the same values as before,
and the array turns into a list just if its variant cannot store the value. Appending an array of
the same variant appends its elements. A write in place leaves all other cells of the buffer as they
are. -/
theorem writes_update_lists (settings : Settings) (c : Scope) {a : Arr Value} (ha : a.InBounds)
    (v : Value) {i : Nat} (hi : i < a.len) :
    (a.canStore v = true →
      Change.run settings c (.array a) (.setAt i v) =
        Change.run settings c (.array a) (.put i v)) ∧
    (a.canStore v = false →
      Change.run settings c (.array a) (.setAt i v) = .ok (changed (.array a) (.refused v))) ∧
    (∃ b, Change.run settings c (.array a) (.put i v) = .ok (changed (.array b) .nothing) ∧
      a.Becomes c (a.canStore v) (a.values.set i v) b ∧
      b.at? i = some v ∧ (∀ j, j ≠ i → b.at? j = a.at? j) ∧
      (a.canStore v = true → a.isPrivate c = true → ∀ off len,
        ¬(off ≤ a.off + i ∧ a.off + i < off + len) →
          (b.showing off len).values = (a.showing off len).values)) ∧
    (∃ b, Change.run settings c (.array a) (.push v) = .ok (changed (.array b) .nothing) ∧
      a.Becomes c (a.canStore v) (a.values ++ [v]) b) ∧
    ∀ d : Arr Value, d.kind = a.kind →
      ∃ b, Change.run settings c (.array a) (.extend (.array d)) =
          .ok (changed (.array b) .nothing) ∧
        a.Becomes c true (a.values ++ d.values) b := by
  have hlen : i < a.values.length := by rwa [Arr.length_values ha]
  refine ⟨fun hstore => ?_, fun hstore => ?_, ⟨a.put c i v, rfl, becomes_put ha i v, ?_, ?_, ?_⟩,
    ⟨a.push c v, rfl, becomes_push ha v⟩, fun d hkind => ?_⟩
  · obtain ⟨b, hb⟩ := (Arr.canStore_iff (fun w x => w.write c i x) a v).1 hstore
    have hset : a.set c i v = .ok b := hb
    have hput : a.put c i v = b := by rw [Arr.put, hset]
    show _ = Except.ok (changed (.array (a.put c i v)) .nothing)
    rw [run_setAt, hset, hput]
  · rcases a.store_cases (fun w x => w.write c i x) v with ⟨hnot, -⟩ | ⟨-, hrefused⟩
    · cases hstore.symm.trans hnot
    · have hset : a.set c i v = .error v := hrefused
      rw [run_setAt, hset]
  · rw [Arr.at?, Arr.values_put, List.getElem?_set_self hlen]
  · intro j hj
    rw [Arr.at?, Arr.at?, Arr.values_put, List.getElem?_set_ne (Ne.symm hj)]
  · exact fun hstore hprivate off len h => values_showing_put hprivate hstore h
  · obtain ⟨b, hb, hbecomes⟩ := becomes_extend? (c := c) hkind
    exact ⟨b, by rw [run_extend, hb], hbecomes⟩

/-- Two elements in the middle of a buffer. Alone on the buffer, the array takes an integer in
place, and the element behind it stays; a string is refused. Beside another handle, the string makes
a list on a new buffer. -/
theorem writes_update_lists_middle :
    let a : Arr Value := .ints ⟨.step 0, [4, 5, 6, 7], 1, 2, {}⟩
    let alone : Scope := ⟨[], .step 1⟩
    let beside : Scope := ⟨[.array a], .step 1⟩
    a.InBounds ∧ 1 < a.len ∧
      (∃ b, Change.run {} alone (.array a) (.setAt 1 (.int 9)) =
          .ok (changed (.array b) .nothing) ∧
        b.values = [.int 5, .int 9] ∧ b.storage = .step 0 ∧ b.kind = .ints ∧
        (b.showing 3 1).values = [.int 7]) ∧
      Change.run {} alone (.array a) (.setAt 1 (.str "x")) =
        .ok (changed (.array a) (.refused (.str "x"))) ∧
      ∃ b, Change.run {} beside (.array a) (.put 1 (.str "x")) =
          .ok (changed (.array b) .nothing) ∧
        b.values = [.int 5, .str "x"] ∧ b.storage = .step 1 ∧ b.kind = .list := by
  intro a alone beside
  have ha : a.InBounds := by decide
  have hi : 1 < a.len := by decide
  obtain ⟨hset, -, ⟨b, hput, hb, -, -, hother⟩, -⟩ := writes_update_lists {} alone ha (.int 9) hi
  obtain ⟨-, hrefused, -⟩ := writes_update_lists {} alone ha (.str "x") hi
  obtain ⟨-, -, ⟨d, hlist, hd, -⟩, -⟩ := writes_update_lists {} beside ha (.str "x") hi
  refine ⟨ha, hi, ⟨b, (hset rfl).trans hput, hb.values, ?_, ?_, ?_⟩, hrefused rfl, d, hlist,
    hd.values, ?_, hd.kind_of_not_fits rfl⟩
  · exact hb.storage
  · exact hb.kind_iff.2 rfl
  · exact hother rfl rfl 3 1 (by decide)
  · exact hd.storage

end SharedArrays
