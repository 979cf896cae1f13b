import SharedArrays.Value.Handles

/-!
# Writing to arrays

Every write first makes the window private: it stays on its buffer if nothing else refers to the
buffer and the window is not pinned, and otherwise moves to a new buffer with a copy of its
elements. Either way the flags are reset, since the facts may not survive the write.

`Arr.set` refuses a value that the variant of the array cannot store. `Arr.put` and `Arr.push`
then turn the array into a list.

## Main definitions

* `Window.makePrivate`, `Window.write`, `Window.append` — writing to a window
* `Arr.canStore` — the values that a variant can store
* `Arr.set`, `Arr.put`, `Arr.push`, `Arr.extend?` — writing to an array

## Main results

* `Window.items_makePrivate` — making a window private keeps its elements
* `Arr.values_set`, `Arr.values_put`, `Arr.values_push`, `Arr.values_extend?` — what the writes do
  to the elements
* `Arr.canStore_iff` — what an array can store is what it does not refuse
* `Arr.kind_put`, `Arr.kind_push` — when a write turns an array into a list
-/

namespace SharedArrays

namespace Window

variable {α : Type}

/-- Sees to it that no other handle is on the buffer, and resets the flags. -/
def makePrivate (c : Scope) (w : Window α) : Window α :=
  if w.isPrivate c then { w with flags := {} } else ofList c.site w.items

/-- Writes element `i`. -/
def write (c : Scope) (w : Window α) (i : Nat) (x : α) : Window α :=
  let u := w.makePrivate c
  { u with buf := u.buf.set (u.off + i) x }

/-- Appends elements. What lies outside of the window is dropped. -/
def append (c : Scope) (w : Window α) (xs : List α) : Window α :=
  let u := w.makePrivate c
  -- The buffer keeps its name, but ends where the window ended, so that the new elements follow.
  ofList u.storage (u.items ++ xs)

@[simp] theorem items_makePrivate (c : Scope) (w : Window α) :
    (w.makePrivate c).items = w.items := by
  unfold makePrivate
  split
  · rfl
  · simp

@[simp] theorem flags_makePrivate (c : Scope) (w : Window α) : (w.makePrivate c).flags = {} := by
  unfold makePrivate
  split <;> rfl

@[simp] theorem items_append (c : Scope) (w : Window α) (xs : List α) :
    (w.append c xs).items = w.items ++ xs := by
  simp [append]

theorem items_write (c : Scope) (w : Window α) (i : Nat) (x : α) :
    (w.write c i x).items = w.items.set i x := by
  rw [← items_makePrivate c w]
  exact stretch_set ..

theorem InBounds.makePrivate {w : Window α} (h : w.InBounds) (c : Scope) :
    (w.makePrivate c).InBounds := by
  unfold Window.makePrivate
  split
  · exact h
  · exact inBounds_ofList ..

theorem InBounds.write {w : Window α} (h : w.InBounds) (c : Scope) (i : Nat) (x : α) :
    (w.write c i x).InBounds := by
  simpa [InBounds, Window.write] using h.makePrivate c

theorem inBounds_append (c : Scope) (w : Window α) (xs : List α) : (w.append c xs).InBounds :=
  inBounds_ofList ..

end Window

namespace Arr

/-- Sees to it that no other handle is on the buffer, and resets the flags. -/
def makePrivate (c : Scope) (a : Arr Value) : Arr Value := a.update (·.makePrivate c)

/-- No other handle is on the buffer, and the handle is not pinned. -/
def isPrivate (c : Scope) (a : Arr Value) : Bool := a.read (·.isPrivate c)

/-- A copy of the elements on a new buffer. -/
def copy (s : Site) (a : Arr Value) : Arr Value := a.update (·.copy s)

/-- The variant can store the value. Truth values are the integers 0 and 1. -/
def canStore : Arr Value → Value → Bool
  | bools _, .int n => n == 0 || n == 1
  | ints _, .int _ => true
  | floats _, .float _ => true
  | strs _, .str _ => true
  | list _, _ => true
  | _, _ => false

/-- Stores a value with `edit`, or hands it back if the variant cannot store it. -/
def store (edit : ∀ {β : Type}, Window β → β → Window β) :
    Arr Value → Value → Except Value (Arr Value)
  | bools w, .int n =>
    if n == 0 || n == 1 then .ok (bools (edit w (n == 1))) else .error (.int n)
  | ints w, .int n => .ok (ints (edit w n))
  | floats w, .float x => .ok (floats (edit w x))
  | strs w, .str s => .ok (strs (edit w s))
  | list w, v => .ok (list (edit w v))
  | _, v => .error v

/-- A list with the same elements, on a new buffer unless the array is a list already. -/
def asList (s : Site) : Arr Value → Arr Value
  | list w => list w
  | a => list (.ofList s a.values)

/-- Writes element `i`, or hands the value back if the variant cannot store it. -/
def set (c : Scope) (a : Arr Value) (i : Nat) (v : Value) : Except Value (Arr Value) :=
  a.store (fun w x => w.write c i x) v

/-- Writes element `i` of an array that becomes a list if its variant cannot store the value. -/
def put (c : Scope) (a : Arr Value) (i : Nat) (v : Value) : Arr Value :=
  match a.set c i v with
  | .ok b => b
  | .error v => list (.ofList c.site (a.values.set i v))

/-- Appends an element to an array that becomes a list if its variant cannot store the value. -/
def push (c : Scope) (a : Arr Value) (v : Value) : Arr Value :=
  match a.store (fun w x => w.append c [x]) v with
  | .ok b => b
  | .error v => list (.ofList c.site (a.values ++ [v]))

/-- Appends the elements of an array of the same variant. -/
def extend? (c : Scope) : Arr Value → Arr Value → Option (Arr Value)
  | bools v, bools w => some (bools (v.append c w.items))
  | ints v, ints w => some (ints (v.append c w.items))
  | floats v, floats w => some (floats (v.append c w.items))
  | strs v, strs w => some (strs (v.append c w.items))
  | list v, list w => some (list (v.append c w.items))
  | _, _ => none

theorem canStore_iff (edit : ∀ {β : Type}, Window β → β → Window β) (a : Arr Value)
    (v : Value) : a.canStore v = true ↔ ∃ b, a.store edit v = .ok b := by
  cases a <;> cases v <;> simp [canStore, store]
  -- What remains is an integer for truth values.
  split <;> simp_all

/-- What an edit does to the elements of windows, storing with it does to the values of arrays. -/
theorem values_of_store {edit : ∀ {β : Type}, Window β → β → Window β}
    (onList : ∀ {β : Type}, List β → β → List β)
    (hedit : ∀ {β : Type} (w : Window β) (x : β), (edit w x).items = onList w.items x)
    (hmap : ∀ {β γ : Type} (f : β → γ) (xs : List β) (x : β),
      (onList xs x).map f = onList (xs.map f) (f x))
    {a b : Arr Value} {v : Value} (h : a.store edit v = .ok b) :
    b.values = onList a.values v := by
  unfold store at h
  split at h
  · split at h
    · rename_i n hn
      cases h
      -- The truth value that is stored for `n` reads back as `n`.
      have : n = if (n == 1) = true then 1 else 0 := by
        rcases Bool.or_eq_true _ _ ▸ hn with h | h <;> simp_all
      simp only [values, hedit, hmap]
      rw [← this]
    · cases h
  · cases h; simp only [values, hedit, hmap]
  · cases h; simp only [values, hedit, hmap]
  · cases h; simp only [values, hedit, hmap]
  · cases h; simp only [values, hedit]
  · cases h

/-- What is handed back is what was to be stored. -/
theorem eq_of_store_error {edit : ∀ {β : Type}, Window β → β → Window β} {a : Arr Value}
    {v w : Value} (h : a.store edit v = .error w) : w = v := by
  unfold store at h
  split at h
  · split at h <;> cases h
    rfl
  all_goals cases h
  rfl

theorem values_set {c : Scope} {a b : Arr Value} {i : Nat} {v : Value}
    (h : a.set c i v = .ok b) : b.values = a.values.set i v :=
  values_of_store (fun xs x => xs.set i x) (fun w x => w.items_write c i x)
    (fun _ _ _ => List.map_set ..) h

theorem values_put (c : Scope) (a : Arr Value) (i : Nat) (v : Value) :
    (a.put c i v).values = a.values.set i v := by
  unfold put
  split
  · exact values_set ‹_›
  · rename_i w h
    have : w = v := eq_of_store_error h
    simp [values, this]

theorem values_push (c : Scope) (a : Arr Value) (v : Value) :
    (a.push c v).values = a.values ++ [v] := by
  unfold push
  split
  · exact values_of_store (fun xs x => xs ++ [x]) (fun w x => w.items_append c [x])
      (fun _ _ _ => List.map_append ..) ‹_›
  · rename_i w h
    have : w = v := eq_of_store_error h
    simp [values, this]

/-- Storing goes through just if the variant can store the value. -/
theorem store_cases (edit : ∀ {β : Type}, Window β → β → Window β) (a : Arr Value) (v : Value) :
    (a.canStore v = true ∧ ∃ b, a.store edit v = .ok b) ∨
      (a.canStore v = false ∧ a.store edit v = .error v) := by
  have hiff := canStore_iff edit a v
  cases h : a.store edit v with
  | ok b => exact .inl ⟨hiff.2 ⟨b, h⟩, b, rfl⟩
  | error w =>
    have hwv : w = v := eq_of_store_error h
    have hnot : ¬a.canStore v = true := by
      intro hstore
      obtain ⟨b, hb⟩ := hiff.1 hstore
      cases h.symm.trans hb
    exact .inr ⟨Bool.not_eq_true _ ▸ hnot, by rw [hwv]⟩

section Store

variable {edit : ∀ {β : Type}, Window β → β → Window β} {a b : Arr Value} {v : Value}

theorem kind_of_store (h : a.store edit v = .ok b) : b.kind = a.kind := by
  unfold store at h
  split at h
  · split at h <;> cases h
    rfl
  all_goals cases h
  all_goals rfl

theorem flags_of_store (hedit : ∀ {β : Type} (w : Window β) (x : β), (edit w x).flags = {})
    (h : a.store edit v = .ok b) : b.flags = {} := by
  unfold store at h
  split at h
  · split at h <;> cases h
    exact hedit _ _
  all_goals cases h
  all_goals exact hedit _ _

end Store

theorem kind_put (c : Scope) (a : Arr Value) (i : Nat) (v : Value) :
    (a.put c i v).kind = if a.canStore v then a.kind else .list := by
  rw [put, set]
  rcases a.store_cases (fun w x => w.write c i x) v with ⟨hstore, b, hb⟩ | ⟨hstore, hb⟩
  · rw [hb, if_pos hstore]
    exact kind_of_store hb
  · rw [hb, hstore]
    rfl

theorem flags_put (c : Scope) (a : Arr Value) (i : Nat) (v : Value) : (a.put c i v).flags = {} := by
  rw [put, set]
  rcases a.store_cases (fun w x => w.write c i x) v with ⟨-, b, hb⟩ | ⟨-, hb⟩
  · rw [hb]
    refine flags_of_store (fun w x => ?_) hb
    exact w.flags_makePrivate c
  · rw [hb]
    rfl

theorem kind_push (c : Scope) (a : Arr Value) (v : Value) :
    (a.push c v).kind = if a.canStore v then a.kind else .list := by
  rw [push]
  rcases a.store_cases (fun w x => w.append c [x]) v with ⟨hstore, b, hb⟩ | ⟨hstore, hb⟩
  · rw [hb, if_pos hstore]
    exact kind_of_store hb
  · rw [hb, hstore]
    rfl

theorem flags_push (c : Scope) (a : Arr Value) (v : Value) : (a.push c v).flags = {} := by
  rw [push]
  rcases a.store_cases (fun w x => w.append c [x]) v with ⟨-, b, hb⟩ | ⟨-, hb⟩
  · rw [hb]
    exact flags_of_store (fun _ _ => rfl) hb
  · rw [hb]
    rfl

theorem values_asList (s : Site) (a : Arr Value) : (a.asList s).values = a.values := by
  cases a <;> simp [asList, values]

theorem values_extend? {c : Scope} {a b e : Arr Value} (h : a.extend? c b = some e) :
    e.values = a.values ++ b.values := by
  cases a <;> cases b <;> simp only [extend?, Option.some.injEq, reduceCtorEq] at h <;>
    subst h <;> simp [values]

end Arr

end SharedArrays
