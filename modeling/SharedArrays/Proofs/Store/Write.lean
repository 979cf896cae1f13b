import SharedArrays.Proofs.Store.Made
import SharedArrays.Proofs.WellFormed.Amend

/-!
# Writing in place and the store

While an array is written, its buffer may belong to it alone. The store of everything else then
does not have the buffer, and a write changes nothing in it. A buffer that something else refers
to stays in the store as it is, and the write moves the array to a new buffer.

## Main definitions

* `Arr.Ready` — an array between two writes, and the store of everything else
* `Arr.WrittenAs` — what a write makes of an array

## Main results

* `Arr.WrittenAs.ready` — a write leaves the store of everything else as it is
* `writtenAs_put`, `writtenAs_push`, `writtenAs_makePrivate` — the writes
-/

namespace SharedArrays

/-! ## Between two writes -/

/-- The cells of the array lie in the store. The buffer does if something else refers to it; if
not, the store is that of everything else. -/
structure Arr.Ready (c : Scope) (st : Store) (a : Arr Value) : Prop where
  cells : LiesIn st a.cells
  own : c.holds a.storage = false → st a.storage = none
  shared : c.holds a.storage = true → st a.storage = some a.object

/-- The store without the object `s`, unless something else refers to it. -/
def Store.hide (c : Scope) (s : Site) (st : Store) : Store :=
  if c.holds s then st else st.erase s

theorem Arr.nodes_object (a : Arr Value) : a.object.nodes = allNodes a.cells := by
  cases a <;> rfl

theorem liesIn_arr {st : Store} {a : Arr Value} :
    LiesIn st a ↔ st a.storage = some a.object ∧ LiesIn st a.cells := by
  have htarget : (Value.array a).target? = some (a.storage, a.object) := rfl
  have h := @liesIn_of_target st _ _ _ htarget
  rw [Arr.nodes_object] at h
  exact h

section Hide

variable {c : Scope} {st : Store} {s t : Site}

theorem hide_of_holds (ht : c.holds t = true) : st.hide c s t = st t := by
  unfold Store.hide
  split
  · rfl
  · rename_i hown
    refine Store.erase_of_ne ?_
    rintro rfl
    exact hown ht

theorem hide_eq_none (ht : st t = none) : st.hide c s t = none := by
  unfold Store.hide
  split
  · exact ht
  · unfold Store.erase
    split
    · rfl
    · exact ht

theorem hide_self (hs : c.holds s = false) : st.hide c s s = none := by
  rw [Store.hide, hs]
  exact Store.erase_self ..

theorem allows_hide (c : Scope) (S : Site → Prop) (s : Site) (st : Store) :
    c.Allows S st (st.hide c s) :=
  ⟨fun _ _ ht => hide_of_holds ht, fun _ _ ht => hide_eq_none ht⟩

theorem LiesIn.hide {α : Type} [HasNodes α] {x : α} (h : LiesIn st x) (hs : ¬Names s x) :
    LiesIn (st.hide c s) x := by
  unfold Store.hide
  split
  · exact h
  · exact h.erase hs

theorem held_hide (h : LiesIn st c.held) : LiesIn (st.hide c s) c.held :=
  h.congr fun _ ht => hide_of_holds ((scope_holds_iff c).2 ht)

theorem not_holds_of_none (hheld : LiesIn st c.held) (ht : st t = none) : c.holds t = false := by
  have hnot : ¬c.holds t = true := fun h => hheld.ne_none ((scope_holds_iff c).1 h) ht
  exact Bool.not_eq_true _ ▸ hnot

end Hide

section Ready

variable {c : Scope} {st : Store} {a : Arr Value}

theorem not_names_cells (h : LiesIn st a) : ¬Names a.storage a.cells := by
  rintro ⟨u, hu, hname⟩
  have hne := name?_ne_of_mem_nodes (v := .array a) h rfl (u := u)
  rw [Arr.nodes_object] at hne
  exact hne hu hname

theorem ready_hide (h : LiesIn st a) : a.Ready c (st.hide c a.storage) := by
  obtain ⟨hbuf, hcells⟩ := liesIn_arr.1 h
  refine ⟨hcells.hide (not_names_cells h), hide_self, fun hheld => ?_⟩
  rw [hide_of_holds hheld, hbuf]

/-- Putting the buffer back disturbs nothing. -/
theorem Arr.Ready.liesIn_insert (h : a.Ready c st) {α : Type} [HasNodes α] {x : α}
    (hx : LiesIn st x) : LiesIn (st.insert a.storage a.object) x := by
  by_cases hheld : c.holds a.storage = true
  · refine hx.congr fun t _ => ?_
    by_cases ht : t = a.storage
    · rw [ht, Store.insert_self, h.shared hheld]
    · exact Store.insert_of_ne ht
  · exact hx.insert (h.own (Bool.not_eq_true _ ▸ hheld)) _

theorem Arr.Ready.liesIn (h : a.Ready c st) : LiesIn (st.insert a.storage a.object) a :=
  liesIn_arr.2 ⟨Store.insert_self .., h.liesIn_insert h.cells⟩

/-! ## Writes -/

/-- The array `b` is what a write of `x` makes of `a`: it is on the buffer of `a`, if nothing else
is, or on a new one. -/
structure Arr.WrittenAs {α : Type} [HasNodes α] (c : Scope) (x : α) (a b : Arr Value) : Prop where
  storage : (b.storage = a.storage ∧ c.holds a.storage = false) ∨ b.storage = c.site
  cells : ∀ st, LiesIn st a.cells → LiesIn st x → LiesIn st b.cells

theorem Arr.WrittenAs.ready {α : Type} [HasNodes α] {x : α} {b : Arr Value}
    (h : a.WrittenAs c x b) (hready : a.Ready c st) (hx : LiesIn st x)
    (hsite : st c.site = none) (hheld : LiesIn st c.held) : b.Ready c st := by
  have hcells := h.cells st hready.cells hx
  have alone (hholds : c.holds b.storage = false) (hnone : st b.storage = none) :
      b.Ready c st := by
    refine ⟨hcells, fun _ => hnone, fun hshared => ?_⟩
    rw [hholds] at hshared
    cases hshared
  rcases h.storage with ⟨hstorage, hown⟩ | hstorage
  · exact alone (hstorage ▸ hown) (hstorage ▸ hready.own hown)
  · exact alone (hstorage ▸ not_holds_of_none hheld hsite) (hstorage ▸ hsite)

theorem Arr.WrittenAs.storage_or {α : Type} [HasNodes α] {x : α} {b : Arr Value}
    (h : a.WrittenAs c x b) : b.storage = a.storage ∨ c.site.Covers b.storage := by
  rcases h.storage with ⟨hstorage, -⟩ | hstorage
  · exact .inl hstorage
  · exact .inr (hstorage ▸ Site.covers_refl _)

end Ready

section Writes

variable {α : Type} {c : Scope}

/-- A window that is made private stays on its buffer, if it is not pinned and nothing else refers
to the buffer, or moves to a new one. -/
theorem storage_makePrivate_cases (w : Window α) :
    ((w.makePrivate c).storage = w.storage ∧ w.flags.pinned = false ∧
        c.holds w.storage = false) ∨
      (w.makePrivate c).storage = c.site := by
  unfold Window.makePrivate
  split
  · rename_i hprivate
    refine .inl ⟨rfl, ?_⟩
    simpa only [Window.isPrivate, Bool.and_eq_true, Bool.not_eq_true'] using hprivate
  · exact .inr rfl

/-- The buffer of a private window, and how it relates to that of the window. -/
theorem storage_makePrivate (w : Window α) :
    ((w.makePrivate c).storage = w.storage ∧ c.holds w.storage = false) ∨
      (w.makePrivate c).storage = c.site :=
  (storage_makePrivate_cases w).imp_left fun h => ⟨h.1, h.2.2⟩

/-- Edits of a private window that brings in `x` only. -/
theorem writtenAs_of_store {edit : ∀ {β : Type}, Window β → β → Window β}
    (hstorage : ∀ {β : Type} (w : Window β) (x : β),
      (edit w x).storage = (w.makePrivate c).storage)
    (hmem : ∀ {β : Type} (w : Window β) (x y : β), y ∈ (edit w x).buf → y ∈ w.buf ∨ y = x)
    {a b : Arr Value} {v : Value} (h : a.store edit v = .ok b) : a.WrittenAs c v b := by
  have hedit {β : Type} (w : Window β) (x : β) :
      ((edit w x).storage = w.storage ∧ c.holds w.storage = false) ∨
        (edit w x).storage = c.site := by
    rw [hstorage]
    exact storage_makePrivate w
  unfold Arr.store at h
  split at h
  · split at h <;> cases h
    exact ⟨hedit _ _, fun _ _ _ => everywhere_empty⟩
  · cases h; exact ⟨hedit _ _, fun _ _ _ => everywhere_empty⟩
  · cases h; exact ⟨hedit _ _, fun _ _ _ => everywhere_empty⟩
  · cases h; exact ⟨hedit _ _, fun _ _ _ => everywhere_empty⟩
  · cases h
    refine ⟨hedit _ _, fun st hcells hv => everywhere_iff_forall.2 fun y hy => ?_⟩
    rcases hmem _ _ _ hy with hy | rfl
    · exact everywhere_iff_forall.1 hcells y hy
    · exact hv
  · cases h

theorem values_subset_cells {st : Store} {a : Arr Value} (h : LiesIn st a.cells) :
    LiesIn st a.values := by
  cases a with
  | list w => exact everywhere_of_subset h fun u hu => Window.mem_of_mem_items hu
  | _ =>
    refine everywhere_iff_forall.2 fun v hv => ?_
    obtain ⟨x, -, rfl⟩ := List.mem_map.1 hv
    simp

/-- A list on a new buffer. -/
theorem writtenAs_newList {α : Type} [HasNodes α] {x : α} (a : Arr Value) {vs : List Value}
    (h : ∀ st, LiesIn st a.cells → LiesIn st x → LiesIn st vs) :
    a.WrittenAs c x (.list (.ofList c.site vs)) :=
  ⟨.inr rfl, h⟩

theorem writtenAs_set {a b : Arr Value} {i : Nat} {v : Value} (h : a.set c i v = .ok b) :
    a.WrittenAs c v b := by
  have h : a.store (fun w x => w.write c i x) v = .ok b := h
  refine writtenAs_of_store ?_ ?_ h
  · exact fun _ _ => rfl
  · exact fun _ _ _ hy => Window.mem_write hy

theorem writtenAs_put (a : Arr Value) (i : Nat) (v : Value) : a.WrittenAs c v (a.put c i v) := by
  unfold Arr.put
  split
  · rename_i b hb
    exact writtenAs_set hb
  · rename_i w hw
    have hwv : w = v := Arr.eq_of_store_error hw
    subst hwv
    refine writtenAs_newList a fun st hcells hv => everywhere_iff_forall.2 fun y hy => ?_
    rcases List.mem_or_eq_of_mem_set hy with hy | rfl
    · exact everywhere_iff_forall.1 (values_subset_cells hcells) y hy
    · exact hv

theorem writtenAs_push (a : Arr Value) (v : Value) : a.WrittenAs c v (a.push c v) := by
  unfold Arr.push
  split
  · rename_i b hb
    refine writtenAs_of_store ?_ ?_ hb
    · exact fun _ _ => rfl
    · exact fun _ _ _ hy => (Window.mem_append hy).imp_right List.mem_singleton.1
  · rename_i w hw
    have hwv : w = v := Arr.eq_of_store_error hw
    subst hwv
    refine writtenAs_newList a fun st hcells hv => (everywhere_append ..).2 ⟨?_, ?_⟩
    · exact values_subset_cells hcells
    · exact (everywhere_cons ..).2 ⟨hv, everywhere_empty⟩

theorem writtenAs_makePrivate (a : Arr Value) : a.WrittenAs c Value.nil (a.makePrivate c) := by
  cases a with
  | list w =>
    exact ⟨storage_makePrivate w, fun st hcells _ =>
      everywhere_of_subset hcells fun u hu => Window.mem_makePrivate hu⟩
  | _ w => exact ⟨storage_makePrivate w, fun _ _ _ => everywhere_empty⟩

theorem writtenAs_extend? {a b e : Arr Value} (h : a.extend? c b = some e) :
    a.WrittenAs c b e := by
  cases a <;> cases b <;> cases h
  case list.list.refl v w =>
    refine ⟨storage_makePrivate v, fun st hcells hw => everywhere_iff_forall.2 fun y hy => ?_⟩
    rcases Window.mem_append hy with hy | hy
    · exact everywhere_iff_forall.1 hcells y hy
    · exact everywhere_iff_forall.1 (everywhere_values hw) y hy
  all_goals exact ⟨storage_makePrivate _, fun _ _ _ => everywhere_empty⟩

theorem Arr.Looped.writtenAs {a b : Arr Value} (h : a.Looped c b) :
    a.WrittenAs c Value.nil b := by
  cases h <;> exact ⟨storage_makePrivate _, fun _ _ _ => everywhere_empty⟩

end Writes

end SharedArrays
