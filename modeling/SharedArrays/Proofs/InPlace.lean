import SharedArrays.Proofs.Canonical.Lossless
import SharedArrays.Proofs.FlatFold
import SharedArrays.Proofs.Freeze.Session

/-!
# Writing in place

Whether an amend writes to the buffer that it finds or to a copy is decided by the handles that are
alive. The library asks its surroundings whether they hold the buffer; a user can only ask for the
number of handles. This file shows that the two questions have one answer, and that nothing that an
amend keeps alive itself stands in the way of writing in place.

## Main definitions

* `stepWrites` — the values that steps write
* `Arr.amendWrites` — the values that an amend of an array writes
* `Arr.Overwritten` — what writes leave of an array whose variant stores them
* `wayOf` — the way that a path of integers leads
* `Session.Begins` — an amend through a register whose operands have been read

## Main results

* `isSole_eq_isPrivate` — an array has the only handle on its buffer just if its surroundings do
  not hold the buffer
* `overwritten_runSteps`, `overwritten_amend` — writes stay on the buffer of a private array
* `storage_amendAlong` — along a path, every array does that is private where the path comes to it
* `amend_stays_iff_sole` — an amend through a register copies just what has other handles
-/

namespace SharedArrays

/-! ## Counting handles -/

theorem eraseDups_of_forall_eq {α : Type} [BEq α] [LawfulBEq α] {e : α} {xs : List α} (he : e ∈ xs)
    (hall : ∀ x ∈ xs, x = e) : xs.eraseDups = [e] := by
  cases xs with
  | nil => cases he
  | cons x xs =>
    obtain ⟨rfl, hall⟩ := List.forall_mem_cons.1 hall
    have hrest : (xs.filter fun y => !y == x) = [] :=
      List.filter_eq_nil_iff.2 fun y hy => by simp [hall y hy]
    rw [List.eraseDups_cons, hrest, List.eraseDups_nil]

section Count

variable {st : Store} {a : Arr Value} {others : List Value}

/-- An array does not lie in its own buffer, so that just its own handle is on the buffer. -/
theorem eq_of_mem_arrHandles {p : Place} {h : Handle} (ha : LiesIn st a) (hh : h ∈ a.handles p)
    (hobject : h.object = a.storage) : h = ⟨p, a.storage⟩ := by
  cases a with
  | list w =>
    rcases List.mem_cons.1 hh with rfl | hh
    · rfl
    · obtain ⟨i, v, hv, hh⟩ := mem_handlesOfCells.1 hh
      refine absurd ?_ (not_names_cells ha)
      exact names_iff_exists.2 ⟨v, List.mem_of_getElem? hv, hobject ▸ names_of_mem_handles hh⟩
  | _ w => exact List.mem_singleton.1 hh

/-- The first of several roots has the only handle on its buffer if the others do not hold it. -/
theorem handleCount_eq_one_iff (ha : LiesIn st (.array a : Value)) :
    handleCount (.array a :: others) a.storage = 1 ↔
      others.any (·.holds a.storage) = false := by
  have hown : (⟨.root 0, a.storage⟩ : Handle) ∈
      handleCount.handlesOfRoots 0 (.array a :: others) :=
    List.mem_append_left _ (mem_handles_of_name rfl)
  constructor
  · intro hcount
    refine List.any_eq_false.2 fun v hv hholds => ?_
    -- A handle below another root would sit at another place.
    obtain ⟨m, hm⟩ := List.mem_iff_getElem?.1 hv
    obtain ⟨h, hh, hobject⟩ := exists_handle_of_names (.root (m + 1)) ((holds_iff _ v).1 hholds)
    have hlive : h ∈ handleCount.handlesOfRoots 0 (.array a :: others) :=
      mem_handlesOfRoots.2 ⟨m + 1, v, hm, by rwa [Nat.zero_add]⟩
    have hplace := lone_of_handleCount hcount h hlive _ hown hobject rfl
    rcases v.closedOver_handles _ h hh with hroot | ⟨t, ⟨path, hin⟩, -⟩
    · cases hroot.symm.trans hplace
    · cases hin.symm.trans hplace
  · intro hothers
    have hall : ∀ h ∈ (handleCount.handlesOfRoots 0 (.array a :: others)).filter
        (·.object == a.storage), h = ⟨.root 0, a.storage⟩ := by
      intro h hh
      obtain ⟨hlive, hobject⟩ := List.mem_filter.1 hh
      have hobject : h.object = a.storage := eq_of_beq hobject
      obtain ⟨i, v, hv, hh⟩ := mem_handlesOfRoots.1 hlive
      have hnames : Names a.storage v := hobject ▸ names_of_mem_handles hh
      cases i with
      | zero =>
        cases hv
        exact eq_of_mem_arrHandles ((everywhere_array a).1 ha) hh hobject
      | succ m =>
        have hnot := List.any_eq_false.1 hothers v (List.mem_of_getElem? hv)
        exact absurd ((holds_iff _ v).2 hnames) hnot
    have hmem : (⟨.root 0, a.storage⟩ : Handle) ∈ (handleCount.handlesOfRoots 0
        (.array a :: others)).filter (·.object == a.storage) :=
      List.mem_filter.2 ⟨hown, beq_self_eq_true _⟩
    rw [handleCount, eraseDups_of_forall_eq hmem hall]
    rfl

/-- The question for the number of handles has the answer that the surroundings give. -/
theorem isSole_eq_isPrivate {c : Scope} (ha : LiesIn st (.array a : Value)) :
    (Value.array a).isSole (.array a :: c.held) = a.isPrivate c := by
  have hcount : (handleCount (.array a :: c.held) a.storage == 1) = !c.holds a.storage := by
    rw [Bool.eq_iff_iff, beq_iff_eq, handleCount_eq_one_iff ha, Bool.not_eq_true']
    rfl
  show (!a.flags.pinned && _) = _
  rw [hcount]
  cases a <;> rfl

end Count

/-! ## Writes -/

/-- The values that steps write to a list, up to the first step that fails. -/
def stepWrites : List Step → List Value → List Value
  | [], _ => []
  | s :: rest, vs =>
    match vs[s.position]? with
    | none => []
    | some old =>
      match s.run old with
      | .error _ => []
      | .ok new => new :: stepWrites rest (vs.set s.position new)

/-- The values that an amend of the array writes, when it makes its objects at `s`. -/
def Arr.amendWrites (settings : Settings) (s : Site) (a : Arr Value) (y f : Value)
    (z : Option Value) : List Value :=
  match Selection.ofIndex a.len y with
  | .error _ => []
  | .ok sel =>
    match (Callee.ofValue settings f).operands z sel with
    | .error _ => []
    | .ok operands => stepWrites (Arr.steps ⟨[], s⟩ (.ofValue settings f) operands sel) a.values

/-- The array `b` is what writes make of `a` that its variant can store: it is on the buffer of `a`
if that array is private, and on a new one otherwise. -/
structure Arr.Overwritten (c : Scope) (a b : Arr Value) : Prop where
  kind : b.kind = a.kind
  flags : b.flags = {}
  storage : b.storage = if a.isPrivate c then a.storage else c.site

section Overwritten

variable {c : Scope} {a b e : Arr Value}

theorem isPrivate_eq (c : Scope) (a : Arr Value) :
    a.isPrivate c = (!a.flags.pinned && !c.holds a.storage) := by
  cases a <;> rfl

theorem storage_arrMakePrivate (c : Scope) (a : Arr Value) :
    (a.makePrivate c).storage = if a.isPrivate c then a.storage else c.site := by
  have hwindow {α : Type} (w : Window α) :
      (w.makePrivate c).storage = if w.isPrivate c then w.storage else c.site := by
    unfold Window.makePrivate
    split <;> rfl
  cases a <;> exact hwindow _

theorem storage_of_store {edit : ∀ {β : Type}, Window β → β → Window β} {v : Value}
    (hedit : ∀ {β : Type} (w : Window β) (x : β), (edit w x).storage = (w.makePrivate c).storage)
    (h : a.store edit v = .ok b) : b.storage = (a.makePrivate c).storage := by
  unfold Arr.store at h
  split at h
  · split at h <;> cases h
    exact hedit _ _
  all_goals cases h
  all_goals exact hedit _ _

theorem overwritten_put {v : Value} (hv : a.canStore v = true) (i : Nat) :
    a.Overwritten c (a.put c i v) := by
  refine ⟨by rw [Arr.kind_put, if_pos hv], Arr.flags_put .., ?_⟩
  obtain ⟨b, hb⟩ := (Arr.canStore_iff (fun w x => w.write c i x) a v).1 hv
  have hput : a.put c i v = b := by rw [Arr.put, Arr.set, hb]
  rw [hput, ← storage_arrMakePrivate]
  refine storage_of_store (fun w x => ?_) hb
  rfl

/-- What has been overwritten is private, if the new buffer is not held. -/
theorem Arr.Overwritten.isPrivate (h : a.Overwritten c b)
    (hfresh : a.isPrivate c = false → c.holds c.site = false) : b.isPrivate c = true := by
  rw [isPrivate_eq, h.flags, h.storage]
  cases hprivate : a.isPrivate c with
  | true =>
    rw [isPrivate_eq] at hprivate
    exact (Bool.and_eq_true_iff.1 hprivate).2
  | false => rw [if_neg Bool.false_ne_true, hfresh hprivate]; rfl

theorem Arr.Overwritten.trans (h : a.Overwritten c b) (h' : b.Overwritten c e)
    (hfresh : a.isPrivate c = false → c.holds c.site = false) : a.Overwritten c e := by
  refine ⟨h'.kind.trans h.kind, h'.flags, ?_⟩
  rw [h'.storage, h.isPrivate hfresh, if_pos rfl, h.storage]

theorem canStore_of_kind (h : a.kind = b.kind) (v : Value) : a.canStore v = b.canStore v := by
  cases a <;> cases b <;> cases h <;> cases v <;> rfl

/-- Steps whose values the variant stores leave the array as it is, if nothing is written, and
overwrite it otherwise, whether or not a step fails. -/
theorem overwritten_runSteps (steps : List Step)
    (hfresh : a.isPrivate c = false → c.holds c.site = false)
    (hstores : ∀ v ∈ stepWrites steps a.values, a.canStore v = true) :
    (stepWrites steps a.values = [] → (a.runSteps c steps).slot = a) ∧
      (stepWrites steps a.values ≠ [] → a.Overwritten c (a.runSteps c steps).slot) := by
  induction steps generalizing a with
  | nil => exact ⟨fun _ => rfl, fun h => absurd rfl h⟩
  | cons s steps ih =>
    simp only [stepWrites] at hstores ⊢
    simp only [Arr.runSteps, Arr.at?]
    cases hold : a.values[s.position]? with
    | none => exact ⟨fun _ => rfl, fun h => absurd rfl h⟩
    | some old =>
      rw [hold] at hstores
      simp only at hstores ⊢
      cases hnew : s.run old with
      | error e => exact ⟨fun _ => rfl, fun h => absurd rfl h⟩
      | ok new =>
        rw [hnew] at hstores
        simp only at hstores ⊢
        obtain ⟨hnew, hstores⟩ := List.forall_mem_cons.1 hstores
        -- The first write leaves the array private, so that all others stay on its buffer.
        have hput : a.Overwritten c (a.put c s.position new) := overwritten_put hnew _
        have hprivate := hput.isPrivate hfresh
        obtain ⟨hnone, hsome⟩ := @ih (a.put c s.position new)
          (fun h => absurd (hprivate.symm.trans h) Bool.true_eq_false.mp) fun v hv => by
            rw [Arr.values_put] at hv
            rw [canStore_of_kind hput.kind]
            exact hstores v hv
        rw [Arr.values_put] at hnone hsome
        refine ⟨fun h => (List.cons_ne_nil _ _ h).elim, fun _ => ?_⟩
        by_cases hrest : stepWrites steps (a.values.set s.position new) = []
        · rw [hnone hrest]
          exact hput
        · exact hput.trans (hsome hrest) hfresh

end Overwritten

/-! ## An amend of an array -/

section Amend

variable {settings : Settings} {c : Scope} {a : Arr Value} {y f : Value} {z : Option Value}

/-- An amend that writes something is a run of steps, which is brought to canonical storage. -/
theorem amend_eq_revise (ha : WellFormed a) (hz : WellFormed z) {sel : Selection}
    {operands : Operands} (hsel : Selection.ofIndex a.len y = .ok sel)
    (hop : (Callee.ofValue settings f).operands z sel = .ok operands) :
    a.amend settings c y (.ofValue settings f) z =
      a.revise (c.sub 0) (Arr.steps c (.ofValue settings f) operands sel) := by
  have hlist : ∀ w, y ≠ .array (.list w) := by
    rintro w rfl
    cases hsel
  have hlt : ∀ p ∈ sel.positions, p < a.len := fun p hp => Selection.lt_of_ofIndex hsel hp
  rw [Arr.amend, amendFn_of_not_list settings _ hlist, amendAtIndex, hsel]
  simp only
  rw [amendAt_eq_revise settings (real_ofValue settings f) ha hz hlt, hop]

/-- An amend whose values the variant stores leaves the array as it is, if it writes nothing and the
array is private, and overwrites it otherwise. -/
theorem overwritten_amend (ha : WellFormed a) (hz : WellFormed z)
    (hindex : ∀ w, y ≠ .array (.list w))
    (hfresh : a.isPrivate c = false → c.holds (c.sub 0).site = false)
    (hstores : ∀ v ∈ a.amendWrites settings c.site y f z, a.canStore v = true)
    (hkind : a.kind = .list → (a.amend settings c y (.ofValue settings f) z).slot.kind = .list) :
    (a.amendWrites settings c.site y f z = [] → a.isPrivate c = true →
        (a.amend settings c y (.ofValue settings f) z).slot = a) ∧
      (a.amendWrites settings c.site y f z ≠ [] →
        a.Overwritten (c.sub 0) (a.amend settings c y (.ofValue settings f) z).slot) := by
  unfold Arr.amendWrites at hstores ⊢
  cases hsel : Selection.ofIndex a.len y with
  | error e =>
    refine ⟨fun _ _ => ?_, fun h => absurd rfl h⟩
    rw [Arr.amend, amendFn_of_not_list settings _ hindex, amendAtIndex, hsel]
    rfl
  | ok sel =>
    rw [hsel] at hstores
    simp only at hstores ⊢
    cases hop : (Callee.ofValue settings f).operands z sel with
    | error e =>
      refine ⟨fun _ _ => ?_, fun h => absurd rfl h⟩
      rw [Arr.amend, amendFn_of_not_list settings _ hindex, amendAtIndex, hsel]
      simp only [Arr.amendAt, hop]
      rfl
    | ok operands =>
      rw [hop] at hstores
      simp only at hstores ⊢
      rw [amend_eq_revise ha hz hsel hop] at hkind ⊢
      let steps := Arr.steps c (.ofValue settings f) operands sel
      obtain ⟨hnone, hsome⟩ := overwritten_runSteps (c := c.sub 0) steps hfresh hstores
      -- What steps leave is in canonical storage already.
      refine ⟨fun hnil hprivate => ?_, fun hne => ?_⟩
      · have hslot : (a.runSteps (c.sub 0) steps).slot = a := hnone hnil
        rw [isPrivate_eq] at hprivate
        show Arr.canonical _ (a.runSteps (c.sub 0) steps).slot = a
        have hpinned : a.flags.pinned = false := by
          simpa using (Bool.and_eq_true_iff.1 hprivate).1
        have hkind : a.kind = .list → (Arr.canonical _ (a.runSteps (c.sub 0) steps).slot).kind =
          .list := hkind
        rw [hslot] at hkind ⊢
        exact canonical_eq_self hpinned hkind
      · have hover : a.Overwritten (c.sub 0) (a.runSteps (c.sub 0) steps).slot := hsome hne
        show a.Overwritten _ (Arr.canonical _ (a.runSteps (c.sub 0) steps).slot)
        rw [canonical_eq_self]
        · exact hover
        · rw [hover.flags]
        · rw [hover.kind]
          exact hkind

end Amend

/-! ## An amend along a path -/

/-- The site of the `n`-th level of a path through single elements. -/
def Site.down (s : Site) : Nat → Site
  | 0 => s
  | n + 1 => (s.sub 1).down n

/-- The way that integers lead. -/
def wayOf (is : List Int64) : List Part := is.map fun i => .element i.toInt.toNat

/-- An update of a single element of a list. -/
theorem slot_amendElements_one (update : ValueUpdate) (z : Operands) (c : Scope) {w : Window Value}
    {i : Nat} {u : Value} (hu : w.items[i]? = some u) :
    let o := update ((c.sub 1).beside (w.buf.eraseIdx (w.off + i))) u (z.at? 0)
    (amendElements update z c 0 [i] w).slot = { w with buf := w.buf.set (w.off + i) o.slot } := by
  simp only [amendElements, hu]
  split <;> rfl

theorem ofIndex_int_eq_ok {n : Nat} {i : Int64} {sel : Selection}
    (h : Selection.ofIndex n (.int i) = .ok sel) : sel = .one i.toInt.toNat := by
  obtain ⟨p, hp, h⟩ := bind_eq_ok.1 h
  cases h
  unfold position at hp
  split at hp
  · cases hp
    rfl
  · cases hp

section Path

variable {settings : Settings} {f : Value} {st : Store} {roots : List Value}

/-- What an array on the way has to be for the amend to stay on its buffer. -/
theorem Scope.Away.isPrivate {c : Scope} {a : Arr Value} {p : Place} {away : Handle → Prop}
    (h : c.Away (handleCount.handlesOfRoots 0 roots) (.array a) p away)
    (hsole : (Value.array a).isSole roots = true) : a.isPrivate c = true := by
  obtain ⟨hpinned, hcount⟩ := Bool.and_eq_true_iff.1 hsole
  rw [isPrivate_eq, hpinned, h.not_holds rfl (lone_of_handleCount (eq_of_beq hcount))]
  rfl

theorem Scope.Away.sub {c : Scope} {live : List Handle} {v : Value} {p : Place}
    {away : Handle → Prop} (h : c.Away live v p away) (k : Nat) : (c.sub k).Away live v p away :=
  ⟨h.held, h.mem, h.own, h.apart, h.closed⟩

theorem exists_list_of_part? {x u : Value} {i : Nat} (h : x.part? [.element i] = some u) :
    ∃ w, x = .array (.list w) := by
  cases x with
  | array a =>
    cases a with
    | list w => exact ⟨w, rfl⟩
    | _ => cases h
  | _ => cases h

theorem exists_array_of_part? {x : Value} {is : List Int64} {a : Arr Value}
    (h : x.part? (wayOf is) = some (.array a)) : ∃ b, x = .array b := by
  cases is with
  | nil =>
    cases h
    exact ⟨a, rfl⟩
  | cons i is =>
    have hway : wayOf (i :: is) = .element i.toInt.toNat :: wayOf is := rfl
    rw [hway, part?_cons] at h
    obtain ⟨u, hu, -⟩ := Option.bind_eq_some_iff.1 h
    obtain ⟨w, rfl⟩ := exists_list_of_part? hu
    exact ⟨_, rfl⟩

/-- A level of a path at an integer leaves the list as it is, or goes on into the element. -/
theorem slot_amendAlong_int (settings : Settings) (f : Value) (i : Int64) {path : List Value}
    (hpath : path ≠ []) (c : Scope) {w : Window Value} (z : Option Value) {u : Value}
    (hu : w.items[i.toInt.toNat]? = some u) :
    let j := i.toInt.toNat
    let v := w.makePrivate (c.sub 0)
    let o := Value.amendAlong settings (.ofValue settings f) path
      ((c.sub 1).beside (v.buf.eraseIdx (v.off + j))) u z
    let slot := (Value.amendAlong settings (.ofValue settings f) (.int i :: path) c
      (.array (.list w)) z).slot
    slot = .array (.list w) ∨
      ∃ w', slot = .array (.list w') ∧ w'.storage = v.storage ∧
        w'.items = w.items.set j o.slot := by
  intro j v o slot
  obtain ⟨next, rest, rfl⟩ := List.exists_cons_of_ne_nil hpath
  simp only [slot, Value.amendAlong]
  cases hopen : (Arr.list w).openLevel c.site (.int i) (.ofValue settings f) z with
  | error e => exact .inl rfl
  | ok opened =>
    obtain ⟨sel, operands⟩ := opened
    obtain ⟨hsel, hop, -⟩ := Arr.openLevel_eq_ok.1 hopen
    obtain rfl := ofIndex_int_eq_ok hsel
    -- A single element takes the right operand whole.
    have hz : operands.at? 0 = z := by
      rw [operands_ofValue] at hop
      split at hop
      · cases hop
        cases z <;> rfl
      · cases hop
    have hitems : v.items = w.items := Window.items_makePrivate (c.sub 0) w
    have hv : v.items[j]? = some u := hitems ▸ hu
    have hone := slot_amendElements_one
      (Value.amendAlong settings (.ofValue settings f) (next :: rest)) operands c hv
    rw [hz] at hone
    refine .inr ⟨_, congrArg (fun w => Value.array (.list w)) hone, rfl, ?_⟩
    rw [← hitems]
    exact stretch_set ..

/-- Along a path of integers through arrays that are sole handles, all of them stay on their
buffers, if the last one does. The induction is on the path; each list that it leads through is
private where the path comes to it, since its one handle is on the way. -/
theorem storage_amendAlong {is : List Int64} {last : Value} {c : Scope} {x : Value} {p : Place}
    {away : Handle → Prop} {z : Option Value} {a : Arr Value}
    (h : c.Away (handleCount.handlesOfRoots 0 roots) x p away) (hx : LiesIn st x)
    (hwf : WellFormed x) (hz : WellFormed z) (hindex : ∀ w, last ≠ .array (.list w))
    (ha : x.part? (wayOf is) = some (.array a))
    (hsole : ∀ ps b, ps <+: wayOf is → x.part? ps = some (.array b) →
      (Value.array b).isSole roots = true)
    (hstores : ∀ v ∈ a.amendWrites settings (c.site.down is.length) last f z,
      a.canStore v = true) :
    let o := Value.amendAlong settings (.ofValue settings f) (is.map .int ++ [last]) c x z
    (a.kind = .list → ∀ b, o.slot.part? (wayOf is) = some (.array b) → b.kind = .list) →
      ∀ ps b, ps <+: wayOf is → x.part? ps = some (.array b) →
        ∃ b', o.slot.part? ps = some (.array b') ∧ b'.storage = b.storage := by
  induction is generalizing c x p away with
  | nil =>
    intro o hkind ps b hps hb
    cases ha
    obtain rfl : ps = [] := List.prefix_nil.1 hps
    cases hb
    have hprivate := h.isPrivate (hsole [] a (List.nil_prefix ..) rfl)
    have hwf : WellFormed a := (everywhere_array a).1 hwf
    obtain ⟨hnone, hsome⟩ := overwritten_amend (c := c) hwf hz hindex
      (fun hnot => absurd (hprivate.symm.trans hnot) Bool.true_eq_false.mp) hstores
      fun hlist => hkind hlist _ rfl
    refine ⟨(a.amend settings c last (.ofValue settings f) z).slot, rfl, ?_⟩
    by_cases hwrites : a.amendWrites settings c.site last f z = []
    · rw [hnone hwrites hprivate]
    · rw [(hsome hwrites).storage]
      exact if_pos hprivate
  | cons i is ih =>
    intro o hkind ps b hps hb
    let j := i.toInt.toNat
    -- The path leads through a list, to an element that is an array.
    have hway : wayOf (i :: is) = .element j :: wayOf is := rfl
    rw [hway, part?_cons] at ha
    obtain ⟨u, hu, hua⟩ := Option.bind_eq_some_iff.1 ha
    obtain ⟨w, rfl⟩ := exists_list_of_part? hu
    have hitem : w.items[j]? = some u := part?_element.1 hu
    obtain ⟨e, rfl⟩ := exists_array_of_part? hua
    have hprivate := h.isPrivate (hsole [] _ (List.nil_prefix ..) rfl)
    have hv : w.makePrivate (c.sub 0) = { w with flags := {} } := if_pos hprivate
    obtain ⟨-, hcells⟩ := (everywhere_list w).1 hwf
    have hcell := getElem?_buf_of_items hitem
    obtain ⟨away', haway⟩ := (h.sub 1).enterCell hx
      (lone_of_handleCount (eq_of_beq (Bool.and_eq_true_iff.1 (hsole [] _ List.nil_prefix rfl)).2))
      hcell
    have hlies : LiesIn st (Value.array e) :=
      everywhere_iff_forall.1 ((everywhere_list w).1 hx).2 _ (List.mem_of_getElem? hcell)
    have hinner := ih haway hlies
      (everywhere_iff_forall.1 hcells _ (List.mem_of_getElem? hcell)) hua
      (fun ps b hps hb => hsole (.element j :: ps) b ((List.prefix_cons_inj _).2 hps) (by
        rw [part?_cons, hu]
        exact hb)) hstores
    have hpath : is.map Value.int ++ [last] ≠ [] := by simp
    let o' := Value.amendAlong settings (.ofValue settings f) (is.map .int ++ [last])
      ((c.sub 1).beside (w.buf.eraseIdx (w.off + j))) (.array e) z
    have hslot : o.slot = .array (.list w) ∨ ∃ w', o.slot = .array (.list w') ∧
        w'.storage = w.storage ∧ w'.items = w.items.set j o'.slot := by
      have hslot := slot_amendAlong_int settings f i hpath c z hitem
      rw [hv] at hslot
      exact hslot
    rcases hslot with hslot | ⟨w', hslot, hstorage, hitems⟩
    · exact ⟨b, (congrArg (·.part? ps) hslot).trans hb, rfl⟩
    -- The list keeps its buffer, and the rest of the way is that of the element.
    · have hpart : o.slot.part? [.element j] = some o'.slot := by
        rw [hslot, part?_element, hitems]
        exact List.getElem?_set_self (List.getElem?_eq_some_iff.1 hitem).1
      cases ps with
      | nil =>
        cases hb
        exact ⟨_, congrArg some hslot, hstorage⟩
      | cons q ps =>
        rw [hway] at hps
        obtain ⟨hq, hrest⟩ := List.cons_prefix_cons.1 hps
        subst hq
        rw [part?_cons, hu] at hb
        rw [part?_cons, hpart]
        refine hinner (fun hlist b' hb' => hkind hlist b' ?_) ps b hrest hb
        rw [hway, part?_cons, hpart]
        exact hb'

end Path

/-! ## Amends through a register -/

/-- The first and the only handle on a buffer: the array at a root, beside roots that do not hold
it. -/
theorem isSole_of_not_holds {st : Store} {a : Arr Value} {others : List Value}
    (ha : LiesIn st (.array a : Value)) (hpinned : a.flags.pinned = false)
    (hothers : others.any (·.holds a.storage) = false) :
    (Value.array a).isSole (.array a :: others) = true := by
  have hcount := (handleCount_eq_one_iff ha).2 hothers
  show (!a.flags.pinned && handleCount _ a.storage == 1) = true
  rw [hpinned, hcount]
  rfl

/-- What is at the root `x` sits away from the other roots. -/
theorem away_root (x : Value) (c : Scope) :
    c.Away (handleCount.handlesOfRoots 0 (x :: c.held)) x (.root 0)
      fun h => ∃ (m : Nat) (v : Value), c.held[m]? = some v ∧ h ∈ v.handles (.root (m + 1)) := by
  constructor
  · intro t ht
    obtain ⟨v, hv, ht⟩ := List.any_eq_true.1 ht
    obtain ⟨m, hm⟩ := List.mem_iff_getElem?.1 hv
    obtain ⟨h, hh, hobject⟩ := exists_handle_of_names (.root (m + 1)) ((holds_iff t v).1 ht)
    exact ⟨h, ⟨m, v, hm, hh⟩, hobject⟩
  · rintro h ⟨m, v, hm, hh⟩
    exact mem_handlesOfRoots.2 ⟨m + 1, v, hm, by rwa [Nat.zero_add]⟩
  · exact fun h hh => List.mem_append_left _ hh
  · rintro h ⟨m, v, hm, hh⟩ heq
    rcases v.closedOver_handles _ h hh with hroot | ⟨t, ⟨path, hin⟩, -⟩
    · cases hroot.symm.trans heq
    · cases hin.symm.trans heq
  · rintro h ⟨m, v, hm, hh⟩ t ⟨path, ht⟩
    rcases v.closedOver_handles _ h hh with hroot | ⟨t', ⟨path', hin⟩, h', hh', hobject⟩
    · cases hroot.symm.trans ht
    · cases hin.symm.trans ht
      exact .inr ⟨h', ⟨m, v, hm, hh'⟩, hobject⟩

section Session

variable {σ : Session} {name : String} {registers : Registers} {n : Nat} {x : Value}

/-- A change whose operands can be read and that can be carried out makes a step. -/
theorem Session.step_change_eq {change : Change Term} {change' : Change Value} {x' : Value}
    {answer : Result Answer}
    (hread : (change.mapM (Reading.operand σ.site)).run (σ.registers, 1) =
      .ok (change', registers, n))
    (hx : registers.get? name = some x)
    (hrun : change'.run σ.settings
      ⟨(registers.erase name).contents ++ change'.operands, σ.site.sub 0⟩ x = .ok (x', answer)) :
    σ.step (.change name change) =
      .ok ({ σ with registers := (registers.erase name).set name x', steps := σ.steps + 1 },
        ⟨answer, some x'⟩) := by
  unfold Session.step
  simp only
  rw [show Site.step σ.steps = σ.site from rfl, hread]
  simp only [hx, bind, Except.bind, pure, Except.pure]
  rw [hrun]

theorem contents_set_erase (registers : Registers) (name : String) (v : Value) :
    ((registers.erase name).set name v).contents = v :: (registers.erase name).contents := by
  simp [Registers.set, Registers.erase, Registers.contents]

/-- An index at which something is written is no list of indices. -/
theorem index_of_amendWrites {settings : Settings} {s : Site} {a : Arr Value} {y f : Value}
    {z : Option Value} (h : a.amendWrites settings s y f z ≠ []) :
    ∀ w, y ≠ .array (.list w) := by
  rintro w rfl
  exact h rfl

/-- An amend through the register `name` begins: its operands have been read, the register has the
content `x`, and the other registers have the contents `others`. -/
def Session.Begins (σ : Session) (name : String) (form : Form) (y f : Term) (z : Option Term)
    (x y' f' : Value) (z' : Option Value) (others : List Value) : Prop :=
  ∃ registers n, ((Change.amend form y f z).mapM (Reading.operand σ.site)).run (σ.registers, 1) =
      .ok (.amend form y' f' z', registers, n) ∧
    registers.get? name = some x ∧ others = (registers.erase name).contents

/-- A flat amend of an array in a register, at nil, an integer or a vector of them, which writes
something, and only what the array can store, stays on its buffer just if the register had the only
handle on it, those of the operands counted. In any case the register is afterwards the only handle
on its buffer, without flags. An amend along a path of integers through arrays that are the only
handles on their buffers leaves all of them there. Neither depends on whether the amend fails. -/
theorem amend_stays_iff_sole {form : Form} {y f : Term} {z : Option Term} {y' f' : Value}
    {z' : Option Value} {others : List Value} (h : σ.Reachable)
    (hbegins : σ.Begins name form y f z x y' f' z' others) :
    let held := others ++ (y' :: f' :: z'.toList)
    let s := σ.site.sub 0
    ∃ σ' reply x', σ.step (.change name (.amend form y f z)) = .ok (σ', reply) ∧
      σ'.registers.get? name = some x' ∧ σ'.registers.contents = x' :: others ∧
      (form = .flat → ∀ a, x = .array a → ∃ b, x' = .array b ∧
        let writes := a.amendWrites σ.settings s y' f' z'
        (writes ≠ [] → (∀ v ∈ writes, a.canStore v = true) → (a.kind = .list → b.kind = .list) →
          (b.storage = a.storage ↔ x.isSole (x :: held) = true) ∧
            x'.isSole σ'.registers.contents = true ∧ b.flags = {})) ∧
      (form = .path → ∀ is last a, y'.components = is.map .int ++ [last] →
        (∀ w, last ≠ .array (.list w)) → x.part? (wayOf is) = some (.array a) →
        (∀ ps b, ps <+: wayOf is → x.part? ps = some (.array b) →
          (Value.array b).isSole (x :: held) = true) →
        (∀ v ∈ a.amendWrites σ.settings (s.down is.length) last f' z', a.canStore v = true) →
        (a.kind = .list → ∀ b, x'.part? (wayOf is) = some (.array b) → b.kind = .list) →
        ∀ ps b, ps <+: wayOf is → x.part? ps = some (.array b) →
          ∃ b', x'.part? ps = some (.array b') ∧ b'.storage = b.storage) := by
  intro held s
  obtain ⟨registers, n, hread, hx, rfl⟩ := hbegins
  obtain ⟨st, hσ⟩ := h.exists_backed
  have hready := hσ.ready (takes_change σ.site (.amend form y f z)) hread
  obtain ⟨hwithin, -, hoperands⟩ := (takes_change σ.site (.amend form y f z)).made hread
  have hwfx : WellFormed x := Registers.everywhere_get? (hwithin.everywhere h.wellFormed) hx
  obtain ⟨-, hwf⟩ := (everywhere_cons ..).1 (hoperands h.wellFormed)
  have hwfz : WellFormed z' := everywhere_toList.1 ((everywhere_cons ..).1 hwf).2
  let c : Scope := ⟨held, s⟩
  let o := x.amendSlot σ.settings form c y' f' z'
  have hrun : (Change.amend form y' f' z').run σ.settings c x =
      .ok (o.slot, o.toResult.map fun _ => .nothing) := rfl
  obtain ⟨hslot, hheld⟩ := (everywhere_cons ..).1 (hready.liesIn_slot hx)
  have hafter := ((everywhere_pair ..).1 (hready.change hx hrun).1.written).1
  have hcontents := contents_set_erase registers name o.slot
  refine ⟨_, _, o.slot, Session.step_change_eq hread hx hrun, Registers.get?_set .., hcontents,
    ?_, ?_⟩
  · rintro rfl a rfl
    refine ⟨(a.amend σ.settings c y' (.ofValue σ.settings f') z').slot, rfl,
      fun hwrites hstores hkind => ?_⟩
    -- The step makes its objects at sites that nothing is on.
    have hfree := hready.command (s.sub 0) (s.covers_sub 0)
    have hfresh : a.isPrivate c = false → c.holds (c.sub 0).site = false :=
      fun _ => not_holds_of_none hheld hfree
    have hover := (overwritten_amend ((everywhere_array a).1 hwfx) hwfz
      (index_of_amendWrites hwrites) hfresh hstores hkind).2 hwrites
    have hsole : (Value.array a).isSole (.array a :: held) = a.isPrivate c :=
      isSole_eq_isPrivate (c := c) hslot
    refine ⟨?_, ?_, hover.flags⟩
    · rw [hsole, hover.storage]
      show (if a.isPrivate c = true then a.storage else s.sub 0) = a.storage ↔ _
      have hne : s.sub 0 ≠ a.storage := fun heq =>
        LiesIn.ne_none hslot (names_of_name rfl) (heq ▸ hfree)
      split
      · exact iff_of_true rfl ‹_›
      · exact iff_of_false hne ‹_›
    · rw [hcontents]
      have hprivate := hover.isPrivate hfresh
      rw [isPrivate_eq, Bool.and_eq_true_iff, Bool.not_eq_true', Bool.not_eq_true'] at hprivate
      have hothers := hprivate.2
      rw [Scope.holds, Scope.sub, List.any_append, Bool.or_eq_false_iff] at hothers
      exact isSole_of_not_holds hafter hprivate.1 hothers.1
  · rintro rfl is last a hpath hindex ha hsole hstores hkind
    have hslot_eq : o.slot = (x.amendPath σ.settings c y' (.ofValue σ.settings f') z').slot := rfl
    rw [Value.amendPath, hpath] at hslot_eq
    split at hslot_eq
    · exact fun ps b _ hb => ⟨b, by rw [hslot_eq]; exact hb, rfl⟩
    · rw [hslot_eq] at hkind ⊢
      exact storage_amendAlong (away_root x c) hslot hwfx hwfz hindex ha hsole hstores hkind

/-- The first array has a second handle, and is copied. The second one lies in a list; both stay
where they are. -/
theorem amend_stays_iff_sole_runs :
    (∃ σ₁ σ₂ σ₃ reply₁ reply₂ reply₃ a b,
      ({} : Session).step (.produce (.value (.ints {} [1, 2, 3])) (some "r")) =
        .ok (σ₁, reply₁) ∧
      σ₁.step (.produce (.value (.ref "r")) (some "s")) = .ok (σ₂, reply₂) ∧ σ₂.Reachable ∧
      σ₂.registers.get? "r" = some (.array a) ∧
      σ₂.step (.change "r" (.amend .flat (.int 1) (.builtin .add) (some (.int 5)))) =
        .ok (σ₃, reply₃) ∧
      σ₃.registers.get? "r" = some (.array b) ∧ b.storage ≠ a.storage ∧
      (Value.array b).isSole σ₃.registers.contents = true ∧ b.flags = {}) ∧
    ∃ σ₁ σ₂ reply₁ reply₂ a b a' b',
      ({} : Session).step (.produce (.value (.list {} [.str "x", .ints {} [1, 2]])) (some "r")) =
        .ok (σ₁, reply₁) ∧ σ₁.Reachable ∧
      σ₁.registers.locate ⟨"r", []⟩ = .ok (.array a) ∧
      σ₁.registers.locate ⟨"r", [.element 1]⟩ = .ok (.array b) ∧
      σ₁.step (.change "r" (.amend .path (.ints {} [1, 0]) (.builtin .subtract) none)) =
        .ok (σ₂, reply₂) ∧
      σ₂.registers.locate ⟨"r", []⟩ = .ok (.array a') ∧ a'.storage = a.storage ∧
      σ₂.registers.locate ⟨"r", [.element 1]⟩ = .ok (.array b') ∧ b'.storage = b.storage := by
  constructor
  · have hfirst : Session.step {} (.produce (.value (.ints {} [1, 2, 3])) (some "r")) =
      .ok (_, _) := rfl
    have hreachable := Session.Reachable.step (.step (.start {}) hfirst)
      (show Session.step _ (.produce (.value (.ref "r")) (some "s")) = .ok (_, _) from rfl)
    obtain ⟨σ₃, reply₃, x', hstep, hget, -, hflat, -⟩ :=
      @amend_stays_iff_sole _ "r" _ .flat (.int 1) (.builtin .add) (some (.int 5)) _ _ _ _
        hreachable ⟨_, _, rfl, rfl, rfl⟩
    obtain ⟨b, rfl, hb⟩ := hflat rfl _ rfl
    obtain ⟨hiff, hsole, hflags⟩ := hb (List.cons_ne_nil _ _) (by decide) nofun
    refine ⟨_, _, _, _, _, _, _, _, rfl, rfl, hreachable, rfl, hstep, hget, ?_, hsole, hflags⟩
    exact fun heq => absurd (hiff.1 heq) (by decide)
  · have hfirst : Session.step {}
      (.produce (.value (.list {} [.str "x", .ints {} [1, 2]])) (some "r")) = .ok (_, _) := rfl
    have hreachable := Session.Reachable.step (.start {}) hfirst
    obtain ⟨σ₂, reply₂, x', hstep, hget, -, -, hpath⟩ :=
      @amend_stays_iff_sole _ "r" _ .path (.ints {} [1, 0]) (.builtin .subtract) none _ _ _ _
        hreachable ⟨_, _, rfl, rfl, rfl⟩
    have hstays := hpath rfl [1] (.int 0) _ rfl nofun rfl (fun ps b hps hb => by
      cases ps with
      | nil =>
        cases hb
        decide
      | cons p ps =>
        obtain ⟨hp, hrest⟩ := List.cons_prefix_cons.1 hps
        cases hp
        cases List.prefix_nil.1 hrest
        cases hb
        decide) (by decide) nofun
    obtain ⟨a', ha', hstorage⟩ := hstays [] _ List.nil_prefix rfl
    obtain ⟨b', hb', hstorage'⟩ := hstays [.element 1] _ List.prefix_rfl rfl
    exact ⟨_, _, _, _, _, _, a', b', rfl, hreachable, rfl, rfl, hstep,
      locate_eq_ok.2 ⟨x', hget, ha'⟩, hstorage, locate_eq_ok.2 ⟨x', hget, hb'⟩, hstorage'⟩

end Session

end SharedArrays
