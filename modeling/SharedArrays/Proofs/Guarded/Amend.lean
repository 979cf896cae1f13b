import SharedArrays.Proofs.Guarded.Operators

/-!
# Accesses with guards: amends

The twins of amends at resolved positions, at indices, of dictionaries and along paths. Positions
are resolved once and used later, when the array may have moved to another buffer or to another
variant, and when missing keys have been appended. They are still in range, since no write changes
the number of elements, and appending adds as many values as the placement has counted on.

Below a level of a path there has to be a list: the elements of an array that is no list cannot be
amended where they are, and the twin stops there.

## Main definitions

* `Guarded.Callee` — a callee whose calls can stop
* `Guarded.amendAt`, `Guarded.amendFn`, `Guarded.amend`, `Guarded.amendAlong` — amends

## Main results

* `guarded_amendAt`, `guarded_amendFn` — amends of arrays do not stop
* `guarded_dictAmend`, `guarded_amendAlong`, `guarded_amendBy` — amends of values do not stop
-/

namespace SharedArrays

namespace Guarded

/-- A callee, with the twin of its calls. -/
structure Callee extends SharedArrays.Callee where
  guardedCall : Site → List Value → Guarded Value

/-! ## Arrays -/

/-- The steps of an update at the positions of a selection. -/
def steps (c : Scope) (f : Callee) (z : Operands) (sel : Selection) : List Step :=
  sel.positions.zipIdx.map fun (i, k) =>
    ⟨i, fun old => do
      let operand ← reached (operandAt z k)
      f.guardedCall (c.site.sub (k + 1)) (old :: operand.toList)⟩

/-- An amend at resolved positions. -/
def amendAt (settings : Settings) (c : Scope) (a : Arr Value) (sel : Selection) (f : Callee)
    (z : Option Value) : Option (Outcome (Arr Value)) :=
  match f.operands z sel with
  | .error e => some (.failed a e)
  | .ok operands => do
    let loop ← if settings.typedLoops then
      loop? (c.sub 0) f.value sel.positions operands a else some none
    match loop with
    | some b => return .done b
    | none => revise (c.sub 0) (steps c f operands sel) a

/-- An amend of an array that waits for its surroundings, the array and the right operand. -/
abbrev ArrUpdate := Scope → Arr Value → Option Value → Option (Outcome (Arr Value))

/-- Amends the array once for each update, up to the first that fails. -/
def amendInTurn (z : Operands) (c : Scope) (k : Nat) :
    List ArrUpdate → Arr Value → Option (Outcome (Arr Value))
  | [], a => some (.done a)
  | update :: rest, a => do
    let operand ← operandAt z k
    match ← update (c.sub k) a operand with
    | ⟨b, some e⟩ => return .failed b e
    | ⟨b, none⟩ => amendInTurn z c (k + 1) rest b

/-- The amend of arrays at an index that is no list of indices. -/
def amendAtIndex (settings : Settings) (f : Callee) (y : Value) : ArrUpdate := fun c a z =>
  match Selection.ofIndex a.len y with
  | .error e => some (.failed a e)
  | .ok sel => amendAt settings c a sel f z

mutual

/-- The amend of arrays at an index. -/
def amendFn (settings : Settings) (f : Callee) : Value → ArrUpdate
  | .array a => amendArrFn settings f a
  | y => amendAtIndex settings f y

/-- The amend of arrays at an index that is an array. -/
def amendArrFn (settings : Settings) (f : Callee) : Arr Value → ArrUpdate
  | .list ⟨_, buf, off, len, _⟩ => fun c a z =>
    match Operands.forMany len z with
    | .error e => some (.failed a e)
    | .ok operands => amendInTurn operands c 0 (stretch off len (amendFns settings f buf)) a
  | y => amendAtIndex settings f (.array y)

/-- The amends of arrays at the elements of a buffer. -/
def amendFns (settings : Settings) (f : Callee) : List Value → List ArrUpdate
  | [] => []
  | y :: ys => amendFn settings f y :: amendFns settings f ys

end

/-! ## Dictionaries and paths -/

/-- The dictionary `d` amended at the keys `y`. -/
def dictAmend (settings : Settings) (c : Scope) (d : Dict Value) (y : Value) (f : Callee)
    (z : Option Value) : Option (Outcome (Dict Value)) :=
  let plan := d.placement settings y
  match f.operands z plan.selection with
  | .error e => some (.failed d e)
  | .ok _ => do
    let d := d.appendKeys (c.sub 0) plan.missing
    let o ← amendAt settings ((c.sub 1).beside [.array d.keys]) d.vals plan.selection f z
    return o.map (⟨d.keys, ·⟩)

/-- The value `x` amended at `y`. -/
def amend (settings : Settings) (c : Scope) (x y : Value) (f : Callee) (z : Option Value) :
    Option (Outcome Value) :=
  match x with
  | .array a => do
    let o ← amendFn settings f y c a z
    return o.map .array
  | .dict s d => do
    let o ← dictAmend settings c d y f z
    return o.map (.dict (c.own s))
  | x => some (.failed x (.type "array or dict" x.typeName))

/-- An update of a value that waits for its surroundings, the value and the right operand. -/
abbrev ValueUpdate := Scope → Value → Option Value → Option (Outcome Value)

/-- Updates the elements at the given positions in order, up to the first that fails. -/
def amendElements (update : ValueUpdate) (z : Operands) (c : Scope) (k : Nat) :
    List Nat → Window Value → Option (Outcome (Window Value))
  | [], w => some (.done w)
  | i :: rest, w => do
    let slot ← provided ((Arr.list w).Reaches i) w.items[i]?
    let old ← slot
    let operand ← operandAt z k
    let o ← update ((c.sub (k + 1)).beside (w.buf.eraseIdx (w.off + i))) old operand
    let w := { w with buf := w.buf.set (w.off + i) o.slot }
    match o.failure with
    | some e => return .failed w e
    | none => amendElements update z c (k + 1) rest w

/-- Updates the elements of a list at the given positions. Another array has no elements to hand
out. -/
def arrAmendElements (update : ValueUpdate) (z : Operands) (c : Scope) (ps : List Nat) :
    Arr Value → Option (Outcome (Arr Value))
  | .list w => do
    let o ← amendElements update z c 0 ps (w.makePrivate (c.sub 0))
    return o.map .list
  | _ => none

/-- The value amended along the components of a path. -/
def amendAlong (settings : Settings) (f : Callee) : List Value → ValueUpdate
  | [], c, x, z => do
    match ← (f.guardedCall c.site (x :: z.toList)).run with
    | .ok v => return .done v
    | .error e => return .failed x e
  | [y], c, x, z => amend settings c x y f z
  | y :: next :: rest, c, x, z =>
    match x with
    | .array a =>
      match a.openLevel c.site y f.toCallee z with
      | .error e => some (.failed x e)
      | .ok (sel, operands) =>
        if sel.positions.isEmpty then some (.done x)
        else do
          let o ← arrAmendElements (amendAlong settings f (next :: rest)) operands c sel.positions a
          return o.map .array
    | .dict s d =>
      let plan := d.placement settings y
      match d.openLevel c.site plan f.toCallee z with
      | .error e => some (.failed x e)
      | .ok operands =>
        if plan.selection.positions.isEmpty then some (.done x)
        else do
          let d := d.appendKeys (c.sub 0) plan.missing
          let o ← arrAmendElements (amendAlong settings f (next :: rest)) operands
            ((c.sub 1).beside [.array d.keys]) plan.selection.positions d.vals
          return o.map fun vals => .dict (c.own s) ⟨d.keys, vals⟩
    | x => some (.failed x (.type "array or dict" x.typeName))

/-- The value `x` amended along the path. -/
def amendPath (settings : Settings) (c : Scope) (x path : Value) (f : Callee)
    (z : Option Value) : Option (Outcome Value) :=
  let components := path.components
  if settings.pathLimit < components.length then
    some <| .failed x <| (Failure.domain
      s!"path of length {components.length} exceeds max depth {settings.pathLimit}").advising
        "raise KAPPA_MAX_DEPTH"
  else amendAlong settings f components c x z

/-- The value `x` amended at the index or along the path `y`. A failure names the amend. -/
def amendBy (settings : Settings) (form : Form) (c : Scope) (x y : Value) (f : Callee)
    (z : Option Value) : Option (Outcome Value) := do
  let o ← match form with
    | .flat => amend settings c x y f z
    | .path => amendPath settings c x y f z
  return ⟨o.slot, o.failure.map (·.during (amendText form.symbol f.value z.isSome))⟩

/-- The twin of the calls answers what the calls answer. -/
structure Callee.Agrees (f : Callee) : Prop where
  safe : f.Safe
  call : ∀ s args, WellFormed args → f.guardedCall s args = .of (f.call s args)

end Guarded

variable {settings : Settings} {f : Guarded.Callee}

/-! ## Amends of arrays do not stop -/

/-- Wherever an array stands when its turn comes, positions that were in range at the start are in
range. -/
theorem guarded_amendAt (h : f.Agrees) {c : Scope} {a : Arr Value} {sel : Selection}
    {z : Option Value} (ha : WellFormed a) (hz : WellFormed z)
    (hlt : ∀ p ∈ sel.positions, p < a.len) :
    Guarded.amendAt settings c a sel f z = some (a.amendAt settings c sel f.toCallee z) := by
  have hoperands := everywhere_operands f.toCallee sel hz
  unfold Guarded.amendAt Arr.amendAt
  cases hop : f.operands z sel with
  | error e => rfl
  | ok operands =>
    rw [hop] at hoperands
    have hcovers := covers_of_operands hz hop
    have hargs {e : Nat × Nat} {v : Value} (hv : WellFormed v) :
        WellFormed (v :: (operands.at? e.2).toList) :=
      (everywhere_cons ..).2 ⟨hv, everywhere_toList.2 (Operands.everywhere_at? hoperands e.2)⟩
    have hrevise : Guarded.revise (c.sub 0) (Guarded.steps c f operands sel) a =
        some (a.revise (c.sub 0) (Arr.steps c f.toCallee operands sel)) := by
      refine guarded_revise ha (fun _ _ => rfl)
        (fun e he => hlt _ (List.fst_mem_of_mem_zipIdx he)) (fun e he v hv => ?_)
        fun e _ v hv => h.safe _ _ (hargs hv)
      have hk : e.2 < sel.positions.length := List.snd_lt_of_mem_zipIdx he
      simp only [guarded_operandAt hcovers hk, reached_some_bind]
      exact h.call _ _ (hargs hv)
    have hloop : Guarded.loop? (c.sub 0) f.value sel.positions operands a =
        some (a.loop? (c.sub 0) f.value sel.positions operands) := guarded_loop? ha hlt hcovers
    simp only [Option.bind_eq_bind, hloop, Option.bind_some]
    split
    · cases a.loop? (c.sub 0) f.value sel.positions operands with
      | some b => rfl
      | none => exact hrevise
    · exact hrevise

theorem guarded_amendAtIndex (h : f.Agrees) {c : Scope} {a : Arr Value} (y : Value)
    {z : Option Value} (ha : WellFormed a) (hz : WellFormed z) :
    Guarded.amendAtIndex settings f y c a z = some (amendAtIndex settings f.toCallee y c a z) := by
  unfold Guarded.amendAtIndex amendAtIndex
  cases hsel : Selection.ofIndex a.len y with
  | error e => rfl
  | ok sel => exact guarded_amendAt h ha hz fun p hp => Selection.lt_of_ofIndex hsel hp

theorem guarded_amendInTurn {ε : Type} {es : List ε} {g : ε → Guarded.ArrUpdate}
    {u : ε → ArrUpdate} {z : Operands} {n : Nat} (hz : WellFormed z) (hcovers : z.Covers n)
    (hsafe : ∀ e ∈ es, (u e).Safe)
    (hu : ∀ e ∈ es, ∀ c a z, WellFormed a → WellFormed z → g e c a z = some (u e c a z))
    {c : Scope} {k : Nat} (hk : k + es.length ≤ n) {a : Arr Value} (ha : WellFormed a) :
    Guarded.amendInTurn z c k (es.map g) a = some (amendInTurn z c k (es.map u) a) := by
  induction es generalizing k a with
  | nil => rfl
  | cons e es ih =>
    obtain ⟨hsafe, hsafes⟩ := List.forall_mem_cons.1 hsafe
    obtain ⟨hu, hus⟩ := List.forall_mem_cons.1 hu
    rw [List.length_cons] at hk
    have hleft := hsafe (c.sub k) a a.len (z.at? k) ⟨ha, rfl⟩ (Operands.everywhere_at? hz k)
    have hstep := hu (c.sub k) a (z.at? k) ha (Operands.everywhere_at? hz k)
    have hoperand : Guarded.operandAt z k = some (z.at? k) := guarded_operandAt hcovers (by omega)
    simp only [List.map_cons, Guarded.amendInTurn, amendInTurn, hoperand, hstep,
      Option.bind_eq_bind, Option.bind_some]
    -- What the first update leaves, whatever it is.
    generalize u e (c.sub k) a (z.at? k) = o at hleft
    obtain ⟨b, failure⟩ := o
    cases failure with
    | some e => rfl
    | none => exact ih hsafes hus (by omega : k + 1 + es.length ≤ n) hleft.1.1

theorem guarded_amendFn_list (w : Window Value) (c : Scope) (a : Arr Value) (z : Option Value) :
    Guarded.amendFn settings f (.array (.list w)) c a z =
      match Operands.forMany w.len z with
      | .error e => some (.failed a e)
      | .ok operands =>
        Guarded.amendInTurn operands c 0 (w.items.map (Guarded.amendFn settings f)) a := by
  have hfns (ys : List Value) :
      Guarded.amendFns settings f ys = ys.map (Guarded.amendFn settings f) := by
    induction ys with
    | nil => rfl
    | cons y ys ih => simp [Guarded.amendFns, ih]
  simp only [Guarded.amendFn, Guarded.amendArrFn, hfns, stretch_map]
  rfl

theorem guarded_amendFn_of_not_list {y : Value} (hy : ∀ w, y ≠ .array (.list w)) :
    Guarded.amendFn settings f y = Guarded.amendAtIndex settings f y := by
  cases y with
  | array a =>
    cases a with
    | list w => exact absurd rfl (hy w)
    | _ => rfl
  | _ => rfl

theorem guarded_amendFn (h : f.Agrees) {y : Value} (hy : WellFormed y) :
    ∀ c a z, WellFormed a → WellFormed z →
      Guarded.amendFn settings f y c a z = some (amendFn settings f.toCallee y c a z) := by
  have atIndex {y : Value} (hy : ∀ w, y ≠ .array (.list w)) : ∀ c a z, WellFormed a →
      WellFormed z →
        Guarded.amendFn settings f y c a z = some (amendFn settings f.toCallee y c a z) := by
    intro c a z ha hz
    rw [guarded_amendFn_of_not_list hy, amendFn_of_not_list settings f.toCallee hy]
    exact guarded_amendAtIndex h y ha hz
  induction y using Value.nest_induction with
  | leaf y hleaf => exact atIndex (by rintro w rfl; cases hleaf)
  | dict s keys vals _ _ => exact atIndex (by rintro w ⟨⟩)
  | error s v _ => exact atIndex (by rintro w ⟨⟩)
  | array y ih =>
    cases y with
    | list w =>
      have hwf : WellFormed (Arr.list w) := (everywhere_array _).1 hy
      have hcells := everywhere_iff_forall.1 (wellFormed_arr.1 hwf).2
      have hlen : w.items.length = w.len := hwf.length_values
      intro c a z ha hz
      have hoperands := everywhere_forMany w.len hz
      rw [guarded_amendFn_list, amendFn_list]
      cases hop : Operands.forMany w.len z with
      | error e => rfl
      | ok operands =>
        rw [hop] at hoperands
        have hcount : 0 + w.items.length ≤ w.len := by omega
        refine guarded_amendInTurn hoperands (covers_forMany hz hop) (fun v hv => ?_)
          (fun v hv => ?_) hcount ha
        · exact safe_amendFn h.safe (hcells v (Window.mem_of_mem_items hv))
        · have hmem := Window.mem_of_mem_items hv
          exact ih v hmem (hcells v hmem)
    | _ => exact atIndex (by rintro w ⟨⟩)

/-! ## Amends of dictionaries and along paths do not stop -/

theorem guarded_dictAmend (h : f.Agrees) {c : Scope} {d : Dict Value} {y : Value}
    {z : Option Value} (hd : d.Paired) (hy : WellFormed y) (hz : WellFormed z) :
    Guarded.dictAmend settings c d y f z = some (d.amend settings c y f.toCallee z) := by
  have hgrown := paired_appendKeys (c := c.sub 0) hd (everywhere_missing settings d hy)
  simp only [Guarded.dictAmend, Dict.amend]
  cases f.operands z (d.placement settings y).selection with
  | error e => rfl
  | ok operands =>
    rw [guarded_amendAt h hgrown.2.2 hz (placement_lt_appendKeys hd hy (c.sub 0))]
    rfl

theorem guarded_amend (h : f.Agrees) {c : Scope} {x y : Value} {z : Option Value}
    (hx : WellFormed x) (hy : WellFormed y) (hz : WellFormed z) :
    Guarded.amend settings c x y f z = some (x.amend settings c y f.toCallee z) := by
  cases x with
  | array a =>
    have ha : WellFormed a := (everywhere_array a).1 hx
    simp only [Guarded.amend, guarded_amendFn h hy c a z ha hz]
    rfl
  | dict s d =>
    have hd : d.Paired := wellFormed_dict.1 hx
    simp only [Guarded.amend, guarded_dictAmend h hd hy hz]
    rfl
  | _ => rfl

theorem guarded_amendElements {g : Guarded.ValueUpdate} {u : ValueUpdate} (hsafe : u.Safe)
    (hu : ∀ c x z, WellFormed x → WellFormed z → g c x z = some (u c x z)) {z : Operands} {n : Nat}
    (hz : WellFormed z) (hcovers : z.Covers n) {c : Scope} {k : Nat} {ps : List Nat}
    (hk : k + ps.length ≤ n) {w : Window Value} (hw : WellFormed (Arr.list w))
    (hlt : ∀ p ∈ ps, p < w.len) :
    Guarded.amendElements g z c k ps w = some (amendElements u z c k ps w) := by
  induction ps generalizing k w with
  | nil => rfl
  | cons i rest ih =>
    obtain ⟨hi, hrest⟩ := List.forall_mem_cons.1 hlt
    rw [List.length_cons] at hk
    obtain ⟨slot, hget⟩ : ∃ slot, w.items[i]? = some slot :=
      ⟨_, List.getElem?_eq_getElem (Nat.lt_of_lt_of_eq hi hw.length_values.symm)⟩
    have hslot : WellFormed slot := everywhere_of_at? hw hget
    have hreaches : (Arr.list w).Reaches i := Arr.reaches_of_lt hw hi
    have hoperand : Guarded.operandAt z k = some (z.at? k) := guarded_operandAt hcovers (by omega)
    have hat := Operands.everywhere_at? hz k
    have ho := hsafe ((c.sub (k + 1)).beside (w.buf.eraseIdx (w.off + i))) slot (z.at? k) hslot hat
    simp only [Guarded.amendElements, amendElements, hget, provided_eq hreaches, hoperand,
      hu _ slot (z.at? k) hslot hat, Option.bind_eq_bind, Option.bind_some]
    -- What the update of the element leaves, whatever it is.
    generalize u _ slot (z.at? k) = o at ho
    obtain ⟨left, failure⟩ := o
    cases failure with
    | some e => rfl
    | none =>
      have hset := wellFormed_setCell hw (w.off + i) (everywhere_outcome.1 ho).1
      exact ih (by omega : k + 1 + rest.length ≤ n) hset hrest

/-- The level that a path has opened is a list, which has its elements where they can be amended. -/
theorem guarded_arrAmendElements {g : Guarded.ValueUpdate} {u : ValueUpdate} (hsafe : u.Safe)
    (hu : ∀ c x z, WellFormed x → WellFormed z → g c x z = some (u c x z)) {z : Operands}
    (hz : WellFormed z) {c : Scope} {ps : List Nat} (hcovers : z.Covers ps.length) {a : Arr Value}
    (ha : WellFormed a) (hlist : a.kind = .list) (hlt : ∀ p ∈ ps, p < a.len) :
    Guarded.arrAmendElements g z c ps a = some (a.amendElements u z c ps) := by
  cases a with
  | list w =>
    have hprivate : WellFormed (Arr.list (w.makePrivate (c.sub 0))) :=
      wellFormed_update (fun w hw _ => hw.makePrivate _) (fun _ _ h => Window.mem_makePrivate h) ha
    have hlen : (w.makePrivate (c.sub 0)).len = w.len :=
      Window.InBounds.len_makePrivate ha.inBounds _
    simp only [Guarded.arrAmendElements]
    have hcount : 0 + ps.length ≤ ps.length := by omega
    rw [guarded_amendElements hsafe hu hz hcovers hcount hprivate fun p hp => hlen ▸ hlt p hp]
    rfl
  | _ => cases hlist

theorem kind_of_ensureContainers {s : Site} {a : Arr Value} {ps : List Nat}
    (h : a.ensureContainers s ps = .ok ()) : a.kind = .list := by
  cases a with
  | list w => rfl
  | _ => cases h

/-- Appended keys leave a list of values a list. -/
theorem kind_vals_appendKeys {c : Scope} {d : Dict Value} {ks : List Value}
    (h : d.vals.kind = .list) : (d.appendKeys c ks).vals.kind = .list := by
  rw [Dict.appendKeys_eq]
  generalize 0 = n
  induction ks generalizing n d with
  | nil => exact h
  | cons k ks ih =>
    refine ih ?_ (n + 1)
    simp only [Dict.appendKey, Arr.kind_push, h, ite_self]

theorem guarded_amendAlong (h : f.Agrees) {path : List Value} (hpath : WellFormed path) :
    ∀ c x z, WellFormed x → WellFormed z →
      Guarded.amendAlong settings f path c x z =
        some (Value.amendAlong settings f.toCallee path c x z) := by
  induction path with
  | nil =>
    intro c x z hx hz
    have hargs : WellFormed (x :: z.toList) := (everywhere_cons ..).2 ⟨hx, everywhere_toList.2 hz⟩
    simp only [Guarded.amendAlong, Value.amendAlong, h.call _ _ hargs, Guarded.run_of,
      Option.bind_eq_bind, Option.bind_some]
    cases f.call c.site (x :: z.toList) <;> rfl
  | cons y rest ih =>
    obtain ⟨hy, hrest⟩ := (everywhere_cons ..).1 hpath
    cases rest with
    | nil => exact fun c x z hx hz => guarded_amend h hx hy hz
    | cons next rest =>
      have hsafe : ValueUpdate.Safe (Value.amendAlong settings f.toCallee (next :: rest)) :=
        safe_amendAlong h.safe hrest
      intro c x z hx hz
      cases x with
      | array a =>
        have ha : WellFormed a := (everywhere_array a).1 hx
        simp only [Guarded.amendAlong, Value.amendAlong]
        cases hok : a.openLevel c.site y f.toCallee z with
        | error e => rfl
        | ok level =>
          obtain ⟨sel, operands⟩ := level
          obtain ⟨hsel, hop, hopen⟩ := Arr.openLevel_eq_ok.1 hok
          by_cases hnil : sel.positions = []
          · simp only [hnil, List.isEmpty_nil, if_true]
          · have hoperands := everywhere_operands f.toCallee sel hz
            rw [hop] at hoperands
            -- A level opens at containers only, and only a list holds containers.
            have helements := guarded_arrAmendElements (c := c) hsafe (ih hrest) hoperands
              (covers_of_operands hz hop) ha (kind_of_ensureContainers (hopen hnil))
              fun p hp => Selection.lt_of_ofIndex hsel hp
            simp only [List.isEmpty_iff, hnil, if_false, helements]
            rfl
      | dict s d =>
        have hd : d.Paired := wellFormed_dict.1 hx
        have hgrown := paired_appendKeys (c := c.sub 0) hd (everywhere_missing settings d hy)
        simp only [Guarded.amendAlong, Value.amendAlong]
        cases hok : d.openLevel c.site (d.placement settings y) f.toCallee z with
        | error e => rfl
        | ok operands =>
          obtain ⟨hop, hopen⟩ := Dict.openLevel_eq_ok.1 hok
          by_cases hnil : (d.placement settings y).selection.positions = []
          · simp only [hnil, List.isEmpty_nil, if_true]
          · have hoperands := everywhere_operands f.toCallee (d.placement settings y).selection hz
            rw [hop] at hoperands
            have hlist : (d.appendKeys (c.sub 0) (d.placement settings y).missing).vals.kind =
                .list := kind_vals_appendKeys (kind_of_ensureContainers (hopen hnil))
            have helements := guarded_arrAmendElements
              (c := (c.sub 1).beside
                [.array (d.appendKeys (c.sub 0) (d.placement settings y).missing).keys])
              hsafe (ih hrest) hoperands (covers_of_operands hz hop) hgrown.2.2 hlist
              (placement_lt_appendKeys hd hy (c.sub 0))
            simp only [List.isEmpty_iff, hnil, if_false, helements]
            rfl
      | _ => rfl

theorem guarded_amendPath (h : f.Agrees) {c : Scope} {x path : Value} {z : Option Value}
    (hx : WellFormed x) (hpath : WellFormed path) (hz : WellFormed z) :
    Guarded.amendPath settings c x path f z = some (x.amendPath settings c path f.toCallee z) := by
  simp only [Guarded.amendPath, Value.amendPath]
  split
  · rfl
  · exact guarded_amendAlong h (everywhere_components hpath) c x z hx hz

theorem guarded_amendBy (h : f.Agrees) {form : Form} {c : Scope} {x y : Value} {z : Option Value}
    (hx : WellFormed x) (hy : WellFormed y) (hz : WellFormed z) :
    Guarded.amendBy settings form c x y f z =
      some (x.amendBy settings form c y f.toCallee z) := by
  cases form with
  | flat =>
    simp only [Guarded.amendBy, guarded_amend h hx hy hz]
    rfl
  | path =>
    simp only [Guarded.amendBy, guarded_amendPath h hx hy hz]
    rfl

end SharedArrays
