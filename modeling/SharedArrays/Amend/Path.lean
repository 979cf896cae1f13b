import SharedArrays.Amend.Container

/-!
# Amending along a path

A path leads through nested containers, one component per level. The last component is the
index of a flat amend; each earlier one selects elements of a list, or values of a dictionary
whose values are a list, and the rest of the path applies to each of them. A path without
components applies the function to the value as a whole.

Each level checks that it can go on before anything is written at that level. Containers on the
way are made private, from the outside to the inside: a copy of an outer container shares the
inner ones, which are copied in their turn when the path leads on into them.

## Main definitions

* `Arr.ensureContainers` — whether a path can lead on
* `Arr.openLevel`, `Dict.openLevel` — what a level of a path works on
* `amendElements` — the rest of a path at several elements
* `Value.amendAlong` — an amend along the components of a path
* `Value.amendPath` — an amend along a path, which has a limited length

## Main results

* `Arr.openLevel_eq_ok`, `Dict.openLevel_eq_ok` — when a level goes on
-/

namespace SharedArrays

/-- A path can lead on below the selected positions: the array is a list, and the elements are
containers. At the position of a missing key stands the neutral value. -/
def Arr.ensureContainers (s : Site) (a : Arr Value) (ps : List Nat) : Result Unit :=
  match a with
  | .list _ =>
    match (ps.map fun i => (a.at? i).getD (a.padding s)).find? (!·.isContainer) with
    | some slot => .error (.depth slot.typeName)
    | none => .ok ()
  | a => .error (.depth ((a.at? 0).elim a.kind.name Value.typeName))

/-- The positions of an array at which a path leads on, with their right operands. Everything
that the level can reject is rejected here, before it is written to. -/
def Arr.openLevel (s : Site) (a : Arr Value) (y : Value) (f : Callee) (z : Option Value) :
    Result (Selection × Operands) := do
  let sel ← Selection.ofIndex a.len y
  let operands ← f.operands z sel
  if !sel.positions.isEmpty then a.ensureContainers s sel.positions
  return (sel, operands)

/-- The right operands of the values of a dictionary at which a path leads on. -/
def Dict.openLevel (s : Site) (d : Dict Value) (plan : Placement) (f : Callee)
    (z : Option Value) : Result Operands := do
  let operands ← f.operands z plan.selection
  if !plan.selection.positions.isEmpty then
    d.vals.ensureContainers s plan.selection.positions
  return operands

theorem Arr.openLevel_eq_ok {s : Site} {a : Arr Value} {y : Value} {f : Callee}
    {z : Option Value} {sel : Selection} {operands : Operands} :
    a.openLevel s y f z = .ok (sel, operands) ↔
      Selection.ofIndex a.len y = .ok sel ∧ f.operands z sel = .ok operands ∧
        (sel.positions ≠ [] → a.ensureContainers s sel.positions = .ok ()) := by
  constructor
  · intro h
    obtain ⟨sel', hsel, h⟩ := bind_eq_ok.1 h
    obtain ⟨operands', hop, h⟩ := bind_eq_ok.1 h
    by_cases hnil : sel'.positions = []
    · simp only [hnil, List.isEmpty_nil, Bool.not_true, Bool.false_eq_true, if_false] at h
      cases h
      exact ⟨hsel, hop, fun hne => absurd hnil hne⟩
    · simp only [List.isEmpty_eq_false_iff.2 hnil, Bool.not_false, if_true] at h
      obtain ⟨_, hopen, h⟩ := bind_eq_ok.1 h
      cases h
      exact ⟨hsel, hop, fun _ => hopen⟩
  · rintro ⟨hsel, hop, hopen⟩
    refine bind_eq_ok.2 ⟨sel, hsel, bind_eq_ok.2 ⟨operands, hop, ?_⟩⟩
    by_cases hnil : sel.positions = []
    · simp only [hnil, List.isEmpty_nil, Bool.not_true, Bool.false_eq_true, if_false]
      rfl
    · simp only [List.isEmpty_eq_false_iff.2 hnil, Bool.not_false, if_true]
      exact bind_eq_ok.2 ⟨(), hopen hnil, rfl⟩

theorem Dict.openLevel_eq_ok {s : Site} {d : Dict Value} {plan : Placement} {f : Callee}
    {z : Option Value} {operands : Operands} :
    d.openLevel s plan f z = .ok operands ↔
      f.operands z plan.selection = .ok operands ∧
        (plan.selection.positions ≠ [] →
          d.vals.ensureContainers s plan.selection.positions = .ok ()) := by
  constructor
  · intro h
    obtain ⟨operands', hop, h⟩ := bind_eq_ok.1 h
    by_cases hnil : plan.selection.positions = []
    · simp only [hnil, List.isEmpty_nil, Bool.not_true, Bool.false_eq_true, if_false] at h
      cases h
      exact ⟨hop, fun hne => absurd hnil hne⟩
    · simp only [List.isEmpty_eq_false_iff.2 hnil, Bool.not_false, if_true] at h
      obtain ⟨_, hopen, h⟩ := bind_eq_ok.1 h
      cases h
      exact ⟨hop, fun _ => hopen⟩
  · rintro ⟨hop, hopen⟩
    refine bind_eq_ok.2 ⟨operands, hop, ?_⟩
    by_cases hnil : plan.selection.positions = []
    · simp only [hnil, List.isEmpty_nil, Bool.not_true, Bool.false_eq_true, if_false]
      rfl
    · simp only [List.isEmpty_eq_false_iff.2 hnil, Bool.not_false, if_true]
      exact bind_eq_ok.2 ⟨(), hopen hnil, rfl⟩

/-- An update of a value that waits for its surroundings, the value and the right operand. -/
abbrev ValueUpdate := Scope → Value → Option Value → Outcome Value

/-- Updates the elements at the given positions in order, up to the first that fails. The `k`-th
position takes the `k`-th right operand. Beside an element, the other elements of its buffer are
alive. -/
def amendElements (update : ValueUpdate) (z : Operands) (c : Scope) (k : Nat) :
    List Nat → Window Value → Outcome (Window Value)
  | [], w => .done w
  | i :: rest, w =>
    match w.items[i]? with
    | none => .failed w (.outOfBounds (Int64.ofNat i) w.len)
    | some slot =>
      let o := update ((c.sub (k + 1)).beside (w.buf.eraseIdx (w.off + i))) slot (z.at? k)
      let w := { w with buf := w.buf.set (w.off + i) o.slot }
      match o.failure with
      | some e => .failed w e
      | none => amendElements update z c (k + 1) rest w

/-- Updates the elements of a list at the given positions. -/
def Arr.amendElements (update : ValueUpdate) (z : Operands) (c : Scope) (ps : List Nat) :
    Arr Value → Outcome (Arr Value)
  | .list w => (SharedArrays.amendElements update z c 0 ps (w.makePrivate (c.sub 0))).map .list
  | a => .done a

/-- The value amended along the components of a path by the function `f`. -/
def Value.amendAlong (settings : Settings) (f : Callee) : List Value → ValueUpdate
  | [], c, x, z =>
    match f.call c.site (x :: z.toList) with
    | .ok v => .done v
    | .error e => .failed x e
  | [y], c, x, z => x.amend settings c y f z
  | y :: next :: rest, c, x, z =>
    match x with
    | .array a =>
      match a.openLevel c.site y f z with
      | .error e => .failed x e
      | .ok (sel, operands) =>
        if sel.positions.isEmpty then .done x
        else
          (a.amendElements (amendAlong settings f (next :: rest)) operands c
            sel.positions).map .array
    | .dict s d =>
      let plan := d.placement settings y
      match d.openLevel c.site plan f z with
      | .error e => .failed x e
      | .ok operands =>
        if plan.selection.positions.isEmpty then .done x
        else
          -- A missing key starts from the neutral value, which the path then leads into.
          let d := d.appendKeys (c.sub 0) plan.missing
          (d.vals.amendElements (amendAlong settings f (next :: rest)) operands
            ((c.sub 1).beside [.array d.keys]) plan.selection.positions).map fun vals =>
              .dict (c.own s) ⟨d.keys, vals⟩
    | x => .failed x (.type "array or dict" x.typeName)

/-- The components of a path. -/
def Value.components : Value → List Value
  | .array a => a.values
  | v => [v]

/-- The value `x` amended along the path by the function `f`. -/
def Value.amendPath (settings : Settings) (c : Scope) (x path : Value) (f : Callee)
    (z : Option Value) : Outcome Value :=
  let components := path.components
  if settings.pathLimit < components.length then
    .failed x <| (Failure.domain
      s!"path of length {components.length} exceeds max depth {settings.pathLimit}").advising
        "raise KAPPA_MAX_DEPTH"
  else Value.amendAlong settings f components c x z

end SharedArrays
