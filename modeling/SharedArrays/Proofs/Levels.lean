import SharedArrays.Proofs.Everywhere
import SharedArrays.Amend.Path

/-!
# The levels of a path

Before an amend writes to a container it resolves the index and checks the right operands. At a
level of a path it also checks that the path can lead on. These checks refer to no values but those
that they let through: the right operands come from the operand of the amend, and a failure holds
no value at all.

What happens at one level of a path is said once, as a relation between the value at that level and
its outcome. Whatever is to be proved of amends along paths goes through its cases.

## Main definitions

* `PathLevel` — what an amend along a path does at one level

## Main results

* `everywhere_operands`, `everywhere_missing` — what right operands and missing keys refer to
* `level_amendAlong` — each level of a path is such a level
-/

namespace SharedArrays

/-! ## Selections and right operands

Checks refer to no values but those that they let through. -/

instance : HasNodes Unit := ⟨fun _ => []⟩

instance : HasNodes Selection := ⟨fun _ => []⟩

instance : HasNodes Operands :=
  ⟨fun z => match z with
    | .absent => []
    | .whole z => z.nodes
    | .each a => a.nodes⟩

section Operands

variable {P : Value → Prop} {z : Option Value}

theorem Operands.everywhere_at? {z : Operands} (h : Everywhere P z) (k : Nat) :
    Everywhere P (z.at? k) := by
  cases z with
  | absent => exact everywhere_none
  | whole z => exact h
  | each a =>
    have ha : Everywhere P a := h
    cases hk : a.at? k with
    | none => simp [Operands.at?, hk]
    | some v =>
      rw [Operands.at?, hk]
      exact everywhere_iff_forall.1 (everywhere_values ha) v (List.mem_of_getElem? hk)

theorem everywhere_forMany (count : Nat) (h : Everywhere P z) :
    Everywhere P (Operands.forMany count z) := by
  unfold Operands.forMany
  split
  · exact List.forall_mem_nil P
  · split
    · exact h
    · exact everywhere_error_of_cause rfl
  · exact h

theorem everywhere_ofSelection (sel : Selection) (h : Everywhere P z) :
    Everywhere P (Operands.ofSelection z sel) := by
  cases sel with
  | one i => cases z <;> exact h
  | many ps => exact everywhere_forMany _ h

theorem everywhere_operands (f : Callee) (sel : Selection) (h : Everywhere P z) :
    Everywhere P (f.operands z sel) := by
  unfold Callee.operands
  split
  · exact everywhere_ofSelection sel h
  · exact everywhere_error_of_cause rfl

theorem everywhere_position {len : Nat} {i : Int64} {e : Failure Value}
    (h : position len i = .error e) : Everywhere P e := by
  unfold position at h
  split at h <;> cases h
  exact everywhere_failure rfl

theorem everywhere_mapM_error {α β : Type} {f : α → Result β} {xs : List α}
    {e : Failure Value} (hf : ∀ x e, f x = .error e → Everywhere P e)
    (h : xs.mapM f = .error e) : Everywhere P e := by
  induction xs with
  | nil => cases h
  | cons x xs ih =>
    rw [List.mapM_cons] at h
    cases hx : f x with
    | error e' =>
      rw [hx] at h
      cases h
      exact hf x e hx
    | ok y =>
      cases hxs : xs.mapM f with
      | error e' =>
        rw [hx, hxs] at h
        cases h
        exact ih hxs
      | ok ys =>
        rw [hx, hxs] at h
        cases h

theorem everywhere_ofIndex (len : Nat) (y : Value) : Everywhere P (Selection.ofIndex len y) := by
  have each {α : Type} {f : α → Result Nat} {xs : List α}
      (hf : ∀ x e, f x = .error e → Everywhere P e) :
      Everywhere P (do return Selection.many (← xs.mapM f) : Result Selection) := by
    cases hxs : xs.mapM f with
    | ok ps => exact List.forall_mem_nil P
    | error e => exact everywhere_mapM_error hf hxs
  unfold Selection.ofIndex
  split
  · exact List.forall_mem_nil P
  · rename_i i
    cases hi : position len i with
    | ok p => exact List.forall_mem_nil P
    | error e => exact everywhere_position hi
  · exact each fun _ _ => everywhere_position
  · exact each fun _ _ => everywhere_position
  · exact everywhere_error_of_cause rfl

theorem everywhere_ensureContainers (s : Site) (a : Arr Value) (ps : List Nat) :
    Everywhere P (a.ensureContainers s ps) := by
  unfold Arr.ensureContainers
  split
  · split
    · exact everywhere_error_of_cause rfl
    · exact List.forall_mem_nil P
  · exact everywhere_error_of_cause rfl

theorem everywhere_arrOpenLevel (f : Callee) {s : Site} {a : Arr Value} {y : Value}
    (h : Everywhere P z) : Everywhere P (a.openLevel s y f z) := by
  refine everywhere_bind (everywhere_ofIndex a.len y) fun sel _ _ =>
    everywhere_bind (everywhere_operands f sel h) fun operands _ hoperands => ?_
  have hlevel : Everywhere P (sel, operands) :=
    (everywhere_pair ..).2 ⟨List.forall_mem_nil P, hoperands⟩
  split
  · exact everywhere_bind (everywhere_ensureContainers _ _ _) fun _ _ _ => hlevel
  · exact hlevel

theorem everywhere_dictOpenLevel (f : Callee) {s : Site} {d : Dict Value} {plan : Placement}
    (h : Everywhere P z) : Everywhere P (d.openLevel s plan f z) := by
  refine everywhere_bind (everywhere_operands f _ h) fun operands _ hoperands => ?_
  split
  · exact everywhere_bind (everywhere_ensureContainers _ _ _) fun _ _ _ => hoperands
  · exact hoperands

/-- Only keys of the index are appended. -/
theorem forall_missing {Q : Value → Prop} (settings : Settings) (d : Dict Value) {y : Value}
    (hy : Q y) (helements : ∀ a, y = .array a → ∀ v ∈ a.values, Q v) :
    ∀ k ∈ (d.placement settings y).missing, Q k := by
  have hkeys (len : Nat) (found : List (Value × Option Nat)) (missing : List Value)
      (hfound : ∀ e ∈ found, Q e.1) (hmissing : ∀ k ∈ missing, Q k) :
      ∀ k ∈ (placeKeys len missing found).2, Q k := by
    induction found generalizing missing with
    | nil => exact hmissing
    | cons e rest ih =>
      obtain ⟨k, p⟩ := e
      obtain ⟨hk, hrest⟩ := List.forall_mem_cons.1 hfound
      cases p with
      | some p => exact ih missing hrest hmissing
      | none =>
        refine ih (newPosition len missing k).2 hrest ?_
        unfold newPosition
        split
        · exact hmissing
        · exact List.forall_mem_append.2 ⟨hmissing, fun u hu => List.mem_singleton.1 hu ▸ hk⟩
  unfold Dict.placement
  split
  · exact nofun
  · rename_i keys
    split
    · exact nofun
    · exact hkeys _ _ _ (fun e he => helements keys rfl _ (List.of_mem_zip he).1) nofun
  · unfold Dict.placeOne
    split
    · exact nofun
    · exact fun u hu => List.mem_singleton.1 hu ▸ hy

theorem everywhere_missing (settings : Settings) (d : Dict Value) {y : Value}
    (hy : Everywhere P y) : Everywhere P (d.placement settings y).missing := by
  refine everywhere_iff_forall.2 (forall_missing settings d hy ?_)
  rintro a rfl
  exact everywhere_iff_forall.1 (everywhere_values ((everywhere_array a).1 hy))

theorem everywhere_components {path : Value} (h : Everywhere P path) :
    Everywhere P path.components := by
  cases path with
  | array a => exact everywhere_values ((everywhere_array a).1 h)
  | _ => exact (everywhere_cons ..).2 ⟨h, everywhere_empty⟩

end Operands

/-! ## One level -/

/-- What an amend along a path does to a value at the component `y`, where `update` is the amend
along the components behind it. -/
inductive PathLevel (settings : Settings) (f : Callee) (update : ValueUpdate) (y : Value)
    (c : Scope) (z : Option Value) : Value → Outcome Value → Prop where
  /-- The level is refused, and the value stays as it is. -/
  | refused (x : Value) {e : Failure Value}
    (holds : ∀ P : Value → Prop, Everywhere P z → Everywhere P e) :
    PathLevel settings f update y c z x (.failed x e)
  /-- No position is selected, so that the path leads nowhere. -/
  | idle (x : Value) (isContainer : x.isContainer = true) :
    PathLevel settings f update y c z x (.done x)
  /-- The path leads on into elements. -/
  | array {a : Arr Value} {sel : Selection} {operands : Operands}
    (opens : a.openLevel c.site y f z = .ok (sel, operands)) (selects : sel.positions ≠ [])
    (holds : ∀ P : Value → Prop, Everywhere P z → Everywhere P operands) :
    PathLevel settings f update y c z (.array a)
      ((a.amendElements update operands c sel.positions).map .array)
  /-- The path leads on into values, those of missing keys included. -/
  | dict {s : Site} {d : Dict Value} {operands : Operands}
    (opens : d.openLevel c.site (d.placement settings y) f z = .ok operands)
    (selects : (d.placement settings y).selection.positions ≠ [])
    (holds : ∀ P : Value → Prop, Everywhere P z → Everywhere P operands) :
    PathLevel settings f update y c z (.dict s d)
      (let grown := d.appendKeys (c.sub 0) (d.placement settings y).missing
      (grown.vals.amendElements update operands ((c.sub 1).beside [.array grown.keys])
        (d.placement settings y).selection.positions).map fun vals =>
          .dict (c.own s) ⟨grown.keys, vals⟩)

/-- Every component but the last one makes such a level. -/
theorem level_amendAlong (settings : Settings) (f : Callee) (y next : Value) (rest : List Value)
    (c : Scope) (x : Value) (z : Option Value) :
    PathLevel settings f (Value.amendAlong settings f (next :: rest)) y c z x
      (Value.amendAlong settings f (y :: next :: rest) c x z) := by
  cases x with
  | array a =>
    -- All checks come before the first write, and refer to nothing but the operand.
    have hholds (P : Value → Prop) (hz : Everywhere P z) :
        Everywhere P (a.openLevel c.site y f z) := everywhere_arrOpenLevel f hz
    simp only [Value.amendAlong]
    split
    · rename_i e he
      exact .refused _ fun P hz => by simpa [he] using hholds P hz
    · rename_i sel operands hok
      split
      · exact .idle _ rfl
      · rename_i hnil
        refine .array hok (fun h => hnil (List.isEmpty_iff.2 h)) fun P hz => ?_
        have hlevel := hholds P hz
        rw [hok] at hlevel
        exact ((everywhere_pair ..).1 hlevel).2
  | dict s d =>
    have hholds (P : Value → Prop) (hz : Everywhere P z) :
        Everywhere P (d.openLevel c.site (d.placement settings y) f z) :=
      everywhere_dictOpenLevel f hz
    simp only [Value.amendAlong]
    split
    · rename_i e he
      exact .refused _ fun P hz => by simpa [he] using hholds P hz
    · rename_i operands hok
      split
      · exact .idle _ rfl
      · rename_i hnil
        refine .dict hok (fun h => hnil (List.isEmpty_iff.2 h)) fun P hz => ?_
        have hlevel := hholds P hz
        rwa [hok] at hlevel
  | _ => exact .refused _ fun P _ => everywhere_failure rfl

end SharedArrays
