import SharedArrays.Value.Text

/-!
# Failures in their wraps

A failure that travels outwards is wrapped by the operations on its way: in a name, in a hint, one
around the other. Readers of such a failure walk inwards, each until it finds what it looks for. The
library keeps no wraps, only what the readers find. That this is enough is not plain from the rules:
a name that is added slips under the hints and is lost on a name that is there already, and a hint
that is added replaces the outermost layer if that is a hint, but not a hint further inside.

What saves the record is that names and hints never pile up. From a bare cause, notes only lead to a
cause, in one name at most, in one hint at most, and the hint outside. On failures of this form the
notes do to the wraps what they do to the record, and the readers agree. So whatever the sequence of
notes, the cause stays, the first name stays, and the last hint stays.

## Main definitions

* `Wrapped` — failures with their wraps, the notes on them, and the readers
* `Failure.wrapped` — a failure in its wraps

## Main results

* `wrapped_note` — notes keep the form of the wraps
* `op_foldl_note`, `hint_foldl_note` — which name and which hint are left of a sequence of notes
* `ofFailure_eq_error_iff` — when a failure gives back the value that was raised
* `notes_read_back` — what the readers find after any sequence of notes
-/

namespace SharedArrays

/-- A cause in names and hints. -/
inductive Wrapped (α : Type) where
  | bare (cause : Cause α)
  /-- Wrapped in the name of the operation that failed. -/
  | named (op : String) (inner : Wrapped α)
  /-- Wrapped in a hint. -/
  | hinted (inner : Wrapped α) (hint : Option String)

variable {α : Type}

namespace Wrapped

/-- Names the operation that failed, inside of the hints and unless there is a name. -/
def during : Wrapped α → String → Wrapped α
  | named op e, _ => named op e
  | hinted e hint, op => hinted (e.during op) hint
  | bare cause, op => named op (bare cause)

/-- Gives a hint, in place of a hint that is outermost. -/
def advising : Wrapped α → String → Wrapped α
  | hinted e _, hint => hinted e (some hint)
  | e, hint => hinted e (some hint)

/-- Adds a note. -/
def note (e : Wrapped α) : Note → Wrapped α
  | .during op => e.during op
  | .advice hint => e.advising hint

/-- What went wrong. -/
def cause : Wrapped α → Cause α
  | bare cause => cause
  | named _ e => e.cause
  | hinted e _ => e.cause

/-- The outermost name. -/
def op? : Wrapped α → Option String
  | bare _ => none
  | named op _ => some op
  | hinted e _ => e.op?

/-- The hint of the outermost layer that has a place for one. -/
def hint? : Wrapped α → Option String
  | bare _ => none
  | named _ e => e.hint?
  | hinted _ hint => hint

/-- The text, with all names in front of it. -/
def message (render : α → String) : Wrapped α → String
  | bare cause => cause.message render
  | named op e => op ++ ": " ++ e.message render
  | hinted e _ => e.message render

/-- The text of a failure that may hold a value. -/
def text (e : Wrapped Value) : String := e.message Value.text

/-- An error value: what was raised, if no operation is named, and otherwise the text. -/
def toValue (s : Site) (e : Wrapped Value) : Value :=
  match e.cause, e.op? with
  | .raised v, none => .error s v
  | _, _ => .error s (.str e.text)

end Wrapped

/-! ## The form of the wraps -/

/-- A failure in its wraps: the hint, if there is one, around the name, if there is one, around the
cause. -/
def Failure.wrapped : Failure α → Wrapped α
  | ⟨cause, op, hint⟩ =>
    let inner : Wrapped α := op.elim (.bare cause) fun op => .named op (.bare cause)
    hint.elim inner fun hint => .hinted inner (some hint)

section Wrapped

/-- Notes keep the form of the wraps. -/
theorem wrapped_note (e : Failure α) (n : Note) : (e.note n).wrapped = e.wrapped.note n := by
  obtain ⟨cause, op, hint⟩ := e
  cases n <;> cases op <;> cases hint <;> rfl

theorem wrapped_foldl_note (e : Failure α) (notes : List Note) :
    (notes.foldl Failure.note e).wrapped = notes.foldl Wrapped.note e.wrapped :=
  (List.foldl_hom Failure.wrapped fun e n => (wrapped_note e n).symm).symm

/-- Two names and two hints, one after the other: the first name and the last hint are left. -/
example :
    [.during "f", .advice "a", .during "g", .advice "b"].foldl Wrapped.note
        (.bare (.domain "x") : Wrapped Value) =
      .hinted (.named "f" (.bare (.domain "x"))) (some "b") := rfl

variable (e : Failure α)

@[simp] theorem cause_wrapped : e.wrapped.cause = e.cause := by
  obtain ⟨cause, op, hint⟩ := e
  cases op <;> cases hint <;> rfl

@[simp] theorem op?_wrapped : e.wrapped.op? = e.op := by
  obtain ⟨cause, op, hint⟩ := e
  cases op <;> cases hint <;> rfl

@[simp] theorem hint?_wrapped : e.wrapped.hint? = e.hint := by
  obtain ⟨cause, op, hint⟩ := e
  cases op <;> cases hint <;> rfl

@[simp] theorem message_wrapped (render : α → String) :
    e.wrapped.message render = e.message render := by
  obtain ⟨cause, op, hint⟩ := e
  cases op <;> cases hint <;> rfl

theorem text_wrapped (e : Failure Value) : e.wrapped.text = e.text := message_wrapped e _

theorem toValue_wrapped (s : Site) (e : Failure Value) : e.wrapped.toValue s = .ofFailure s e := by
  obtain ⟨cause, op, hint⟩ := e
  cases cause <;> cases op <;> cases hint <;> rfl

end Wrapped

/-! ## Sequences of notes -/

section Notes

variable (e : Failure α) (notes : List Note)

theorem cause_foldl_note : (notes.foldl Failure.note e).cause = e.cause := by
  induction notes generalizing e with
  | nil => rfl
  | cons n notes ih => rw [List.foldl_cons, ih, Failure.cause_note]

/-- A name that is there stays; otherwise the first of the notes names the operation. -/
theorem op_foldl_note :
    (notes.foldl Failure.note e).op = (e.op <|> (notes.filterMap Note.op?).head?) := by
  induction notes generalizing e with
  | nil => simp
  | cons n notes ih =>
    rw [List.foldl_cons, ih, Failure.op_note]
    cases n with
    | during op => cases e.op <;> simp [Note.op?]
    | advice hint => simp [Note.op?, List.findSome?_cons]

/-- The last of the hints stays; without one, a hint that is there does. -/
theorem hint_foldl_note :
    (notes.foldl Failure.note e).hint =
      ((notes.filterMap Note.hint?).getLast? <|> e.hint) := by
  induction notes generalizing e with
  | nil => simp
  | cons n notes ih =>
    rw [List.foldl_cons, ih, Failure.hint_note]
    cases n with
    | during op => simp [Note.hint?, List.findSome?_append]
    | advice hint => simp [Note.hint?, List.getLast?_cons]

end Notes

/-! ## Failures as texts and as values -/

theorem text_eq_elim (e : Failure Value) :
    e.text = e.op.elim e.cause.text fun op => op ++ ": " ++ e.cause.text := by
  obtain ⟨cause, op, hint⟩ := e
  cases op <;> rfl

theorem one_le_length_escaped (c : Char) : 1 ≤ (escaped c).length := by
  unfold escaped
  split
  · decide
  · decide
  · decide
  · decide
  · exact Nat.le_of_eq String.length_singleton.symm

theorem length_le_join_escaped (cs : List Char) :
    cs.length ≤ (String.join (cs.map escaped)).length := by
  have hfold (cs : List Char) (acc : String) :
      acc.length + cs.length ≤ ((cs.map escaped).foldl (fun r s => r ++ s) acc).length := by
    induction cs generalizing acc with
    | nil => exact Nat.le_refl _
    | cons c cs ih =>
      have hrest := ih (acc ++ escaped c)
      have hone := one_le_length_escaped c
      rw [String.length_append] at hrest
      rw [List.map_cons, List.foldl_cons, List.length_cons]
      omega
  simpa [String.join] using hfold cs ""

/-- Between quotes a string is longer. -/
theorem length_lt_quoted (s : String) : s.length < (quoted s).length := by
  have hjoin := length_le_join_escaped s.toList
  rw [String.length_toList] at hjoin
  rw [quoted, String.length_append, String.length_append]
  have hquote : "\"".length = 1 := rfl
  omega

/-- A failure gives back the value that was raised just if no operation is named: a text that starts
with a name is no string whose text it ends with. -/
theorem ofFailure_eq_error_iff {e : Failure Value} {v : Value} (h : e.cause = .raised v)
    (s : Site) : Value.ofFailure s e = .error s v ↔ e.op = none := by
  obtain ⟨cause, op, hint⟩ := e
  cases h
  cases op with
  | none => exact iff_of_true rfl rfl
  | some op =>
    refine iff_of_false (fun heq => ?_) nofun
    have hv : v = .str (op ++ ": " ++ v.text) := (Value.error.inj heq).2.symm
    have htext : v.text = quoted (op ++ ": " ++ v.text) := congrArg Value.text hv
    have hlonger := length_lt_quoted (op ++ ": " ++ v.text)
    rw [← htext, String.length_append] at hlonger
    omega

theorem ofFailure_eq_text {e : Failure Value} (h : e.cause.holdsValue = true → e.op ≠ none)
    (s : Site) : Value.ofFailure s e = .error s (.str e.text) := by
  obtain ⟨cause, op, hint⟩ := e
  cases cause with
  | raised v =>
    cases op with
    | none => exact absurd rfl (h rfl)
    | some op => rfl
  | _ => rfl

/-- After any sequence of notes on a bare cause the readers of the wraps find: that very cause, the
first name, and the last hint. The text is that of the cause, behind the name if there is one. As a
value the failure gives back what was raised just if something was raised and no name was noted; in
all other cases it gives the text. A failure that keeps no wraps, but only what was noted, reads the
same. -/
theorem notes_read_back (cause : Cause Value) (notes : List Note) (s : Site) :
    let w := notes.foldl Wrapped.note (.bare cause)
    let e := notes.foldl Failure.note (.ofCause cause)
    let op := (notes.filterMap Note.op?).head?
    let hint := (notes.filterMap Note.hint?).getLast?
    (w.cause = cause ∧ w.op? = op ∧ w.hint? = hint ∧
      (w.text = op.elim cause.text fun op => op ++ ": " ++ cause.text) ∧
      (∀ v, cause = .raised v → (w.toValue s = .error s v ↔ op = none)) ∧
      ((cause.holdsValue = true → op ≠ none) → w.toValue s = .error s (.str w.text))) ∧
    e.cause = w.cause ∧ e.op = w.op? ∧ e.hint = w.hint? ∧ e.text = w.text ∧
      Value.ofFailure s e = w.toValue s := by
  intro w e op hint
  have hw : w = e.wrapped := (wrapped_foldl_note (.ofCause cause) notes).symm
  have hcause : e.cause = cause := cause_foldl_note _ notes
  have hop : e.op = op := op_foldl_note _ notes
  have hhint : e.hint = hint := by
    rw [hint_foldl_note]
    simp [hint, Failure.ofCause]
  have htext : e.text = op.elim cause.text fun op => op ++ ": " ++ cause.text := by
    rw [text_eq_elim, hop, hcause]
  rw [hw, cause_wrapped, op?_wrapped, hint?_wrapped, text_wrapped, toValue_wrapped]
  refine ⟨⟨hcause, hop, hhint, htext, fun v hv => ?_, fun hname => ?_⟩, rfl, rfl, rfl, rfl, rfl⟩
  · rw [← hop]
    exact ofFailure_eq_error_iff (hcause.trans hv) s
  · refine ofFailure_eq_text (fun hraised => ?_) s
    rw [hop]
    exact hname (hcause ▸ hraised)

end SharedArrays
