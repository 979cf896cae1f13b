/-!
# Failures

A failure has a cause, and it may name the operation that failed and carry a hint. While a
failure travels outwards, each operation on its way offers its own name and its own hint: the
innermost name stays, and the latest hint stays.

The type of values is a parameter, because function bodies, which are part of values, mention
failures.

## Main definitions

* `Cause`, `Failure` — what went wrong, and what was noted on the way out
* `Failure.during`, `Failure.advising` — the two notes
* `Note`, `Failure.note` — the notes as data, for a whole sequence of them
* `Failure.message` — the text of a failure
-/

namespace SharedArrays

/-- What went wrong. -/
inductive Cause (α : Type) where
  /-- An index is negative, or not below the length. -/
  | outOfBounds (index : Int64) (len : Nat)
  /-- Two things that go together differ in length. -/
  | length (what : String) (expected got : Nat)
  /-- A value has the wrong type. -/
  | type (expected got : String)
  /-- A path goes on below something that holds no values. -/
  | depth (got : String)
  /-- An operation has no answer here. -/
  | domain (message : String)
  /-- A function is called with the wrong number of arguments. -/
  | arity (name expected : String) (got : Nat)
  /-- A function answered with an error value, which holds `v`. -/
  | raised (v : α)

/-- A cause, the operation that failed, and a hint what to do. -/
structure Failure (α : Type) where
  cause : Cause α
  op : Option String := none
  hint : Option String := none

variable {α : Type}

namespace Cause

/-- The name of the kind of failure. -/
def kind : Cause α → String
  | outOfBounds .. => "OutOfBounds"
  | length .. => "Length"
  | type .. => "Type"
  | depth .. => "Depth"
  | domain .. => "Domain"
  | arity .. => "Arity"
  | raised .. => "Raised"

/-- The cause holds a value. -/
def holdsValue : Cause α → Bool
  | raised _ => true
  | _ => false

/-- The text of a cause; `render` writes the value of an error. -/
def message (render : α → String) : Cause α → String
  | outOfBounds index len => s!"index error: {index} out of bounds for length {len}"
  | length what expected got => s!"length error: {what} ({expected} vs {got})"
  | type expected got => s!"type error: expected {expected}, got {got}"
  | depth got => s!"rank error: index deeper than data (cannot index into {got})"
  | domain message => "domain error: " ++ message
  | arity name expected got => s!"arity error: {name} expects {expected} args, got {got}"
  | raised v => render v

end Cause

/-- What an operation may note on a failure that passes through it. -/
inductive Note where
  /-- The failure arose in the operation written as `op`. -/
  | during (op : String)
  /-- What to do about it. -/
  | advice (hint : String)
deriving DecidableEq, Repr

/-- The operation that a note names. -/
def Note.op? : Note → Option String
  | during op => some op
  | advice _ => none

/-- The hint that a note gives. -/
def Note.hint? : Note → Option String
  | during _ => none
  | advice hint => some hint

namespace Failure

/-- A failure about which nothing has been noted. -/
def ofCause (c : Cause α) : Failure α := ⟨c, none, none⟩

/-- Names the operation that failed, unless one further inside is named already. -/
def during (e : Failure α) (op : String) : Failure α := { e with op := e.op <|> some op }

/-- Gives a hint, in place of an earlier one. -/
def advising (e : Failure α) (hint : String) : Failure α := { e with hint := some hint }

/-- Adds a note. -/
def note (e : Failure α) : Note → Failure α
  | .during op => e.during op
  | .advice hint => e.advising hint

/-- The text of a failure: the cause, after the operation if one is named. -/
def message (render : α → String) (e : Failure α) : String :=
  match e.op with
  | some op => op ++ ": " ++ e.cause.message render
  | none => e.cause.message render

/-- An index that is out of range. -/
def outOfBounds (index : Int64) (len : Nat) : Failure α := ofCause (.outOfBounds index len)

/-- A mismatch of lengths. -/
def length (what : String) (expected got : Nat) : Failure α :=
  ofCause (.length what expected got)

/-- A value of the wrong type. -/
def type (expected got : String) : Failure α := ofCause (.type expected got)

/-- A path that is longer than the data is deep. -/
def depth (got : String) : Failure α := ofCause (.depth got)

/-- An operation without an answer. -/
def domain (message : String) : Failure α := ofCause (.domain message)

/-- A wrong number of arguments. -/
def arity (name expected : String) (got : Nat) : Failure α := ofCause (.arity name expected got)

/-- An error value that a function answered. -/
def raised (v : α) : Failure α := ofCause (.raised v)

/-- Checks that the number of arguments is between `lo` and `hi`. -/
def ensureArity (name : String) (lo hi given : Nat) : Except (Failure α) Unit :=
  if given < lo ∨ hi < given then
    .error (arity name (if lo = hi then toString lo else s!"{lo}-{hi}") given)
  else .ok ()

@[simp] theorem cause_note (e : Failure α) (n : Note) : (e.note n).cause = e.cause := by
  cases n <;> rfl

@[simp] theorem op_note (e : Failure α) (n : Note) : (e.note n).op = (e.op <|> n.op?) := by
  cases n <;> cases h : e.op <;> simp [note, during, advising, Note.op?, h]

@[simp] theorem hint_note (e : Failure α) (n : Note) :
    (e.note n).hint = (n.hint? <|> e.hint) := by
  cases n <;> simp [note, during, advising, Note.hint?]

end Failure

end SharedArrays
