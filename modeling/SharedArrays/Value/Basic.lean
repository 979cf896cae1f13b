import SharedArrays.Window
import SharedArrays.Double
import SharedArrays.Builtin
import SharedArrays.Failure

/-!
# Values

The values of a small array language: atoms, arrays in five storage variants, dictionaries,
functions and error values.

Arrays, dictionaries, derived functions, user functions and error values are shared objects.
A value that refers to one is a *handle* on it, and carries the object's site. For data the
site matters only to the question whether a write may be done in place; for functions it
decides equality as well.

## Main definitions

* `Kind`, `Arr` — the storage variants, and arrays
* `Dict` — parallel arrays of keys and values
* `Body` — what a user function does
* `Value` — values
* `Arr.values` — the elements of an array as values, whatever its variant
* `Value.neutral`, `Arr.padding` — the neutral elements that pad a dictionary
* `Result`, `Outcome` — the answer of a call, and what an update leaves behind
-/

namespace SharedArrays

/-- The storage variants of arrays. -/
inductive Kind where
  | bools
  | ints
  | floats
  | strs
  | list
deriving DecidableEq, Repr

/-- The name of a storage variant, which is also the type name of its arrays. -/
def Kind.name : Kind → String
  | bools => "bools"
  | ints => "ints"
  | floats => "floats"
  | strs => "strings"
  | list => "list"

/-- An array. Four variants store elements of one type without a tag; a list stores values of
any type. -/
inductive Arr (α : Type) where
  | bools (w : Window Bool)
  | ints (w : Window Int64)
  | floats (w : Window Double)
  | strs (w : Window String)
  | list (w : Window α)

/-- An ordered dictionary: the `i`-th key belongs to the `i`-th value. Keys may repeat, and the
first of equal keys counts. -/
structure Dict (α : Type) where
  keys : Arr α
  vals : Arr α

/-- The two ways to say where an amend takes place. -/
inductive Form where
  /-- `@`: positions or keys of one container -/
  | flat
  /-- `.`: a path through nested containers -/
  | path
deriving DecidableEq, Repr

/-- How an amend of this form is written. -/
def Form.symbol : Form → String
  | flat => "@"
  | path => "."

/-- The body of a user function. -/
inductive Body (α : Type) where
  /-- The `k`-th argument, nil if there is none. -/
  | arg (k : Nat)
  | const (v : α)
  | call (f : α) (args : List (Body α))
  /-- An error value that holds the answer of `b`. -/
  | raise (b : Body α)
  | fail (e : Failure α)
  /-- `t`, or `e` if the answer of `c` is nil or the integer 0. -/
  | branch (c t e : Body α)
  /-- `x` amended at `y` by the function `f`. -/
  | amend (form : Form) (x y : Body α) (f : α)
  /-- `x` amended at `y` by the function `f`, with the right operand `z`. -/
  | amendWith (form : Form) (x y : Body α) (f : α) (z : Body α)

/-- A value of the language. -/
inductive Value where
  /-- The absent value. As an index it means every position. -/
  | nil
  | int (n : Int64)
  | float (x : Double)
  | str (s : String)
  | builtin (b : Builtin)
  | array (a : Arr Value)
  | dict (site : Site) (d : Dict Value)
  | error (site : Site) (v : Value)
  | lambda (site : Site) (name : String) (arity : Nat) (body : Body Value)
  /-- `outer` after `inner`. -/
  | compose (site : Site) (outer inner : Value)
  /-- A call that waits for the arguments that are `none`. -/
  | project (site : Site) (f : Value) (args : List (Option Value))

instance : Inhabited Value := ⟨.nil⟩

/-- The answer of a call: a value or a failure. -/
abbrev Result := Except (Failure Value)

theorem bind_eq_ok {α β : Type} {r : Result α} {f : α → Result β} {b : β} :
    (r >>= f) = .ok b ↔ ∃ a, r = .ok a ∧ f a = .ok b := by
  cases r <;> simp [bind, Except.bind]

/-- What an update leaves behind: the new content of its slot, and the failure that ended it
early, if any. What was written before the failure stays written. -/
structure Outcome (α : Type) where
  slot : α
  failure : Option (Failure Value)

namespace Outcome

variable {α β : Type}

/-- An update that went through. -/
def done (a : α) : Outcome α := ⟨a, none⟩

/-- An update that ended with `e`. -/
def failed (a : α) (e : Failure Value) : Outcome α := ⟨a, some e⟩

/-- Puts the content of a slot back into its surroundings. -/
def map (f : α → β) (o : Outcome α) : Outcome β := ⟨f o.slot, o.failure⟩

/-- The values that a failure keeps alive. -/
def raised (o : Outcome α) : List Value :=
  match o.failure with
  | some ⟨.raised v, _, _⟩ => [v]
  | _ => []

/-- The new content if the update went through. -/
def toResult (o : Outcome α) : Result α :=
  match o.failure with
  | none => .ok o.slot
  | some e => .error e

@[simp] theorem slot_map (f : α → β) (o : Outcome α) : (o.map f).slot = f o.slot := rfl

@[simp] theorem failure_map (f : α → β) (o : Outcome α) : (o.map f).failure = o.failure := rfl

end Outcome

namespace Arr

variable {α : Type}

/-- The storage variant. -/
def kind : Arr α → Kind
  | bools _ => .bools
  | ints _ => .ints
  | floats _ => .floats
  | strs _ => .strs
  | list _ => .list

/-- Reads off what does not depend on the type of the elements. -/
def read {γ : Type} (f : ∀ {β : Type}, Window β → γ) : Arr α → γ
  | bools w => f w
  | ints w => f w
  | floats w => f w
  | strs w => f w
  | list w => f w

/-- Changes the window, whatever the type of the elements. -/
def update (f : ∀ {β : Type}, Window β → Window β) : Arr α → Arr α
  | bools w => bools (f w)
  | ints w => ints (f w)
  | floats w => floats (f w)
  | strs w => strs (f w)
  | list w => list (f w)

/-- The name of the buffer. -/
def storage (a : Arr α) : Site := a.read (·.storage)

/-- The number of elements. -/
def len (a : Arr α) : Nat := a.read (·.len)

/-- Where the window starts in its buffer. -/
def off (a : Arr α) : Nat := a.read (·.off)

/-- The flags of the handle. -/
def flags (a : Arr α) : Flags := a.read (·.flags)

/-- The same handle with other flags. -/
def setFlags (a : Arr α) (flags : Flags) : Arr α := a.update ({ · with flags })

/-- An array without elements on a new buffer. -/
def empty (s : Site) : Kind → Arr α
  | .bools => bools (.ofList s [])
  | .ints => ints (.ofList s [])
  | .floats => floats (.ofList s [])
  | .strs => strs (.ofList s [])
  | .list => list (.ofList s [])

/-- The window lies inside its buffer. -/
def InBounds : Arr α → Prop
  | bools w => w.InBounds
  | ints w => w.InBounds
  | floats w => w.InBounds
  | strs w => w.InBounds
  | list w => w.InBounds

instance : DecidablePred (InBounds (α := α))
  | bools w => inferInstanceAs (Decidable w.InBounds)
  | ints w => inferInstanceAs (Decidable w.InBounds)
  | floats w => inferInstanceAs (Decidable w.InBounds)
  | strs w => inferInstanceAs (Decidable w.InBounds)
  | list w => inferInstanceAs (Decidable w.InBounds)

@[simp] theorem kind_update (f : ∀ {β : Type}, Window β → Window β) (a : Arr α) :
    (a.update f).kind = a.kind := by
  cases a <;> rfl

@[simp] theorem flags_setFlags (a : Arr α) (flags : Flags) : (a.setFlags flags).flags = flags := by
  cases a <;> rfl

@[simp] theorem kind_empty (s : Site) (k : Kind) : (empty s k : Arr α).kind = k := by
  cases k <;> rfl

/-- The elements as values. Truth values are the integers 0 and 1. -/
def values : Arr Value → List Value
  | bools w => w.items.map fun b => .int (if b then 1 else 0)
  | ints w => w.items.map .int
  | floats w => w.items.map .float
  | strs w => w.items.map .str
  | list w => w.items

theorem values_eq_nil {a : Arr Value} (h : a.len = 0) : a.values = [] := by
  cases a <;> simp_all [len, read, values, Window.items, stretch]

theorem length_values {a : Arr Value} (h : a.InBounds) : a.values.length = a.len := by
  cases a <;> simp only [values, List.length_map] <;> exact Window.InBounds.length_items h

/-- Two handles on the same stretch of one buffer. -/
def sameWindow (a b : Arr α) : Bool :=
  a.kind == b.kind && a.storage == b.storage && a.off == b.off && a.len == b.len

end Arr

/-- A dictionary without entries, its arrays made below `s`. -/
def Dict.empty {α : Type} (s : Site) : Dict α :=
  ⟨.empty (s.sub 0) .list, .empty (s.sub 1) .list⟩

/-- The number of entries. -/
def Dict.len {α : Type} (d : Dict α) : Nat := d.keys.len

/-- A dictionary from arrays of equal length. -/
def Dict.ofArrays? (keys vals : Arr Value) : Result (Dict Value) :=
  if keys.len = vals.len then .ok ⟨keys, vals⟩
  else .error (.length "dict keys vs values" keys.len vals.len)

namespace Value

/-- The name of the type of a value, as it stands in messages. -/
def typeName : Value → String
  | nil => "nil"
  | int _ => "int"
  | float _ => "float"
  | str _ => "string"
  | builtin _ => "builtin"
  | array a => a.kind.name
  | dict .. => "dict"
  | error .. => "error"
  | lambda .. => "lambda"
  | compose .. => "derived"
  | project .. => "derived"

/-- The values that can be called. -/
def isFunction : Value → Bool
  | builtin _ | lambda .. | compose .. | project .. => true
  | _ => false

/-- The values that a path can lead through. -/
def isContainer : Value → Bool
  | array _ | dict .. => true
  | _ => false

/-- The error values. -/
def isError : Value → Bool
  | error .. => true
  | _ => false

/-- The array that the value is. -/
def array? : Value → Option (Arr Value)
  | array a => some a
  | _ => none

/-- The integer that the value is. -/
def int? : Value → Option Int64
  | int n => some n
  | _ => none

/-- The number that the value is, as a float. -/
def float? : Value → Option Double
  | float x => some x
  | int n => some (.ofInt n)
  | _ => none

/-- The string that the value is. -/
def str? : Value → Option String
  | str s => some s
  | _ => none

/-- The number of elements or entries of a container. -/
def len? : Value → Option Nat
  | array a => some a.len
  | dict _ d => some d.len
  | _ => none

/-- The neutral value of the type of `v`; containers are empty, and new objects are made at
`s`. -/
def neutral (s : Site) (v : Value) : Value :=
  match v with
  | int _ => .int 0
  | float _ => .float 0
  | str _ => .str ""
  | array a => .array (.empty s a.kind)
  | dict .. => .dict s (.empty s)
  | _ => .nil

end Value

/-- The value that pads the array: the neutral value of its element type, for a list that of its
first element. -/
def Arr.padding (s : Site) : Arr Value → Value
  | bools _ => .int 0
  | ints _ => .int 0
  | floats _ => .float 0
  | strs _ => .str ""
  | list w => (w.items.head?.map (Value.neutral s)).getD .nil

end SharedArrays
