import SharedArrays.Value.Basic

/-!
# Registers and terms

A session keeps values in named registers. A step of a session states its operands as terms: a
literal makes new objects, a reference makes one more handle on the content of a register, and
taking a register moves its content out.

## Main definitions

* `Registers` — named values
* `Term` — operands as a step states them
* `Refusal` — why a step cannot be carried out at all
* `Reading` — reading operands, which uses up registers and sites
* `Term.read` — the value of a term
-/

namespace SharedArrays

/-- Named values; the names differ from each other. -/
abbrev Registers := List (String × Value)

namespace Registers

/-- The content of a register. -/
def get? (rs : Registers) (name : String) : Option Value := rs.lookup name

/-- The other registers. -/
def erase (rs : Registers) (name : String) : Registers := rs.filter (·.1 != name)

/-- The registers with a new content of one of them. -/
def set (rs : Registers) (name : String) (v : Value) : Registers := (name, v) :: rs.erase name

/-- The contents of all registers. -/
def contents (rs : Registers) : List Value := rs.map (·.2)

theorem get?_set (rs : Registers) (name : String) (v : Value) :
    (rs.set name v).get? name = some v := by
  simp [get?, set]

end Registers

/-- An operand as a step states it. -/
inductive Term where
  | nil
  | int (n : Int64)
  | float (x : Double)
  | str (s : String)
  | builtin (b : Builtin)
  | bools (flags : Flags) (xs : List Bool)
  | ints (flags : Flags) (xs : List Int64)
  | floats (flags : Flags) (xs : List Double)
  | strs (flags : Flags) (xs : List String)
  /-- A list, stored as it is given. -/
  | list (flags : Flags) (items : List Term)
  | dict (keys vals : Term)
  | error (t : Term)
  | lambda (name : String) (arity : Nat) (body : Body Term)
  | compose (outer inner : Term)
  | project (f : Term) (args : List (Option Term))
  /-- One more handle on the content of a register. -/
  | ref (register : String)
  /-- The content of a register, which the register loses. -/
  | take (register : String)

/-- Why a step cannot be carried out at all. -/
inductive Refusal where
  | noRegister (name : String)
  | notArray
  | notDict
  | badDict
  | noPart
deriving Repr

/-- The text of a refusal. -/
def Refusal.message : Refusal → String
  | noRegister name => "no register " ++ name
  | notArray => "not an array"
  | notDict => "not a dictionary"
  | badDict => "not the keys and values of a dictionary"
  | noPart => "no such part"

/-- Reading operands from registers; the number counts the operands that have been read. -/
abbrev Reading := StateT (Registers × Nat) (Except Refusal)

mutual

/-- The value of a term, whose new objects are made at the site `s` and below. -/
def Term.read (s : Site) : Term → Reading Value
  | .nil => pure .nil
  | .int n => pure (.int n)
  | .float x => pure (.float x)
  | .str t => pure (.str t)
  | .builtin b => pure (.builtin b)
  | .bools flags xs => pure (.array (.bools (.ofList s xs flags)))
  | .ints flags xs => pure (.array (.ints (.ofList s xs flags)))
  | .floats flags xs => pure (.array (.floats (.ofList s xs flags)))
  | .strs flags xs => pure (.array (.strs (.ofList s xs flags)))
  | .list flags items => do
    return .array (.list (.ofList s (← readTerms s 0 items) flags))
  | .dict keys vals => do
    match ← keys.read (s.sub 0), ← vals.read (s.sub 1) with
    | .array keys, .array vals =>
      match Dict.ofArrays? keys vals with
      | .ok d => return .dict s d
      | .error _ => throw .badDict
    | _, _ => throw .badDict
  | .error t => do return .error s (← t.read (s.sub 0))
  | .lambda name arity body => do return .lambda s name arity (← body.read (s.sub 0))
  | .compose outer inner => do
    let outer ← outer.read (s.sub 0)
    let inner ← inner.read (s.sub 1)
    return .compose s outer inner
  | .project f args => do
    let f ← f.read (s.sub 0)
    let args ← readArgs s 1 args
    return .project s f args
  | .ref name => do
    match (← get).1.get? name with
    | some v => return v
    | none => throw (.noRegister name)
  | .take name => do
    let (registers, n) ← get
    match registers.get? name with
    | some v =>
      set (registers.erase name, n)
      return v
    | none => throw (.noRegister name)

/-- The values of terms, the first at the `i`-th site below `s`. -/
def readTerms (s : Site) (i : Nat) : List Term → Reading (List Value)
  | [] => pure []
  | t :: ts => do
    let v ← t.read (s.sub i)
    let vs ← readTerms s (i + 1) ts
    return v :: vs

/-- The arguments that a projection binds; a hole stays a hole. -/
def readArgs (s : Site) (i : Nat) : List (Option Term) → Reading (List (Option Value))
  | [] => pure []
  | none :: ts => do return none :: (← readArgs s (i + 1) ts)
  | some t :: ts => do
    let v ← t.read (s.sub i)
    let vs ← readArgs s (i + 1) ts
    return some v :: vs

/-- The body of a user function; its constants are read once, when the function is made. -/
def Body.read (s : Site) : Body Term → Reading (Body Value)
  | .arg k => pure (.arg k)
  | .const t => do return .const (← t.read s)
  | .call f args => do
    let f ← f.read (s.sub 0)
    let args ← readBodies s 1 args
    return .call f args
  | .raise b => do return .raise (← b.read (s.sub 0))
  | .fail e => do return .fail (← e.read s)
  | .branch c t e => do
    let c ← c.read (s.sub 0)
    let t ← t.read (s.sub 1)
    let e ← e.read (s.sub 2)
    return .branch c t e
  | .amend form x y f => do
    let x ← x.read (s.sub 0)
    let y ← y.read (s.sub 1)
    let f ← f.read (s.sub 2)
    return .amend form x y f
  | .amendWith form x y f z => do
    let x ← x.read (s.sub 0)
    let y ← y.read (s.sub 1)
    let f ← f.read (s.sub 2)
    let z ← z.read (s.sub 3)
    return .amendWith form x y f z

/-- Bodies in a row. -/
def readBodies (s : Site) (i : Nat) : List (Body Term) → Reading (List (Body Value))
  | [] => pure []
  | b :: bs => do
    let b ← b.read (s.sub i)
    let bs ← readBodies s (i + 1) bs
    return b :: bs

/-- A failure; the value that it may hold is a term. -/
def Failure.read (s : Site) : Failure Term → Reading (Failure Value)
  | ⟨.outOfBounds index len, op, hint⟩ => pure ⟨.outOfBounds index len, op, hint⟩
  | ⟨.length what expected got, op, hint⟩ => pure ⟨.length what expected got, op, hint⟩
  | ⟨.type expected got, op, hint⟩ => pure ⟨.type expected got, op, hint⟩
  | ⟨.depth got, op, hint⟩ => pure ⟨.depth got, op, hint⟩
  | ⟨.domain message, op, hint⟩ => pure ⟨.domain message, op, hint⟩
  | ⟨.arity name expected got, op, hint⟩ => pure ⟨.arity name expected got, op, hint⟩
  | ⟨.raised t, op, hint⟩ => do return ⟨.raised (← t.read s), op, hint⟩

end

/-- The value of the next operand of a step, made below the site `s`. -/
def Reading.operand (s : Site) (t : Term) : Reading Value := do
  let (registers, n) ← get
  set (registers, n + 1)
  t.read (s.sub n)

end SharedArrays
