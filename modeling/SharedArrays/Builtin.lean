/-!
# Built-in operators

The operators that a program can write as a value, for instance as the update function of an
amend. What they compute is in `SharedArrays.Operators`; this file holds their spelling.

## Main definitions

* `Builtin` — the operators
* `Builtin.symbol`, `Builtin.ofSymbol?` — their spelling, both ways
* `Builtin.isPredicate` — the operators that answer 0 or 1

## Main results

* `Builtin.ofSymbol?_eq_some_iff` — reading a symbol is the inverse of writing it
-/

namespace SharedArrays

/-- A built-in operator. Some have a form with one operand, some one with two, some both. -/
inductive Builtin where
  /-- `::`, the operand itself; of two operands the right one -/
  | identity
  /-- `:`, the right operand, which overwrites when it is used in an update -/
  | right
  | add
  /-- `-`, the difference, or the negation of a single operand -/
  | subtract
  | multiply
  /-- `%`, the quotient, always a float -/
  | divide
  /-- `~`, "is zero" of a single operand, "are equal as wholes" of two -/
  | not
  | min
  /-- `|`, the larger operand, or the reversal of a single array -/
  | max
  | equal
  | less
  | more
  /-- `,`, the concatenation, or the one-element array of a single operand -/
  | join
deriving DecidableEq, Repr

namespace Builtin

/-- Every operator once. -/
def all : List Builtin :=
  [identity, right, add, subtract, multiply, divide, not, min, max, equal, less, more, join]

/-- How the operator is written. -/
def symbol : Builtin → String
  | identity => "::"
  | right => ":"
  | add => "+"
  | subtract => "-"
  | multiply => "*"
  | divide => "%"
  | not => "~"
  | min => "&"
  | max => "|"
  | equal => "="
  | less => "<"
  | more => ">"
  | join => ","

/-- The operator that is written as `s`, if there is one. -/
def ofSymbol? (s : String) : Option Builtin := all.find? (·.symbol == s)

/-- The operators that answer 0 or 1 for a pair of atoms. -/
def isPredicate : Builtin → Bool
  | equal | less | more | not => true
  | _ => false

theorem mem_all (b : Builtin) : b ∈ all := by
  cases b <;> decide

theorem symbol_injective {a b : Builtin} (h : a.symbol = b.symbol) : a = b := by
  revert h; cases a <;> cases b <;> decide

theorem ofSymbol?_eq_some_iff {s : String} {b : Builtin} :
    ofSymbol? s = some b ↔ b.symbol = s := by
  constructor
  · intro h
    simpa using List.find?_some h
  · rintro rfl
    cases h : ofSymbol? b.symbol with
    | none => simpa using List.find?_eq_none.1 h b (mem_all b)
    | some c =>
      have hc : c.symbol = b.symbol := by simpa using List.find?_some h
      rw [symbol_injective hc]

end Builtin

end SharedArrays
