import SharedArrays.Value.Basic
import SharedArrays.Text.Decimal

/-!
# The text of values

Values are written the way a program would write them, as far as there is such a way.

## Main definitions

* `floatText`, `quoted` — the text of floats and of strings
* `Value.text`, `Arr.text` — the text of values and of arrays
* `Failure.text` — the text of a failure, with the text of the value that it may hold
* `Value.ofFailure` — a failure as an error value
-/

namespace SharedArrays

/-- The text of a float. A NaN is `0n`, the infinities are `0w` and `-0w`, and the sign of a zero
is kept. -/
def floatText (x : Double) : String :=
  let bits : Nat := x.bits.toNat
  let sign := if bits / Nat.pow 2 63 = 0 then "" else "-"
  -- The exponent is stored with a bias of 1023 + 52, and normal numbers hide their first bit.
  let biased : Nat := bits / Nat.pow 2 52 % Nat.pow 2 11
  let part : Nat := bits % Nat.pow 2 52
  if biased = 2047 then
    if part = 0 then sign ++ "0w" else "0n"
  else if biased = 0 then sign ++ Dyadic64.text ⟨part, -1074⟩
  else sign ++ Dyadic64.text ⟨Nat.pow 2 52 + part, (biased : Int) - 1075⟩

/-- A character as it stands between quotes. -/
def escaped : Char → String
  | '"' => "\\\""
  | '\\' => "\\\\"
  | '\n' => "\\n"
  | '\t' => "\\t"
  | c => c.toString

/-- A string between quotes. -/
def quoted (s : String) : String := "\"" ++ String.join (s.toList.map escaped) ++ "\""

/-- The text of a value that contains no further values. -/
def Value.textAtom : Value → String
  | .int n => toString n
  | .float x => floatText x
  | .str s => quoted s
  | .builtin b => b.symbol
  | .lambda _ name _ _ => name
  | _ => ""

/-- The text of an empty array. -/
def Kind.emptyText : Kind → String
  | bools => "!0"
  | ints => "!0"
  | floats => "0#0.0"
  | strs => "0#\"\""
  | list => "()"

mutual

/-- The text of a value. -/
def Value.text : Value → String
  | .array a => a.text
  | .dict _ ⟨keys, vals⟩ =>
    let keysText := keys.text
    (if keys.len = 1 ∨ keys.kind = .list then "(" ++ keysText ++ ")" else keysText) ++ "!" ++
      vals.text
  | .error _ v => "error[" ++ v.text ++ "]"
  | .compose _ outer inner => outer.text ++ inner.text
  | .project _ f args => f.text ++ "[" ++ ";".intercalate (argTexts args) ++ "]"
  | v => v.textAtom

/-- The text of an array. One element follows a comma; in a list it stands in brackets if it is an
array that does not start with a comma itself. -/
def Arr.text : Arr Value → String
  | .list ⟨_, buf, off, len, _⟩ =>
    match stretch off len buf, stretch off len (texts buf) with
    | [], _ => Kind.list.emptyText
    | [.array a], [t] => if a.len = 1 then "," ++ t else ",(" ++ t ++ ")"
    | [_], [t] => "," ++ t
    | _, ts => "(" ++ ";".intercalate ts ++ ")"
  | a =>
    match a.values with
    | [] => a.kind.emptyText
    | [v] => "," ++ v.textAtom
    | vs => " ".intercalate (vs.map Value.textAtom)

/-- The texts of the elements of a buffer. -/
def texts : List Value → List String
  | [] => []
  | v :: vs => v.text :: texts vs

/-- The texts of the arguments of a projection; a missing one has no text. -/
def argTexts : List (Option Value) → List String
  | [] => []
  | none :: vs => "" :: argTexts vs
  | some v :: vs => v.text :: argTexts vs

end

/-- The text of a cause. -/
def Cause.text (c : Cause Value) : String := c.message Value.text

/-- The text of a failure. -/
def Failure.text (e : Failure Value) : String := e.message Value.text

/-- A failure as an error value: what the function raised, if nothing was noted on the way, and
otherwise the text. -/
def Value.ofFailure (s : Site) (e : Failure Value) : Value :=
  match e.cause, e.op with
  | .raised v, none => .error s v
  | _, _ => .error s (.str e.text)

end SharedArrays
