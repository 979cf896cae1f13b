import SharedArrays.Text.Blank

/-!
# Settings

What an embedding program may choose. None of the settings but the limit on paths changes an
answer; they choose between ways to the same answer. The settings can be read from the texts of
three environment variables, where a text that does not make sense counts as absent.

## Main definitions

* `Settings` — the settings and their defaults
* `Settings.ofTexts` — reading them
-/

namespace SharedArrays

/-- What an embedding program may choose. -/
structure Settings where
  /-- Run the loops for single storage variants where they apply. -/
  typedLoops : Bool := true
  /-- The longest path along which an amend may go. -/
  pathLimit : Nat := 64
  /-- The number of keys from which on a look-up of several keys goes through an index. -/
  indexThreshold : Nat := 32
deriving DecidableEq, Repr

/-- The value of a decimal digit. -/
def digit? (c : Char) : Option Nat :=
  if '0' ≤ c ∧ c ≤ '9' then some (c.toNat - '0'.toNat) else none

/-- The number that the digits denote, if there is a digit and a word of 64 bits can hold the
number. -/
def wordOfDigits? (cs : List Char) : Option Nat := do
  let digits ← cs.mapM digit?
  let n := digits.foldl (fun n d => 10 * n + d) 0
  if digits.isEmpty ∨ Nat.pow 2 64 ≤ n then none else some n

/-- A count: decimal digits, perhaps after a plus sign, between blanks. -/
def readCount? (text : String) : Option Nat :=
  match trimBlanks text.toList with
  | '+' :: cs => wordOfDigits? cs
  | cs => wordOfDigits? cs

/-- A switch: one of the four words for on or the four words for off, in letters of either case,
between blanks. -/
def readSwitch? (text : String) : Option Bool :=
  let word := String.ofList ((trimBlanks text.toList).map Char.toLower)
  if ["1", "true", "yes", "on"].contains word then some true
  else if ["0", "false", "no", "off"].contains word then some false
  else none

/-- Settings from the texts of environment variables. -/
def Settings.ofTexts (typedLoops pathLimit indexThreshold : Option String) : Settings :=
  let defaults : Settings := {}
  { typedLoops := (typedLoops.bind readSwitch?).getD defaults.typedLoops
    pathLimit := (pathLimit.bind readCount?).getD defaults.pathLimit
    indexThreshold := (indexThreshold.bind readCount?).getD defaults.indexThreshold }

end SharedArrays
