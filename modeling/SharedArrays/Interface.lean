import SharedArrays.Call

/-!
# The interface for embedding programs

What a program that embeds the language calls: amends by value and in place, merging, and an
entry point that takes the form of the amend as text and answers a failure as an error value.

## Main definitions

* `Value.amendSlot`, `Value.amended` — amends of a slot, and amends that answer a value
* `Dict.merge` — merging dictionaries with any function
* `callAmend` — the entry point by text
-/

namespace SharedArrays

/-- Amends the content of a slot. What was written before a failure stays in the slot. -/
def Value.amendSlot (settings : Settings) (form : Form) (c : Scope) (x y f : Value)
    (z : Option Value) : Outcome Value :=
  x.amendBy settings form c y (.ofValue settings f) z

/-- The amended value, or the failure of the amend. -/
def Value.amended (settings : Settings) (form : Form) (c : Scope) (x y f : Value)
    (z : Option Value) : Result Value :=
  (x.amendSlot settings form c y f z).toResult

/-- The dictionary `l` with the entries of `r`: a common key takes `f` of both values, and the other
entries of `r` are appended. -/
def Dict.merge (settings : Settings) (c : Scope) (l r : Dict Value) (f : Value) :
    Result (Dict Value) :=
  l.mergeWith (c.site.sub 0) settings.indexThreshold (fun common vals => do
    let z ← r.vals.select (c.site.sub 1) (common.map (·.2))
    (vals.amendAt settings ((c.sub 2).beside [.array l.vals]) (.many (common.map (·.1)))
      (.ofValue settings f) (some (.array z))).toResult) r

/-- The form of an amend that is written with a symbol. -/
def Form.ofSymbol? (s : String) : Option Form :=
  [Form.flat, .path].find? (·.symbol == s)

/-- An amend whose form is given as text, with the container, the index, the function and perhaps a
right operand as arguments. The arguments stay alive. -/
def amendOfArgs (settings : Settings) (c : Scope) (verb : String) (args : List Value) :
    Result Value := do
  Failure.ensureArity verb 3 4 args.length
  match Form.ofSymbol? verb, args with
  | some form, x :: y :: f :: z => x.amended settings form (c.beside args) y f z.head?
  | _, _ => .error (.domain ("unknown amend operator " ++ verb))

/-- An amend whose form is given as text; a failure is answered as an error value. -/
def callAmend (settings : Settings) (c : Scope) (verb : String) (args : List Value) : Value :=
  match amendOfArgs settings (c.sub 0) verb args with
  | .ok v => v
  | .error e => .ofFailure (c.site.sub 1) e

end SharedArrays
