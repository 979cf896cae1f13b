import SharedArrays.Amend.Path
import SharedArrays.Operators
import SharedArrays.Value.Text

/-!
# Calling functions

Operators, user functions, compositions and projections can be called. The body of a user
function may amend values itself, with the settings of the program that called it. An error
value that a function answers is a failure of the call.

## Main definitions

* `amendText` — how an amend is written, for messages
* `Value.amendBy` — an amend of either form, which notes on failures how it is written
* `fillHoles` — the arguments of a projection
* `Value.apply`, `Body.eval` — calling a function value, and running a body
* `Callee.ofValue` — a function value in the role of an update function
-/

namespace SharedArrays

/-- How an amend is written, for instance `@[x;y;+;z]`. -/
def amendText (verb : String) (f : Value) (dyadic : Bool) : String :=
  let name := match f with
    | .builtin b => b.symbol
    | .lambda _ name _ _ => name
    | _ => "f"
  verb ++ "[x;y;" ++ name ++ (if dyadic then ";z]" else "]")

/-- The value `x` amended by the function `f`, at the index or along the path `y`. A failure names
the amend. -/
def Value.amendBy (settings : Settings) (form : Form) (c : Scope) (x y : Value) (f : Callee)
    (z : Option Value) : Outcome Value :=
  let o := match form with
    | .flat => x.amend settings c y f z
    | .path => x.amendPath settings c y f z
  ⟨o.slot, o.failure.map (·.during (amendText form.symbol f.value z.isSome))⟩

/-- The number of arguments that a projection waits for. -/
def holes (bound : List (Option Value)) : Nat := bound.countP (·.isNone)

/-- Fills the holes of a projection from the left. -/
def fillHoles : List (Option Value) → List Value → List (Option Value)
  | [], _ => []
  | some v :: bound, args => some v :: fillHoles bound args
  | none :: bound, [] => none :: fillHoles bound []
  | none :: bound, v :: args => some v :: fillHoles bound args

mutual

/-- Calls a function value. What the call makes is made at the site `s` and below. -/
def Value.apply (settings : Settings) (f : Value) (s : Site) (args : List Value) : Result Value :=
  match f with
  | .builtin b =>
    (match args with
      | [x] => b.monadic s x
      | [x, y] => b.dyadic s x y
      | _ => .error (.arity b.symbol "1-2" args.length)) >>= Value.settle
  | .lambda t name arity body =>
    if args.length = arity then
      body.eval settings (.lambda t name arity body :: args) s args >>= Value.settle
    else .error (.arity name (toString arity) args.length)
  | .compose _ outer inner => do
    let v ← inner.apply settings (s.sub 0) args
    outer.apply settings (s.sub 1) [v]
  | .project t g bound =>
    if holes bound < args.length then
      .error (.arity (Value.project t g bound).text (toString (holes bound)) args.length)
    -- Too few arguments make a projection that waits for the others.
    else if args.length < holes bound then .ok (.project s g (fillHoles bound args))
    else g.apply settings s ((fillHoles bound args).filterMap id)
  | other => .error (.type "function" other.typeName)
termination_by structural f

/-- Runs the body of a user function. `held` is what the running function keeps alive: itself and
its arguments. -/
def Body.eval (settings : Settings) (held : List Value) (b : Body Value) (s : Site)
    (args : List Value) : Result Value :=
  match b with
  | .arg k => .ok (args[k]?.getD .nil)
  | .const v => .ok v
  | .call f bs => do
    let vs ← evalAll settings held bs s 1 args
    f.apply settings (s.sub 0) vs
  | .raise b => do return .error s (← b.eval settings held (s.sub 0) args)
  | .fail e => .error e
  | .branch c t e => do
    match ← c.eval settings held (s.sub 0) args with
    | .nil => e.eval settings held (s.sub 1) args
    | .int n =>
      if n = 0 then e.eval settings held (s.sub 1) args else t.eval settings held (s.sub 2) args
    | _ => t.eval settings held (s.sub 2) args
  | .amend form x y f => do
    -- What `x` shares with the rest of the program, it shares with an argument or a constant.
    let x ← x.eval settings held (s.sub 0) args
    let y ← y.eval settings held (s.sub 1) args
    (x.amendBy settings form ⟨held ++ [y], s.sub 3⟩ y ⟨f, f.apply settings⟩ none).toResult
  | .amendWith form x y f z => do
    let x ← x.eval settings held (s.sub 0) args
    let y ← y.eval settings held (s.sub 1) args
    let z ← z.eval settings held (s.sub 2) args
    (x.amendBy settings form ⟨held ++ [y, z], s.sub 3⟩ y ⟨f, f.apply settings⟩
      (some z)).toResult
termination_by structural b

/-- Runs bodies one after the other, the first at the `i`-th site below `s`. -/
def evalAll (settings : Settings) (held : List Value) (bs : List (Body Value)) (s : Site) (i : Nat)
    (args : List Value) : Result (List Value) :=
  match bs with
  | [] => .ok []
  | b :: bs => do
    let v ← b.eval settings held (s.sub i) args
    let vs ← evalAll settings held bs s (i + 1) args
    return v :: vs
termination_by structural bs

end

/-- A function value in the role of an update function. -/
def Callee.ofValue (settings : Settings) (f : Value) : Callee := ⟨f, f.apply settings⟩

end SharedArrays
