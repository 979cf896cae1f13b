import SharedArrays.Session.Term
import SharedArrays.Settings

/-!
# Commands and replies

The commands of a session come in four forms. A production answers a value, which may go into a
register. A change works on the content of a register in place. A question looks at values.
Dropping removes a register. Commands are stated over a type of operands, which are terms when a
command is given and values when it is carried out.

## Main definitions

* `Production`, `Change`, `Question`, `Command` — the commands
* `Part` — the way from a register to an array or a dictionary inside of it
* `Answer`, `Reply` — what a command answers
* `Production.mapM`, `Change.mapM`, `Question.mapM` — reading the operands, from left to right
-/

namespace SharedArrays

/-- A command that answers a value. -/
inductive Production (τ : Type) where
  | value (x : τ)
  | amend (form : Form) (x y f : τ) (z : Option τ)
  | apply (f : τ) (args : List τ)
  /-- An amend whose form is given as text. -/
  | callAmend (verb : String) (args : List τ)
  | merge (left right f : τ)
  | monadic (b : Builtin) (x : τ)
  | dyadic (b : Builtin) (x y : τ)
  /-- An array in canonical storage. -/
  | list (items : List τ)
  | dict (keys vals : τ)
  | canonical (x : τ)
  | til (n : Nat)
  | empty (kind : Kind)
  | emptyDict
  | get (x : τ) (i : Int64)
  | slice (x : τ) (i j : Nat)
  | select (x : τ) (ps : List Nat)
  | concat (x y : τ)
  | padding (x : τ)
  | copy (x : τ)
  /-- The array itself if it is private, else a copy. -/
  | reuse (x : τ)
  | adopt (container v : τ)

/-- A command that changes the content of a register. -/
inductive Change (τ : Type) where
  | amend (form : Form) (y f : τ) (z : Option τ)
  | setAt (i : Nat) (v : τ)
  | put (i : Nat) (v : τ)
  | push (v : τ)
  | extend (w : τ)
  | asList
  | appendKey (k : τ)
  | appendEntries (keys vals : τ)
  | setFlags (flags : Flags)
  | pin
  | freeze
  | makePrivate

/-- One step of the way from a value to an array or a dictionary inside of it. -/
inductive Part where
  | element (i : Nat)
  | keys
  | vals
deriving DecidableEq, Repr

/-- A value inside of a register. -/
structure Location where
  register : String
  parts : List Part
deriving DecidableEq, Repr

/-- A command that looks at values and settings. -/
inductive Question (τ : Type) where
  | at (x : τ) (i : Nat)
  | find (x v : τ)
  | canStore (x v : τ)
  | lookup (d k : τ)
  | positions (d keys : τ) (threshold : Nat)
  | display (x : τ)
  | equal (x y : τ)
  | describe (x : τ)
  | symbol (s : String)
  | amendText (verb : String) (f : τ) (dyadic : Bool)
  | ownership (l : Location)
  | sameness (a b : Location)
  | failure (e : Failure τ)
  | arity (name : String) (args : List τ) (lo hi : Nat)
  /-- The settings in effect when the environment variables have these texts; `defaults` puts all
  of them back, and then some are chosen. -/
  | settings (typedLoops pathLimit indexThreshold : Option String) (defaults : Bool)
      (loops : Option Bool) (limit threshold : Option Nat)

/-- A command of a session. -/
inductive Command (τ : Type) where
  | produce (p : Production τ) (dest : Option String)
  | change (register : String) (c : Change τ)
  | ask (q : Question τ)
  | drop (register : String)

/-- What is known about a value. -/
structure Description where
  value : Value
  neutral : Value

/-- The owners of a value. -/
structure Ownership where
  /-- A change in place could be seen through no other handle. -/
  sole : Bool
  /-- The number of handles on the buffer, for arrays. -/
  shares : Option Nat
  /-- The flags of the handle, for arrays. -/
  flags : Option Flags
deriving Repr

/-- The answer of a command that went through. -/
inductive Answer where
  | nothing
  | value (v : Value)
  | flag (b : Bool)
  | text (s : String)
  | position (p : Option Nat)
  | positions (ps : List (Option Nat))
  | element (v : Option Value)
  /-- The array cannot store the value. -/
  | refused (v : Value)
  | lookup (position : Option Nat) (value : Option Value) (len : Nat)
  | description (d : Description)
  | symbol (b : Option Builtin)
  | ownership (o : Ownership)
  | sameness (storage window : Bool)
  /-- A failure, the text of its cause, and the failure as a value. -/
  | failure (e : Failure Value) (inner : String) (value : Value)
  | settings (s : Settings)

/-- The answer of a command, or its failure, and the content of the register that a change
worked on. -/
structure Reply where
  answer : Result Answer
  slot : Option Value := none

section MapM

variable {m : Type → Type} [Monad m] {τ υ : Type}

/-- Applies an action to the operands. -/
def Production.mapM (f : τ → m υ) : Production τ → m (Production υ)
  | .value x => do return .value (← f x)
  | .amend form x y g z => do return .amend form (← f x) (← f y) (← f g) (← z.mapM f)
  | .apply g args => do return .apply (← f g) (← args.mapM f)
  | .callAmend verb args => do return .callAmend verb (← args.mapM f)
  | .merge left right g => do return .merge (← f left) (← f right) (← f g)
  | .monadic b x => do return .monadic b (← f x)
  | .dyadic b x y => do return .dyadic b (← f x) (← f y)
  | .list items => do return .list (← items.mapM f)
  | .dict keys vals => do return .dict (← f keys) (← f vals)
  | .canonical x => do return .canonical (← f x)
  | .til n => return .til n
  | .empty kind => return .empty kind
  | .emptyDict => return .emptyDict
  | .get x i => do return .get (← f x) i
  | .slice x i j => do return .slice (← f x) i j
  | .select x ps => do return .select (← f x) ps
  | .concat x y => do return .concat (← f x) (← f y)
  | .padding x => do return .padding (← f x)
  | .copy x => do return .copy (← f x)
  | .reuse x => do return .reuse (← f x)
  | .adopt container v => do return .adopt (← f container) (← f v)

/-- Applies an action to the operands. -/
def Change.mapM (f : τ → m υ) : Change τ → m (Change υ)
  | .amend form y g z => do return .amend form (← f y) (← f g) (← z.mapM f)
  | .setAt i v => do return .setAt i (← f v)
  | .put i v => do return .put i (← f v)
  | .push v => do return .push (← f v)
  | .extend w => do return .extend (← f w)
  | .asList => return .asList
  | .appendKey k => do return .appendKey (← f k)
  | .appendEntries keys vals => do return .appendEntries (← f keys) (← f vals)
  | .setFlags flags => return .setFlags flags
  | .pin => return .pin
  | .freeze => return .freeze
  | .makePrivate => return .makePrivate

/-- Applies `f` to the operands that are values, and `g` to the one that is a failure. -/
def Question.mapM (f : τ → m υ) (g : Failure τ → m (Failure υ)) :
    Question τ → m (Question υ)
  | .at x i => do return .at (← f x) i
  | .find x v => do return .find (← f x) (← f v)
  | .canStore x v => do return .canStore (← f x) (← f v)
  | .lookup d k => do return .lookup (← f d) (← f k)
  | .positions d keys threshold => do return .positions (← f d) (← f keys) threshold
  | .display x => do return .display (← f x)
  | .equal x y => do return .equal (← f x) (← f y)
  | .describe x => do return .describe (← f x)
  | .symbol s => return .symbol s
  | .amendText verb x dyadic => do return .amendText verb (← f x) dyadic
  | .ownership l => return .ownership l
  | .sameness a b => return .sameness a b
  | .failure e => do return .failure (← g e)
  | .arity name args lo hi => do return .arity name (← args.mapM f) lo hi
  | .settings t p i defaults loops limit threshold =>
    return .settings t p i defaults loops limit threshold

end MapM

end SharedArrays
