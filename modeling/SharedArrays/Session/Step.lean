import SharedArrays.Session.Command
import SharedArrays.Interface

/-!
# Steps of a session

A step first reads its operands. They stay alive while the step is carried out, and so do the
registers; after the step only the registers remain. A change takes the content out of its
register, so that the register itself does not count as another handle.

## Main definitions

* `Session` — registers, settings and the number of steps so far
* `Production.run`, `Change.run`, `Session.answer` — carrying out commands
* `Session.step`, `Session.run` — steps of a session
-/

namespace SharedArrays

/-- The state of a session. -/
structure Session where
  settings : Settings := {}
  registers : Registers := []
  /-- The number of steps so far, which names the site of the next one. -/
  steps : Nat := 0

/-- An operand that has to be an array. -/
def Value.toArr (v : Value) : Except Refusal (Arr Value) :=
  match v with
  | .array a => .ok a
  | _ => .error .notArray

/-- An operand that has to be a dictionary. -/
def Value.toDict (v : Value) : Except Refusal (Dict Value) :=
  match v with
  | .dict _ d => .ok d
  | _ => .error .notDict

/-- The part of a value to which a way leads. -/
def Value.part? (v : Value) : List Part → Option Value
  | [] => some v
  | p :: ps =>
    match v, p with
    | .array (.list w), .element i => (w.items[i]?).bind (·.part? ps)
    | .dict _ d, .keys => part? (.array d.keys) ps
    | .dict _ d, .vals => part? (.array d.vals) ps
    | _, _ => none

/-- Carries out a production. Beside the operands, `c` tells what is alive. -/
def Production.run (settings : Settings) (c : Scope) :
    Production Value → Except Refusal (Result Value)
  | .value x => .ok (.ok x)
  | .amend form x y f z =>
    .ok (x.amended settings form (c.beside (y :: f :: z.toList)) y f z)
  | .apply f args => .ok (f.apply settings c.site args)
  | .callAmend verb args => .ok (.ok (SharedArrays.callAmend settings c verb args))
  | .merge left right f => do
    let l ← left.toDict
    let r ← right.toDict
    return (l.merge settings (c.beside [left, right, f]) r f).map (.dict c.site)
  | .monadic b x => .ok (b.monadic c.site x)
  | .dyadic b x y => .ok (b.dyadic c.site x y)
  | .list items => .ok (.ok (.array (.ofValues c.site items)))
  | .dict keys vals =>
    .ok <| match keys, vals with
      | .array k, .array v => (Dict.ofArrays? k v).map (.dict c.site)
      | .array _, v => .error (.type "array" v.typeName)
      | k, _ => .error (.type "array" k.typeName)
  | .canonical x => .ok (.ok (x.canonical c))
  | .til n => .ok (.ok (.array (.til c.site n)))
  | .empty kind => .ok (.ok (.array (.empty c.site kind)))
  | .emptyDict => .ok (.ok (.dict c.site (.empty c.site)))
  | .get x i => do return (← x.toArr).get i
  | .slice x i j => do return ((← x.toArr).slice i j).map .array
  | .select x ps => do return ((← x.toArr).select c.site ps).map .array
  | .concat x y => do return .ok (.array ((← x.toArr).concat c.site (← y.toArr)))
  | .padding x => do return .ok ((← x.toArr).padding c.site)
  | .copy x => do return .ok (.array ((← x.toArr).copy c.site))
  | .reuse x => do return .ok (.array ((← x.toArr).makePrivate c))
  | .adopt container v => do return .ok ((← container.toArr).adopt (c.beside [container]) v)

/-- The operands of a change, which are alive while it is carried out. -/
def Change.operands : Change Value → List Value
  | .amend _ y f z => y :: f :: z.toList
  | .setAt _ v => [v]
  | .put _ v => [v]
  | .push v => [v]
  | .extend w => [w]
  | .appendKey k => [k]
  | .appendEntries keys vals => [keys, vals]
  | _ => []

/-- A change that went through. -/
def changed (v : Value) (a : Answer) : Value × Result Answer := (v, .ok a)

/-- Carries out a change of the value `x`. Beside the value, `c` tells what is alive. -/
def Change.run (settings : Settings) (c : Scope) (x : Value) :
    Change Value → Except Refusal (Value × Result Answer)
  | .amend form y f z =>
    let o := x.amendSlot settings form c y f z
    .ok (o.slot, o.toResult.map fun _ => .nothing)
  | .setAt i v => do
    match (← x.toArr).set c i v with
    | .ok a => return changed (.array a) .nothing
    | .error v => return changed x (.refused v)
  | .put i v => do return changed (.array ((← x.toArr).put c i v)) .nothing
  | .push v => do return changed (.array ((← x.toArr).push c v)) .nothing
  | .extend w => do
    match (← x.toArr).extend? c (← w.toArr) with
    | some a => return changed (.array a) .nothing
    | none => throw .notArray
  | .asList => do return changed (.array ((← x.toArr).asList c.site)) .nothing
  | .appendKey k =>
    match x with
    | .dict s d =>
      .ok (changed (.dict (c.own s) (d.appendKey (c.sub 0) k)) (.position (some d.len)))
    | _ => throw .notDict
  | .appendEntries keys vals =>
    match x with
    | .dict s d => do
      match d.append? (c.site.sub 0) (← keys.toArr) (← vals.toArr) with
      | .ok d => return changed (.dict (c.own s) d) .nothing
      | .error e => return (.dict (c.own s) d, .error e)
    | _ => throw .notDict
  | .setFlags flags => do return changed (.array ((← x.toArr).setFlags flags)) .nothing
  | .pin => do return changed (.array (← x.toArr).pin) .nothing
  | .freeze => .ok (changed (x.freeze c) .nothing)
  | .makePrivate => do
    let a ← x.toArr
    return changed (.array (a.makePrivate c)) (.flag (!a.isPrivate c))

/-- The value at a location. -/
def Registers.locate (rs : Registers) (l : Location) : Except Refusal Value :=
  match rs.get? l.register with
  | none => .error (.noRegister l.register)
  | some v => (v.part? l.parts).elim (.error .noPart) .ok

/-- The owners of a value, when `roots` are all values outside of objects. -/
def Value.ownership (roots : List Value) (v : Value) : Ownership :=
  { sole := v.isSole roots
    shares := v.array?.map fun a => handleCount roots a.storage
    flags := v.array?.map Arr.flags }

/-- Answers a question. -/
def Question.answer (registers : Registers) (s : Site) :
    Question Value → Except Refusal (Result Answer)
  | .at x i => do return .ok (.element ((← x.toArr).at? i))
  | .find x v => do return .ok (.position ((← x.toArr).find? v))
  | .canStore x v => do return .ok (.flag ((← x.toArr).canStore v))
  | .lookup d k => do
    let d ← d.toDict
    return .ok (.lookup (d.find? k) (d.get? k) d.len)
  | .positions d keys threshold => do
    return .ok (.positions ((← d.toDict).positions (← keys.toArr) threshold))
  | .display x => .ok (.ok (.text x.text))
  | .equal x y => .ok (.ok (.flag (x.eqv y)))
  | .describe x => .ok (.ok (.description ⟨x, x.neutral s⟩))
  | .symbol t => .ok (.ok (.symbol (Builtin.ofSymbol? t)))
  | .amendText verb f dyadic => .ok (.ok (.text (SharedArrays.amendText verb f dyadic)))
  | .ownership l => do
    return .ok (.ownership ((← registers.locate l).ownership registers.contents))
  | .sameness l m => do
    let a ← (← registers.locate l).toArr
    let b ← (← registers.locate m).toArr
    return .ok (.sameness (a.storage == b.storage) (a.sameWindow b))
  | .failure e => .ok (.ok (.failure e e.cause.text (.ofFailure s e)))
  | .arity name args lo hi =>
    .ok ((Failure.ensureArity name lo hi args.length).map fun _ => .nothing)
  | .settings t p i defaults loops limit threshold =>
    let chosen := if defaults then {} else Settings.ofTexts t p i
    .ok (.ok (.settings
      { typedLoops := loops.getD chosen.typedLoops
        pathLimit := limit.getD chosen.pathLimit
        indexThreshold := threshold.getD chosen.indexThreshold }))

namespace Session

/-- Carries out one command. -/
def step (σ : Session) (command : Command Term) : Except Refusal (Session × Reply) := do
  let site := Site.step σ.steps
  let next : Session := { σ with steps := σ.steps + 1 }
  -- Operands are made at the sites 1, 2, … below the step, and site 0 is left to the command.
  let read {α : Type} (r : Reading α) : Except Refusal (α × Registers) := do
    let (a, registers, _) ← r.run (σ.registers, 1)
    return (a, registers)
  match command with
  | .produce p dest =>
    let (p, registers) ← read (p.mapM (Reading.operand site))
    let answer ← p.run σ.settings ⟨registers.contents, site.sub 0⟩
    let registers := match answer, dest with
      | .ok v, some name => registers.set name v
      | _, _ => registers
    return ({ next with registers }, ⟨answer.map .value, none⟩)
  | .change name c =>
    let (c, registers) ← read (c.mapM (Reading.operand site))
    match registers.get? name with
    | none => throw (.noRegister name)
    | some x =>
      -- The slot is none of the handles that the change has to respect.
      let others := registers.erase name
      let (x, answer) ← c.run σ.settings ⟨others.contents ++ c.operands, site.sub 0⟩ x
      return ({ next with registers := others.set name x }, ⟨answer, some x⟩)
  | .ask q =>
    let (q, registers) ←
      read (q.mapM (Reading.operand site) fun e => e.read (site.sub 0))
    return ({ next with registers }, ⟨← q.answer registers (site.sub 0), none⟩)
  | .drop name =>
    return ({ next with registers := σ.registers.erase name }, ⟨.ok .nothing, none⟩)

end Session

end SharedArrays
