import SharedArrays.Proofs.Origin.Amend
import SharedArrays.Proofs.Closed.Calls

/-!
# The way of a failure

A failure arises in some call, function body or amend, and travels outwards through whatever runs
that, up to the entry point by text. Every amend on the way offers its name, and only the first
name stays. So the text that the entry point answers begins with the innermost amend on the way,
unless the function in which the failure arose had named an operation already.

The answer of a call is never an error value, whatever functions are nested in each other, so an
error value that the entry point answers always reports a failure.

## Main definitions

* `Run` — what can fail: a call, the body of a user function, an amend
* `Passes` — a part of a run whose failure ends the run
* `Trail` — where a failure arose, and the amends it has passed on its way

## Main results

* `Passes.answer` — a run that is ended by a part fails as the part does
* `Trail.op` — the operation that a failure names, read off its way
* `callAmend_reports` — what the entry point by text answers
-/

namespace SharedArrays

variable {settings : Settings}

/-! ## Runs and their parts -/

/-- What can fail. -/
inductive Run where
  /-- A call of a function value. -/
  | call (f : Value) (s : Site) (args : List Value)
  /-- The body of a user function, or a part of it. -/
  | body (held : List Value) (b : Body Value) (s : Site) (args : List Value)
  /-- An amend. -/
  | amend (form : Form) (c : Scope) (x y f : Value) (z : Option Value)

namespace Run

/-- The answer of a run. -/
def answer (settings : Settings) : Run → Result Value
  | call f s args => f.apply settings s args
  | body held b s args => b.eval settings held s args
  | amend form c x y f z => x.amended settings form c y f z

/-- How a run is written, if it is an amend. -/
def text? : Run → Option String
  | amend form _ _ _ f z => some (amendText form.symbol f z.isSome)
  | _ => none

/-- The operation that a user function names in the failure that it answers. -/
def attached : Run → Option String
  | body _ (.fail e) _ _ => e.op
  | _ => none

/-- A failure as it leaves the run. -/
def name (r : Run) (e : Failure Value) : Failure Value :=
  match r.text? with
  | some text => e.during text
  | none => e

/-- The size of the function that runs. -/
noncomputable def size : Run → Nat
  | call f _ _ => 2 * sizeOf f
  | body _ b _ _ => 2 * sizeOf b
  | amend _ _ _ _ f _ => 2 * sizeOf f + 1

end Run

/-- The branch that an answer chooses is the second one. -/
def Value.declines : Value → Bool
  | .nil => true
  | .int n => n = 0
  | _ => false

/-- The amend `x` at `y` by a function, whose calls are answered one way or another, before the
failure takes on the name of the amend. -/
def amendWithAnswers (settings : Settings) (form : Form) (c : Scope) (x y f : Value)
    (z : Option Value) (g : CallAnswers) : Outcome Value :=
  match form with
  | .flat => x.amend settings c y ⟨f, g⟩ z
  | .path => x.amendPath settings c y ⟨f, g⟩ z

/-- `Passes settings part r`: the run `r` comes to `part`, and if `part` fails, `r` ends there with
the failure of `part`. -/
inductive Passes (settings : Settings) : Run → Run → Prop where
  | lambda {t name arity body s} {args : List Value} (h : args.length = arity) :
    Passes settings (.body (.lambda t name arity body :: args) body s args)
      (.call (.lambda t name arity body) s args)
  | inner {t outer inner s args} :
    Passes settings (.call inner (s.sub 0) args) (.call (.compose t outer inner) s args)
  | outer {t outer inner s args v} (h : inner.apply settings (s.sub 0) args = .ok v) :
    Passes settings (.call outer (s.sub 1) [v]) (.call (.compose t outer inner) s args)
  | filled {t g bound s} {args : List Value} (h : args.length = holes bound) :
    Passes settings (.call g s ((fillHoles bound args).filterMap id))
      (.call (.project t g bound) s args)
  | argument {held f bs b rest s args vs}
    (h : evalAll settings held bs s 1 args = .ok vs) :
    Passes settings (.body held b (s.sub (bs.length + 1)) args)
      (.body held (.call f (bs ++ b :: rest)) s args)
  | function {held f bs s args vs} (h : evalAll settings held bs s 1 args = .ok vs) :
    Passes settings (.call f (s.sub 0) vs) (.body held (.call f bs) s args)
  | payload {held b s args} :
    Passes settings (.body held b (s.sub 0) args) (.body held (.raise b) s args)
  | condition {held c t e s args} :
    Passes settings (.body held c (s.sub 0) args) (.body held (.branch c t e) s args)
  | accepted {held c t e s args v} (h : c.eval settings held (s.sub 0) args = .ok v)
    (hv : v.declines = false) :
    Passes settings (.body held t (s.sub 2) args) (.body held (.branch c t e) s args)
  | declined {held c t e s args v} (h : c.eval settings held (s.sub 0) args = .ok v)
    (hv : v.declines = true) :
    Passes settings (.body held e (s.sub 1) args) (.body held (.branch c t e) s args)
  | container {held form x y f s args} :
    Passes settings (.body held x (s.sub 0) args) (.body held (.amend form x y f) s args)
  | index {held form x y f s args vx} (h : x.eval settings held (s.sub 0) args = .ok vx) :
    Passes settings (.body held y (s.sub 1) args) (.body held (.amend form x y f) s args)
  | amend {held form x y f s args vx vy} (hx : x.eval settings held (s.sub 0) args = .ok vx)
    (hy : y.eval settings held (s.sub 1) args = .ok vy) :
    Passes settings (.amend form ⟨held ++ [vy], s.sub 3⟩ vx vy f none)
      (.body held (.amend form x y f) s args)
  | containerWith {held form x y f z s args} :
    Passes settings (.body held x (s.sub 0) args) (.body held (.amendWith form x y f z) s args)
  | indexWith {held form x y f z s args vx} (h : x.eval settings held (s.sub 0) args = .ok vx) :
    Passes settings (.body held y (s.sub 1) args) (.body held (.amendWith form x y f z) s args)
  | operandWith {held form x y f z s args vx vy}
    (hx : x.eval settings held (s.sub 0) args = .ok vx)
    (hy : y.eval settings held (s.sub 1) args = .ok vy) :
    Passes settings (.body held z (s.sub 2) args) (.body held (.amendWith form x y f z) s args)
  | amendWith {held form x y f z s args vx vy vz}
    (hx : x.eval settings held (s.sub 0) args = .ok vx)
    (hy : y.eval settings held (s.sub 1) args = .ok vy)
    (hz : z.eval settings held (s.sub 2) args = .ok vz) :
    Passes settings (.amend form ⟨held ++ [vy, vz], s.sub 3⟩ vx vy f (some vz))
      (.body held (.amendWith form x y f z) s args)
  | step {form c x y f z s args}
    (h : EndedBy (f.apply settings) (amendWithAnswers settings form c x y f z) s args) :
    Passes settings (.call f s args) (.amend form c x y f z)

theorem evalAll_append (settings : Settings) (held : List Value) (bs cs : List (Body Value))
    (s : Site) (i : Nat) (args : List Value) :
    evalAll settings held (bs ++ cs) s i args =
      (do let vs ← evalAll settings held bs s i args
          let us ← evalAll settings held cs s (bs.length + i) args
          return vs ++ us) := by
  induction bs generalizing i with
  | nil =>
    simp only [List.nil_append, evalAll, List.length_nil, Nat.zero_add]
    cases evalAll settings held cs s i args <;> rfl
  | cons b bs ih =>
    simp only [List.cons_append, evalAll, ih, List.length_cons]
    rw [show bs.length + (i + 1) = bs.length + 1 + i by omega]
    cases b.eval settings held (s.sub i) args with
    | error e => rfl
    | ok v =>
      cases evalAll settings held bs s (i + 1) args with
      | error e => rfl
      | ok vs => cases evalAll settings held cs s (bs.length + 1 + i) args <;> rfl

theorem amended_eq (form : Form) (c : Scope) (x y f : Value) (z : Option Value) :
    x.amended settings form c y f z =
      match (amendWithAnswers settings form c x y f z (f.apply settings)).failure with
      | some e => .error (e.during (amendText form.symbol f z.isSome))
      | none => .ok (amendWithAnswers settings form c x y f z (f.apply settings)).slot := by
  have hslot : x.amended settings form c y f z =
      Outcome.toResult ⟨(amendWithAnswers settings form c x y f z (f.apply settings)).slot,
        (amendWithAnswers settings form c x y f z (f.apply settings)).failure.map
          (·.during (amendText form.symbol f z.isSome))⟩ := by
    cases form <;> rfl
  rw [hslot]
  cases (amendWithAnswers settings form c x y f z (f.apply settings)).failure <;> rfl

theorem amended_error_iff {form : Form} {c : Scope} {x y f : Value} {z : Option Value}
    {e : Failure Value} :
    x.amended settings form c y f z = .error e ↔
      ∃ e₀, (amendWithAnswers settings form c x y f z (f.apply settings)).failure = some e₀ ∧
        e = e₀.during (amendText form.symbol f z.isSome) := by
  rw [amended_eq]
  cases (amendWithAnswers settings form c x y f z (f.apply settings)).failure with
  | none => simp
  | some e₀ => simp [eq_comm]

theorem eval_branch (held : List Value) (c t e : Body Value) (s : Site) (args : List Value) :
    (Body.branch c t e).eval settings held s args =
      (do let v ← c.eval settings held (s.sub 0) args
          if v.declines then e.eval settings held (s.sub 1) args
          else t.eval settings held (s.sub 2) args) := by
  simp only [Body.eval]
  cases c.eval settings held (s.sub 0) args with
  | error e => rfl
  | ok v =>
    cases v with
    | int n => by_cases hn : n = 0 <;> simp [bind, Except.bind, Value.declines, hn]
    | _ => rfl

/-- A run that comes to a part which fails, fails itself, with the same failure up to its own
name. -/
theorem Passes.answer {part r : Run} (h : Passes settings part r) {e : Failure Value}
    (he : part.answer settings = .error e) : r.answer settings = .error (r.name e) := by
  cases h with
  | step h => exact amended_error_iff.2 ⟨e, h _ (.refl _) e he, rfl⟩
  | lambda h =>
    simp only [Run.answer] at he
    simp only [Run.answer, Value.apply, h, if_true, he]
    rfl
  | filled h =>
    simp only [Run.answer] at he
    simp only [Run.answer, Value.apply, h, Nat.lt_irrefl, if_false]
    exact he
  | argument h =>
    simp only [Run.answer] at he
    simp only [Run.answer, Body.eval, evalAll_append, h, evalAll, bind, Except.bind, he]
    rfl
  | accepted h hv =>
    simp only [Run.answer, eval_branch, h, bind, Except.bind, hv]
    exact he
  | declined h hv =>
    simp only [Run.answer, eval_branch, h, bind, Except.bind, hv]
    exact he
  | amend hx hy =>
    simp only [Run.answer, Body.eval, hx, hy, bind, Except.bind]
    exact he
  | amendWith hx hy hz =>
    simp only [Run.answer, Body.eval, hx, hy, hz, bind, Except.bind]
    exact he
  | _ =>
    simp only [Run.answer] at he
    simp_all only [Run.answer, Value.apply, Body.eval, bind, Except.bind]
    rfl

/-- The parts of a run are smaller. -/
theorem Passes.size_lt {part r : Run} (h : Passes settings part r) : part.size < r.size := by
  cases h with
  | @argument held f bs b rest s args vs h =>
    have : sizeOf b < sizeOf (bs ++ b :: rest) := List.sizeOf_lt_of_mem (by simp)
    simp only [Run.size, Body.call.sizeOf_spec]
    omega
  | _ => simp [Run.size] <;> omega

/-! ## Where failures arise -/

/-- The run fails with `e`, and no part of it does. -/
def Arises (settings : Settings) (r : Run) (e : Failure Value) : Prop :=
  r.answer settings = .error e ∧
    ∀ part, Passes settings part r → ∀ e', part.answer settings ≠ .error e'

theorem exists_argument_of_error {held : List Value} {bs : List (Body Value)} {s : Site} {i : Nat}
    {args : List Value} {e : Failure Value} (h : evalAll settings held bs s i args = .error e) :
    ∃ bs₁ b rest vs, bs = bs₁ ++ b :: rest ∧ evalAll settings held bs₁ s i args = .ok vs ∧
      b.eval settings held (s.sub (bs₁.length + i)) args = .error e := by
  induction bs generalizing i with
  | nil => cases h
  | cons b bs ih =>
    simp only [evalAll] at h
    cases hb : b.eval settings held (s.sub i) args with
    | error e' =>
      rw [hb] at h
      cases h
      exact ⟨[], b, bs, [], rfl, rfl, by simpa using hb⟩
    | ok v =>
      cases hbs : evalAll settings held bs s (i + 1) args with
      | ok vs =>
        rw [hb, hbs] at h
        cases h
      | error e' =>
        rw [hb, hbs] at h
        cases h
        obtain ⟨bs₁, b', rest, vs, rfl, hvs, he⟩ := ih hbs
        refine ⟨b :: bs₁, b', rest, v :: vs, rfl, by simp only [evalAll, hb, hvs]; rfl, ?_⟩
        rwa [List.length_cons, show bs₁.length + 1 + i = bs₁.length + (i + 1) by omega]

theorem Arises.op_call {f : Value} {s : Site} {args : List Value} {e : Failure Value}
    (h : Arises settings (.call f s args) e) : e.op = none := by
  obtain ⟨he, hparts⟩ := h
  simp only [Run.answer] at he
  -- Only amends name themselves in failures, and those of a body are parts of the run.
  refine unnamed_iff.1 (?_ : Unnamed (f.apply settings s args)) e he
  cases f with
  | builtin b =>
    refine unnamed_bind ?_ fun v _ => unnamed_settle v
    split
    · exact unnamed_monadic ..
    · exact unnamed_dyadic ..
    · exact rfl
  | lambda t name arity body =>
    simp only [Value.apply]
    split
    · rename_i harity
      cases hb : body.eval settings (.lambda t name arity body :: args) s args with
      | error e' => exact absurd hb (hparts _ (.lambda harity) e')
      | ok v => exact unnamed_settle v
    · exact rfl
  | compose t outer inner =>
    simp only [Value.apply]
    cases hi : inner.apply settings (s.sub 0) args with
    | error e' => exact absurd hi (hparts _ .inner e')
    | ok v =>
      cases ho : outer.apply settings (s.sub 1) [v] with
      | error e' => exact absurd ho (hparts _ (.outer hi) e')
      | ok u => simp only [bind, Except.bind, ho, unnamed_ok]
  | project t g bound =>
    simp only [Value.apply]
    split
    · exact rfl
    · split
      · exact unnamed_ok _
      · cases hg : g.apply settings s ((fillHoles bound args).filterMap id) with
        | error e' => exact absurd hg (hparts _ (.filled (by omega)) e')
        | ok v => exact unnamed_ok v
  | _ => exact rfl

theorem Arises.op_amend {form : Form} {c : Scope} {x y f : Value} {z : Option Value}
    {e : Failure Value} (h : Arises settings (.amend form c x y f z) e) :
    e.op = some (amendText form.symbol f z.isSome) := by
  obtain ⟨he, hparts⟩ := h
  obtain ⟨e₀, he₀, rfl⟩ := amended_error_iff.1 he
  have hfate : Fate (f.apply settings) (amendWithAnswers settings form c x y f z) := by
    cases form with
    | flat => exact fate_amend c x y z
    | path => exact fate_amendPath c x y z
  cases hfate with
  | through done _ => cases done.symm.trans he₀
  | itself e' bare same =>
    cases (same _ (.refl _)).symm.trans he₀
    simp only [Failure.during, bare]
    rfl
  | call s args e' fails ends => exact absurd fails (hparts _ (.step ends) e')

theorem Arises.op_body {held : List Value} {b : Body Value} {s : Site} {args : List Value}
    {e : Failure Value} (h : Arises settings (.body held b s args) e) :
    e.op = (Run.body held b s args).attached := by
  obtain ⟨he, hparts⟩ := h
  -- A failure that a part of the run hands on has not arisen in the run.
  have habsurd {part : Run} {e' : Failure Value} {p : Prop}
      (hpart : Passes settings part (.body held b s args)) (he : part.answer settings = .error e') :
      p := absurd he (hparts part hpart e')
  cases b with
  | arg k => cases he
  | const v => cases he
  | fail e₀ =>
    cases he
    rfl
  | call f bs =>
    simp only [Run.answer, Body.eval] at he
    cases hbs : evalAll settings held bs s 1 args with
    | error e' =>
      obtain ⟨bs₁, b, rest, vs, rfl, hvs, hb⟩ := exists_argument_of_error hbs
      exact habsurd (.argument hvs) hb
    | ok vs =>
      rw [hbs] at he
      exact habsurd (.function hbs) he
  | raise b =>
    simp only [Run.answer, Body.eval] at he
    cases hb : b.eval settings held (s.sub 0) args with
    | error e' => exact habsurd .payload hb
    | ok v =>
      rw [hb] at he
      cases he
  | branch c t e =>
    simp only [Run.answer, eval_branch] at he
    cases hc : c.eval settings held (s.sub 0) args with
    | error e' => exact habsurd .condition hc
    | ok v =>
      rw [hc] at he
      cases hv : v.declines with
      | false =>
        simp only [bind, Except.bind, hv] at he
        exact habsurd (.accepted hc hv) he
      | true =>
        simp only [bind, Except.bind, hv] at he
        exact habsurd (.declined hc hv) he
  | amend form x y f =>
    simp only [Run.answer, Body.eval] at he
    cases hx : x.eval settings held (s.sub 0) args with
    | error e' => exact habsurd .container hx
    | ok vx =>
      cases hy : y.eval settings held (s.sub 1) args with
      | error e' => exact habsurd (.index hx) hy
      | ok vy =>
        rw [hx, hy] at he
        exact habsurd (.amend hx hy) he
  | amendWith form x y f z =>
    simp only [Run.answer, Body.eval] at he
    cases hx : x.eval settings held (s.sub 0) args with
    | error e' => exact habsurd .containerWith hx
    | ok vx =>
      cases hy : y.eval settings held (s.sub 1) args with
      | error e' => exact habsurd (.indexWith hx) hy
      | ok vy =>
        cases hz : z.eval settings held (s.sub 2) args with
        | error e' => exact habsurd (.operandWith hx hy) hz
        | ok vz =>
          rw [hx, hy, hz] at he
          exact habsurd (.amendWith hx hy hz) he

/-- A failure that arises in a run names the amend that the run is, or else what a user function
has attached, or nothing. -/
theorem Arises.op {r : Run} {e : Failure Value} (h : Arises settings r e) :
    e.op = (r.attached <|> r.text?) := by
  cases r with
  | call f s args => exact h.op_call
  | body held b s args =>
    rw [h.op_body]
    cases (Run.body held b s args).attached <;> rfl
  | amend form c x y f z => exact h.op_amend

/-! ## Trails -/

/-- `Trail settings origin texts r`: the run `r` fails with a failure that arose in `origin`, and
`texts` are the amends that it has passed since then, the innermost first. -/
inductive Trail (settings : Settings) : Run → List String → Run → Prop where
  | arises {r : Run} {e : Failure Value} (h : Arises settings r e) :
    Trail settings r r.text?.toList r
  | passes {origin part r : Run} {texts : List String} (h : Trail settings origin texts part)
    (hpart : Passes settings part r) : Trail settings origin (texts ++ r.text?.toList) r

/-- What fails has a trail. -/
theorem exists_trail {r : Run} {e : Failure Value} (h : r.answer settings = .error e) :
    ∃ origin texts, Trail settings origin texts r := by
  induction hn : r.size using Nat.strongRecOn generalizing r e with
  | ind n ih =>
    by_cases hparts : ∃ part e', Passes settings part r ∧ part.answer settings = .error e'
    · obtain ⟨part, e', hpart, he'⟩ := hparts
      obtain ⟨origin, texts, htrail⟩ := ih part.size (hn ▸ hpart.size_lt) he' rfl
      exact ⟨origin, _, htrail.passes hpart⟩
    · exact ⟨r, _, .arises ⟨h, fun part hpart e' he' => hparts ⟨part, e', hpart, he'⟩⟩⟩

/-- What has a trail fails, with the cause of the run in which the failure arose. The operation
that the failure names is the one that a user function attached to it, or else the innermost amend
on the trail. -/
theorem Trail.answer {origin r : Run} {texts : List String} (h : Trail settings origin texts r) :
    ∃ e₀ e, origin.answer settings = .error e₀ ∧ r.answer settings = .error e ∧
      e.cause = e₀.cause ∧ e.op = (origin.attached <|> texts.head?) := by
  induction h with
  | arises h =>
    refine ⟨_, _, h.1, h.1, rfl, ?_⟩
    rw [h.op]
    cases origin.text? <;> rfl
  | @passes part r texts h hpart ih =>
    obtain ⟨e₀, e, he₀, he, hcause, hop⟩ := ih
    refine ⟨e₀, r.name e, he₀, hpart.answer he, ?_, ?_⟩
    · unfold Run.name
      split <;> exact hcause
    · unfold Run.name
      cases hr : r.text? with
      | none => simpa using hop
      | some text =>
        cases texts <;> cases ha : origin.attached <;>
          simp_all [Failure.during]

theorem Trail.texts_ne_nil {origin : Run} {texts : List String} {form : Form} {c : Scope}
    {x y f : Value} {z : Option Value}
    (h : Trail settings origin texts (.amend form c x y f z)) : texts ≠ [] := by
  cases h <;> simp [Run.text?]

/-! ## Answers that are no error values -/

theorem isError_settle {u v : Value} (h : u.settle = .ok v) : v.isError = false := by
  cases u <;> cases h <;> rfl

/-- A call never answers an error value. -/
theorem isError_apply {f : Value} {s : Site} {args : List Value} {v : Value}
    (h : f.apply settings s args = .ok v) : v.isError = false := by
  induction hn : sizeOf f using Nat.strongRecOn generalizing f s args with
  | ind n ih =>
    subst hn
    cases f with
    | builtin b =>
      obtain ⟨u, -, hu⟩ := bind_eq_ok.1 h
      exact isError_settle hu
    | lambda t name arity body =>
      simp only [Value.apply] at h
      split at h
      · obtain ⟨u, -, hu⟩ := bind_eq_ok.1 h
        exact isError_settle hu
      · cases h
    | compose t outer inner =>
      obtain ⟨u, -, hu⟩ := bind_eq_ok.1 h
      exact ih (sizeOf outer) (by simp only [Value.compose.sizeOf_spec]; omega) hu rfl
    | project t g bound =>
      simp only [Value.apply] at h
      split at h
      · cases h
      · split at h
        · cases h
          rfl
        · exact ih (sizeOf g) (by simp only [Value.project.sizeOf_spec]; omega) h rfl
    | _ => cases h

theorem isError_amend {c : Scope} {x y : Value} {f : Callee} {z : Option Value}
    (h : (x.amend settings c y f z).failure = none) :
    (x.amend settings c y f z).slot.isError = false := by
  cases x with
  | array a => rfl
  | dict s d => rfl
  | _ => cases h

/-- Along a path without components stands what the function answers, and along any other path a
container. -/
theorem isError_amendAlong {c : Scope} {path : List Value} {x f : Value} {z : Option Value}
    (h : (Value.amendAlong settings (.ofValue settings f) path c x z).failure = none) :
    (Value.amendAlong settings (.ofValue settings f) path c x z).slot.isError = false := by
  cases path with
  | nil =>
    simp only [Value.amendAlong] at h ⊢
    split at h
    · rename_i v hv
      exact isError_apply hv
    · cases h
  | cons y path =>
    cases path with
    | nil => exact isError_amend h
    | cons next rest =>
      cases x with
      | array a =>
        simp only [Value.amendAlong] at h ⊢
        split <;> first | rfl | (split <;> rfl)
      | dict s d =>
        simp only [Value.amendAlong] at h ⊢
        split <;> first | rfl | (split <;> rfl)
      | _ => cases h

theorem isError_amended {form : Form} {c : Scope} {x y f v : Value} {z : Option Value}
    (h : x.amended settings form c y f z = .ok v) : v.isError = false := by
  rw [amended_eq] at h
  cases hf : (amendWithAnswers settings form c x y f z (f.apply settings)).failure with
  | some e =>
    rw [hf] at h
    cases h
  | none =>
    rw [hf] at h
    cases h
    cases form with
    | flat => exact isError_amend hf
    | path =>
      simp only [amendWithAnswers, Value.amendPath] at hf ⊢
      split at hf
      · cases hf
      · rw [if_neg ‹_›]
        exact isError_amendAlong hf

/-! ## The entry point by text -/

theorem amendOfArgs_eq {form : Form} {verb : String} {args : List Value} {x y f : Value}
    {z : Option Value} (c : Scope) (hverb : verb = form.symbol)
    (hargs : args = x :: y :: f :: z.toList) :
    amendOfArgs settings c verb args = x.amended settings form (c.beside args) y f z := by
  subst hverb hargs
  cases form <;> cases z <;> rfl

/-- Either the number of arguments is wrong, or the text is no form of an amend, or an amend is
asked for. -/
theorem amendOfArgs_cases (settings : Settings) (c : Scope) (verb : String) (args : List Value) :
    (¬ (args.length = 3 ∨ args.length = 4) ∧
      amendOfArgs settings c verb args = .error (.arity verb "3-4" args.length)) ∨
    ((verb ≠ "@" ∧ verb ≠ ".") ∧ amendOfArgs settings c verb args =
      .error (.domain ("unknown amend operator " ++ verb))) ∨
    ∃ (form : Form) (x y f : Value) (z : Option Value), verb = form.symbol ∧
      args = x :: y :: f :: z.toList := by
  by_cases hlength : args.length = 3 ∨ args.length = 4
  · right
    obtain ⟨x, y, f, z, hargs⟩ : ∃ (x y f : Value) (z : Option Value),
        args = x :: y :: f :: z.toList := by
      rcases args with _ | ⟨x, _ | ⟨y, _ | ⟨f, _ | ⟨z, _ | ⟨u, rest⟩⟩⟩⟩⟩ <;>
        simp only [List.length_nil, List.length_cons] at hlength <;> try omega
      · exact ⟨x, y, f, none, rfl⟩
      · exact ⟨x, y, f, some z, rfl⟩
    by_cases hflat : verb = "@"
    · exact .inr ⟨.flat, x, y, f, z, hflat, hargs⟩
    by_cases hpath : verb = "."
    · exact .inr ⟨.path, x, y, f, z, hpath, hargs⟩
    refine .inl ⟨⟨hflat, hpath⟩, ?_⟩
    have hnone : Form.ofSymbol? verb = none := by
      simp [Form.ofSymbol?, Form.symbol, Ne.symm hflat, Ne.symm hpath]
    have hensure : (Failure.ensureArity verb 3 4 args.length : Result Unit) = .ok () := by
      unfold Failure.ensureArity
      rw [if_neg (by omega)]
    simp only [amendOfArgs, hensure, hnone]
    rfl
  · refine .inl ⟨hlength, ?_⟩
    have hensure : (Failure.ensureArity verb 3 4 args.length : Result Unit) =
        .error (.arity verb "3-4" args.length) := by
      unfold Failure.ensureArity
      rw [if_pos (by omega)]
      rfl
    simp only [amendOfArgs, hensure]
    rfl

/-- A failure that names an operation, or that no value was raised with, is reported by its
text. -/
theorem ofFailure_eq {e : Failure Value} (h : e.cause.holdsValue = false ∨ e.op ≠ none)
    (s : Site) : Value.ofFailure s e = .error s (.str e.text) := by
  unfold Value.ofFailure
  split
  · rename_i v hcause hop
    rcases h with h | h
    · simp [hcause, Cause.holdsValue] at h
    · exact absurd hop h
  · rfl

theorem isSome_op_amended {form : Form} {c : Scope} {x y f : Value} {z : Option Value}
    {e : Failure Value} (h : x.amended settings form c y f z = .error e) : e.op ≠ none := by
  obtain ⟨e₀, -, rfl⟩ := amended_error_iff.1 h
  cases hop : e₀.op <;> simp [Failure.during, hop]

theorem callAmend_of_error {c : Scope} {verb : String} {args : List Value} {e : Failure Value}
    (h : amendOfArgs settings (c.sub 0) verb args = .error e) :
    callAmend settings c verb args = .error (c.site.sub 1) (.str e.text) := by
  unfold callAmend
  rw [h]
  refine ofFailure_eq ?_ _
  rcases amendOfArgs_cases settings (c.sub 0) verb args with ⟨-, heq⟩ | ⟨-, heq⟩ |
    ⟨form, x, y, f, z, hverb, hargs⟩
  · cases heq.symm.trans h
    exact .inl rfl
  · cases heq.symm.trans h
    exact .inl rfl
  · rw [amendOfArgs_eq _ hverb hargs] at h
    exact .inr (isSome_op_amended h)

theorem text_of_trail {form : Form} {c : Scope} {x y f : Value} {z : Option Value}
    {e : Failure Value} (he : x.amended settings form c y f z = .error e) {origin : Run}
    {text : String} {outer : List String}
    (h : Trail settings origin (text :: outer) (.amend form c x y f z)) :
    e.text = origin.attached.getD text ++ ": " ++ e.cause.text := by
  obtain ⟨e₀, e', -, he', -, hop⟩ := h.answer
  cases he'.symm.trans he
  have hsome : e.op = some (origin.attached.getD text) := by
    rw [hop]
    cases origin.attached <;> rfl
  simp only [Failure.text, Failure.message, hsome]
  rfl

/-- The entry point by text never confuses success and failure. It answers an error value just if
the number of arguments is wrong, the text is no form of an amend, or the amend fails. Every
failure is reported by its whole text; that of an amend begins with the operation that the
function in which it arose had named, or else with the innermost amend it has passed. -/
theorem callAmend_reports (settings : Settings) (c : Scope) (verb : String) (args : List Value) :
    ((callAmend settings c verb args).isError = true ↔
      ¬ (args.length = 3 ∨ args.length = 4) ∨ (verb ≠ "@" ∧ verb ≠ ".") ∨
        ∃ (form : Form) (x y f : Value) (z : Option Value) (e : Failure Value),
          verb = form.symbol ∧ args = x :: y :: f :: z.toList ∧
            x.amended settings form ((c.sub 0).beside args) y f z = .error e) ∧
    (∀ v, amendOfArgs settings (c.sub 0) verb args = .ok v → callAmend settings c verb args = v) ∧
    (∀ e, amendOfArgs settings (c.sub 0) verb args = .error e →
      callAmend settings c verb args = .error (c.site.sub 1) (.str e.text)) ∧
    (∀ (form : Form) (x y f : Value) (z : Option Value) (e : Failure Value),
      verb = form.symbol → args = x :: y :: f :: z.toList →
      x.amended settings form ((c.sub 0).beside args) y f z = .error e →
        amendOfArgs settings (c.sub 0) verb args = .error e ∧
        (∃ origin text outer, Trail settings origin (text :: outer)
          (.amend form ((c.sub 0).beside args) x y f z)) ∧
        ∀ origin text outer,
          Trail settings origin (text :: outer) (.amend form ((c.sub 0).beside args) x y f z) →
            e.text = origin.attached.getD text ++ ": " ++ e.cause.text) ∧
    ∀ (f : Value) (s : Site) (args : List Value) (v : Value),
      f.apply settings s args = .ok v → v.isError = false := by
  have hok (v : Value) (h : amendOfArgs settings (c.sub 0) verb args = .ok v) :
      callAmend settings c verb args = v := by
    unfold callAmend
    rw [h]
  refine ⟨?_, hok, fun e => callAmend_of_error, ?_, fun f s args v => isError_apply⟩
  · rcases amendOfArgs_cases settings (c.sub 0) verb args with ⟨hlength, heq⟩ | ⟨hverb, heq⟩ |
      ⟨form, x, y, f, z, hverb, hargs⟩
    · rw [callAmend_of_error heq]
      exact ⟨fun _ => .inl hlength, fun _ => rfl⟩
    · rw [callAmend_of_error heq]
      exact ⟨fun _ => .inr (.inl hverb), fun _ => rfl⟩
    · have heq := @amendOfArgs_eq settings _ _ _ _ _ _ _ (c.sub 0) hverb hargs
      cases h : x.amended settings form ((c.sub 0).beside args) y f z with
      | error e =>
        rw [callAmend_of_error (heq.trans h)]
        exact ⟨fun _ => .inr (.inr ⟨form, x, y, f, z, e, hverb, hargs, h⟩), fun _ => rfl⟩
      | ok v =>
        rw [hok v (heq.trans h), isError_amended h]
        refine ⟨nofun, ?_⟩
        rintro (hlength | ⟨hflat, hpath⟩ | ⟨form', x', y', f', z', e, hverb', hargs', he⟩)
        · subst hargs
          cases z <;> simp at hlength
        · cases form
          · exact absurd hverb hflat
          · exact absurd hverb hpath
        · have hfails := (@amendOfArgs_eq settings _ _ _ _ _ _ _ (c.sub 0) hverb' hargs').trans he
          cases hfails.symm.trans (heq.trans h)
  · intro form x y f z e hverb hargs he
    refine ⟨(amendOfArgs_eq _ hverb hargs).trans he, ?_, fun _ _ _ => text_of_trail he⟩
    obtain ⟨origin, texts, htrail⟩ :=
      exists_trail (r := .amend form ((c.sub 0).beside args) x y f z) he
    obtain ⟨text, outer, rfl⟩ := List.exists_cons_of_ne_nil htrail.texts_ne_nil
    exact ⟨origin, text, outer, htrail⟩

/-- The inner function raises the integer 7 in an amend of its own, which names itself; the amend
around it adds nothing. -/
theorem callAmend_reports_inner :
    let inner : Value := .lambda (.step 1) "inner" 1 (.raise (.const (.int 7)))
    let outer : Value := .lambda (.step 2) "outer" 1 (.amend .flat (.arg 0) (.const .nil) inner)
    let row : Value := .array (.ints (.ofList (.step 3) [5]))
    let x : Value := .array (.list (.ofList (.step 4) [row]))
    (callAmend {} ⟨[], .step 5⟩ "@" [x, .int 0, outer]).isError = true ∧
      callAmend {} ⟨[], .step 5⟩ "@" [x, .int 0, outer] =
        .error ((Site.step 5).sub 1) (.str "@[x;y;inner]: 7") ∧
      ∃ origin text outside, Trail {} origin (text :: outside)
          (.amend .flat ⟨[x, .int 0, outer], (Site.step 5).sub 0⟩ x (.int 0) outer none) ∧
        "@[x;y;inner]: 7" = origin.attached.getD text ++ ": " ++ "7" := by
  intro inner outer row x
  obtain ⟨hiff, -, hwhole, hnamed, -⟩ :=
    callAmend_reports {} ⟨[], .step 5⟩ "@" [x, .int 0, outer]
  have he : x.amended {} .flat ⟨[x, .int 0, outer], (Site.step 5).sub 0⟩ (.int 0) outer none =
      .error ⟨.raised (.int 7), some "@[x;y;inner]", none⟩ := rfl
  obtain ⟨hfails, ⟨origin, text, outside, htrail⟩, htext⟩ :=
    hnamed .flat x (.int 0) outer none _ rfl rfl he
  exact ⟨hiff.2 (.inr (.inr ⟨.flat, x, .int 0, outer, none, _, rfl, rfl, he⟩)),
    hwhole _ hfails, origin, text, outside, htrail, htext origin text outside htrail⟩

end SharedArrays
