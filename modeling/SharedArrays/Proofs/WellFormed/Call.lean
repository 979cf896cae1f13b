import SharedArrays.Proofs.Closed.Calls
import SharedArrays.Proofs.WellFormed.Amend

/-!
# Calls keep values well-formed

Operators and amends keep values well-formed, so a function value whose constants are well-formed
answers well-formed values.

## Main results

* `wellFormed_amendBy` — amends with any function that answers well-formed values
* `fits_closedUnderCalls` — calls of function values, and running bodies
-/

namespace SharedArrays

variable {settings : Settings}

theorem wellFormed_amendBy {f : Callee} (hf : f.Safe) {form : Form} {c : Scope} {x y : Value}
    {z : Option Value} (hx : WellFormed x) (hy : WellFormed y) (hz : WellFormed z) :
    WellFormed (x.amendBy settings form c y f z) := by
  cases form with
  | flat => exact everywhere_noted.2 (wellFormed_amend hf hx hy hz)
  | path => exact everywhere_noted.2 (wellFormed_amendPath hf hx hy hz)

theorem fits_closedUnderCalls (settings : Settings) : ClosedUnderCalls settings Value.Fits where
  toClosedUnderOperators := fits_closedUnderOperators
  error _ _ := trivial
  project _ _ _ := trivial
  amendBy _ _ _ _ _ _ hf hx hy hz := wellFormed_amendBy hf hx hy hz

theorem safe_ofValue {f : Value} (hf : WellFormed f) : (Callee.ofValue settings f).Safe :=
  (fits_closedUnderCalls settings).ofValue hf

theorem wellFormed_eval {b : Body Value} (hb : WellFormed b) {held : List Value} {s : Site}
    {args : List Value} (hargs : WellFormed args) : WellFormed (b.eval settings held s args) :=
  (fits_closedUnderCalls settings).eval hb held s hargs

theorem wellFormed_amendSlot {form : Form} {c : Scope} {x y f : Value} {z : Option Value}
    (hx : WellFormed x) (hy : WellFormed y) (hf : WellFormed f) (hz : WellFormed z) :
    WellFormed (x.amendSlot settings form c y f z) :=
  (fits_closedUnderCalls settings).amendSlot hx hy hf hz

end SharedArrays
