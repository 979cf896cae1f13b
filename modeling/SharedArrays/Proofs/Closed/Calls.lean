import SharedArrays.Proofs.Closed.Operators
import SharedArrays.Interface

/-!
# Properties that calls keep

A property of handles that operators and amends keep is kept by all calls: a function value whose
constants have the property answers values with the property. The proof goes over function values
and bodies at the same time, since the body of a user function calls function values and uses them
for amends.

## Main definitions

* `Callee.Maintains` — a function that keeps a property
* `ClosedUnderCalls` — what function values, operators and amends make has a property that their
  parts have

## Main results

* `ClosedUnderCalls.call_cases` — calls of function values, and running bodies
* `ClosedUnderCalls.amendSlot`, `ClosedUnderCalls.callAmend` — amends with a function value
-/

namespace SharedArrays

variable {P : Value → Prop} {settings : Settings}

/-! ## Arguments -/

theorem everywhere_fillHoles {bound : List (Option Value)} {args : List Value}
    (hbound : Everywhere P bound) (hargs : Everywhere P args) :
    Everywhere P (fillHoles bound args) := by
  induction bound, args using fillHoles.induct with
  | case1 args => exact everywhere_empty
  | case2 args v bound ih =>
    obtain ⟨hv, hbound⟩ := (everywhere_cons ..).1 hbound
    exact (everywhere_cons ..).2 ⟨hv, ih hbound hargs⟩
  | case3 bound ih =>
    obtain ⟨hv, hbound⟩ := (everywhere_cons ..).1 hbound
    exact (everywhere_cons ..).2 ⟨hv, ih hbound hargs⟩
  | case4 bound v args ih =>
    obtain ⟨-, hbound⟩ := (everywhere_cons ..).1 hbound
    obtain ⟨hv, hargs⟩ := (everywhere_cons ..).1 hargs
    exact (everywhere_cons ..).2 ⟨hv, ih hbound hargs⟩

theorem everywhere_filterMap_id {vs : List (Option Value)} (h : Everywhere P vs) :
    Everywhere P (vs.filterMap id) := by
  refine everywhere_iff_forall.2 fun v hv => ?_
  obtain ⟨o, ho, rfl⟩ := List.mem_filterMap.1 hv
  exact everywhere_iff_forall.1 h _ ho

theorem apply_of_not_function (settings : Settings) {f : Value} (hf : f.isFunction = false)
    (s : Site) (args : List Value) :
    f.apply settings s args = .error (.type "function" f.typeName) := by
  cases f <;> first | rfl | cases hf

theorem everywhere_evalAll {held : List Value} {bs : List (Body Value)}
    (hbs : ∀ b ∈ bs, ∀ s args, Everywhere P args → Everywhere P (b.eval settings held s args))
    {s : Site} {i : Nat} {args : List Value} (hargs : Everywhere P args) :
    Everywhere P (evalAll settings held bs s i args) := by
  induction bs generalizing i with
  | nil => exact everywhere_empty
  | cons b bs ih =>
    obtain ⟨hb, hbs⟩ := List.forall_mem_cons.1 hbs
    refine everywhere_bind (hb _ _ hargs) fun v _ hv =>
      everywhere_bind (ih hbs) fun vs _ hvs => ?_
    exact (everywhere_cons ..).2 ⟨hv, hvs⟩

/-! ## Closed properties -/

/-- The function answers values with the property to arguments with it. -/
def Callee.Maintains (P : Value → Prop) (f : Callee) : Prop :=
  ∀ s args, Everywhere P args → Everywhere P (f.call s args)

/-- What function values, operators and amends make has a property that their parts have. -/
structure ClosedUnderCalls (settings : Settings) (P : Value → Prop) : Prop
    extends ClosedUnderOperators P where
  error (s : Site) (v : Value) : P (.error s v)
  project (s : Site) (f : Value) (bound : List (Option Value)) : P (.project s f bound)
  amendBy (form : Form) (c : Scope) {f : Callee} {x y : Value} {z : Option Value} :
    f.Maintains P → Everywhere P x → Everywhere P y → Everywhere P z →
      Everywhere P (x.amendBy settings form c y f z)

namespace ClosedUnderCalls

variable (hP : ClosedUnderCalls settings P)
include hP

/-- Function values answer values with the property, and so do the bodies of user functions,
whatever they keep alive meanwhile. -/
theorem call_cases : CallCases
    (fun f => Everywhere P f → ∀ s args, Everywhere P args →
      Everywhere P (f.apply settings s args))
    (fun b => Everywhere P b → ∀ held s args, Everywhere P args →
      Everywhere P (b.eval settings held s args)) where
  other f hf _ s args _ := by
    rw [apply_of_not_function settings hf]
    exact everywhere_error_of_cause rfl
  builtin b _ s args hargs := by
    refine everywhere_bind ?_ fun v _ hv => everywhere_settle hv
    split
    · exact hP.monadic b _ ((everywhere_cons ..).1 hargs).1
    · obtain ⟨hx, hy⟩ := (everywhere_cons ..).1 hargs
      exact hP.dyadic b _ hx ((everywhere_cons ..).1 hy).1
    · exact everywhere_error_of_cause rfl
  lambda t name arity body ih hf s args hargs := by
    simp only [Value.apply]
    split
    · exact everywhere_bind (ih ((everywhere_lambda ..).1 hf).2 _ s args hargs)
        fun v _ hv => everywhere_settle hv
    · exact everywhere_error_of_cause rfl
  compose t outer inner iho ihi hf s args hargs := by
    obtain ⟨-, ho, hi⟩ := (everywhere_compose ..).1 hf
    exact everywhere_bind (ihi hi _ args hargs) fun v _ hv =>
      iho ho _ [v] (everywhere_singleton.2 hv)
  project t g bound ih hf s args hargs := by
    obtain ⟨-, hg, hbound⟩ := (everywhere_project ..).1 hf
    -- The arguments that are bound are parts of the projection.
    have hfilled := everywhere_fillHoles hbound hargs
    simp only [Value.apply]
    split
    · exact everywhere_error_of_cause rfl
    split
    · exact (everywhere_project ..).2 ⟨hP.project .., hg, hfilled⟩
    · exact ih hg s _ (everywhere_filterMap_id hfilled)
  arg k _ held s args hargs := by
    cases hk : args[k]? with
    | none => simp [Body.eval, hk]
    | some v =>
      have := everywhere_iff_forall.1 hargs v (List.mem_of_getElem? hk)
      simpa [Body.eval, hk] using this
  const v hb held s args _ := hb
  call f bs ihf ihbs hb held s args hargs := by
    obtain ⟨hf, hbs⟩ := (everywhere_body_call ..).1 hb
    refine everywhere_bind (everywhere_evalAll (fun b hmem s args hargs => ?_) hargs)
      fun vs _ hvs => ihf hf _ vs hvs
    exact ihbs b hmem (everywhere_iff_forall.1 hbs b hmem) held s args hargs
  raise b ih hb held s args hargs :=
    everywhere_bind (ih ((everywhere_body_raise b).1 hb) held _ args hargs) fun v _ hv =>
      (everywhere_errorValue s v).2 ⟨hP.error s v, hv⟩
  fail e hb held s args _ := (everywhere_body_fail e).1 hb
  branch c t e ihc iht ihe hb held s args hargs := by
    obtain ⟨⟨hc, ht⟩, he⟩ := (everywhere_body_branch ..).1 hb
    refine everywhere_bind (ihc hc held _ args hargs) fun v _ _ => ?_
    split
    · exact ihe he held _ args hargs
    · split
      · exact ihe he held _ args hargs
      · exact iht ht held _ args hargs
    · exact iht ht held _ args hargs
  amend form x y f ihx ihy ihf hb held s args hargs := by
    obtain ⟨⟨hx, hy⟩, hf⟩ := (everywhere_body_amend ..).1 hb
    refine everywhere_bind (ihx hx held _ args hargs) fun vx _ hvx =>
      everywhere_bind (ihy hy held _ args hargs) fun vy _ hvy => ?_
    have hcallee : Callee.Maintains P ⟨f, f.apply settings⟩ := ihf hf
    exact everywhere_toResult (hP.amendBy form _ hcallee hvx hvy everywhere_none)
  amendWith form x y f z ihx ihy ihf ihz hb held s args hargs := by
    obtain ⟨⟨⟨hx, hy⟩, hf⟩, hz⟩ := (everywhere_body_amendWith ..).1 hb
    refine everywhere_bind (ihx hx held _ args hargs) fun vx _ hvx =>
      everywhere_bind (ihy hy held _ args hargs) fun vy _ hvy =>
        everywhere_bind (ihz hz held _ args hargs) fun vz _ hvz => ?_
    have hcallee : Callee.Maintains P ⟨f, f.apply settings⟩ := ihf hf
    exact everywhere_toResult (hP.amendBy form _ hcallee hvx hvy hvz)

theorem ofValue {f : Value} (hf : Everywhere P f) : (Callee.ofValue settings f).Maintains P :=
  hP.call_cases.value f hf

theorem eval {b : Body Value} (hb : Everywhere P b) (held : List Value) (s : Site)
    {args : List Value} (hargs : Everywhere P args) :
    Everywhere P (b.eval settings held s args) := hP.call_cases.body b hb held s args hargs

/-! ## The interface -/

variable {c : Scope} {form : Form} {x y f : Value} {z : Option Value}

theorem amendSlot (hx : Everywhere P x) (hy : Everywhere P y) (hf : Everywhere P f)
    (hz : Everywhere P z) : Everywhere P (x.amendSlot settings form c y f z) :=
  hP.amendBy form c (hP.ofValue hf) hx hy hz

theorem amended (hx : Everywhere P x) (hy : Everywhere P y) (hf : Everywhere P f)
    (hz : Everywhere P z) : Everywhere P (x.amended settings form c y f z) :=
  everywhere_toResult (hP.amendSlot hx hy hf hz)

theorem ofFailure {s : Site} {e : Failure Value} (he : Everywhere P e) :
    Everywhere P (Value.ofFailure s e) := by
  unfold Value.ofFailure
  split
  · rename_i v hcause _
    obtain ⟨cause, op, hint⟩ := e
    cases hcause
    exact (everywhere_errorValue ..).2 ⟨hP.error s v, he⟩
  · exact (everywhere_errorValue ..).2 ⟨hP.error .., everywhere_str _⟩

theorem callAmend {verb : String} {args : List Value} (hargs : Everywhere P args) :
    Everywhere P (callAmend settings c verb args) := by
  have hamend : Everywhere P (amendOfArgs settings (c.sub 0) verb args) := by
    unfold amendOfArgs Failure.ensureArity
    split
    · exact everywhere_error_of_cause rfl
    · simp only [bind, Except.bind]
      split
      · rename_i form x y f z _ _
        simp only [everywhere_cons] at hargs
        refine hP.amended hargs.1 hargs.2.1 hargs.2.2.1 ?_
        cases z with
        | nil => exact everywhere_none
        | cons z zs => exact ((everywhere_cons ..).1 hargs.2.2.2).1
      · exact everywhere_error_of_cause rfl
  unfold SharedArrays.callAmend
  generalize amendOfArgs settings (c.sub 0) verb args = r at hamend ⊢
  cases r with
  | ok v => exact hamend
  | error e => exact hP.ofFailure hamend

end ClosedUnderCalls

end SharedArrays
