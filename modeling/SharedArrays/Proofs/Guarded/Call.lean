import SharedArrays.Proofs.Guarded.Amend

/-!
# Accesses with guards: calls and the interface

The body of a user function may amend values itself, and an operator may merge dictionaries. So
the twin of an amend needs twins of the calls, which go over function values and bodies. All of
them agree with what they guard, and an amend, a merge or a call never stops at an access out of
range.

## Main definitions

* `Guarded.apply`, `Guarded.eval` — calling a function value, and running a body
* `Guarded.amendSlot`, `Guarded.merge` — amends of a slot, and merging

## Main results

* `call_cases_guarded` — calls do not stop
* `accesses_in_range` — amends, merges and calls do not stop
-/

namespace SharedArrays

namespace Guarded

mutual

/-- Calls a function value. -/
def apply (settings : Settings) (f : Value) (s : Site) (args : List Value) : Guarded Value :=
  match f with
  | .builtin b =>
    (match args with
      | [x] => monadic b s x
      | [x, y] => dyadic b s x y
      | _ => of (.error (.arity b.symbol "1-2" args.length))) >>= fun v => of v.settle
  | .lambda t name arity body =>
    if args.length = arity then
      eval settings (.lambda t name arity body :: args) body s args >>= fun v => of v.settle
    else of (.error (.arity name (toString arity) args.length))
  | .compose _ outer inner => do
    let v ← apply settings inner (s.sub 0) args
    apply settings outer (s.sub 1) [v]
  | .project t g bound =>
    if holes bound < args.length then
      of (.error (.arity (Value.project t g bound).text (toString (holes bound)) args.length))
    else if args.length < holes bound then of (.ok (.project s g (fillHoles bound args)))
    else apply settings g s ((fillHoles bound args).filterMap id)
  | other => of (.error (.type "function" other.typeName))
termination_by structural f

/-- Runs the body of a user function. -/
def eval (settings : Settings) (held : List Value) (b : Body Value) (s : Site)
    (args : List Value) : Guarded Value :=
  match b with
  | .arg k => of (.ok (args[k]?.getD .nil))
  | .const v => of (.ok v)
  | .call f bs => do
    let vs ← evalAll settings held bs s 1 args
    apply settings f (s.sub 0) vs
  | .raise b => do
    let v ← eval settings held b (s.sub 0) args
    return .error s v
  | .fail e => of (.error e)
  | .branch c t e => do
    match ← eval settings held c (s.sub 0) args with
    | .nil => eval settings held e (s.sub 1) args
    | .int n =>
      if n = 0 then eval settings held e (s.sub 1) args else eval settings held t (s.sub 2) args
    | _ => eval settings held t (s.sub 2) args
  | .amend form x y f => do
    let x ← eval settings held x (s.sub 0) args
    let y ← eval settings held y (s.sub 1) args
    let o ← reached (amendBy settings form ⟨held ++ [y], s.sub 3⟩ x y
      ⟨⟨f, f.apply settings⟩, apply settings f⟩ none)
    of o.toResult
  | .amendWith form x y f z => do
    let x ← eval settings held x (s.sub 0) args
    let y ← eval settings held y (s.sub 1) args
    let z ← eval settings held z (s.sub 2) args
    let o ← reached (amendBy settings form ⟨held ++ [y, z], s.sub 3⟩ x y
      ⟨⟨f, f.apply settings⟩, apply settings f⟩ (some z))
    of o.toResult
termination_by structural b

/-- Runs bodies one after the other. -/
def evalAll (settings : Settings) (held : List Value) (bs : List (Body Value)) (s : Site) (i : Nat)
    (args : List Value) : Guarded (List Value) :=
  match bs with
  | [] => of (.ok [])
  | b :: bs => do
    let v ← eval settings held b (s.sub i) args
    let vs ← evalAll settings held bs s (i + 1) args
    return v :: vs
termination_by structural bs

end

/-- A function value in the role of an update function. -/
def Callee.ofValue (settings : Settings) (f : Value) : Callee :=
  ⟨.ofValue settings f, apply settings f⟩

/-- Amends the content of a slot. -/
def amendSlot (settings : Settings) (form : Form) (c : Scope) (x y f : Value)
    (z : Option Value) : Option (Outcome Value) :=
  amendBy settings form c x y (.ofValue settings f) z

/-- The dictionary `l` with the entries of `r`. -/
def merge (settings : Settings) (c : Scope) (l r : Dict Value) (f : Value) :
    Guarded (Dict Value) :=
  mergeWith (c.site.sub 0) settings.indexThreshold (fun common vals => do
    let z ← select (c.site.sub 1) r.vals (common.map (·.2))
    let o ← reached (amendAt settings ((c.sub 2).beside [.array l.vals]) vals
      (.many (common.map (·.1))) (.ofValue settings f) (some (.array z)))
    of o.toResult) l r

end Guarded

/-! ## Calls do not stop -/

theorem guarded_evalAll {settings : Settings} {held : List Value} {bs : List (Body Value)}
    {args : List Value}
    (hbs : ∀ b ∈ bs, ∀ s, Guarded.eval settings held b s args = .of (b.eval settings held s args))
    {s : Site} {i : Nat} :
    Guarded.evalAll settings held bs s i args = .of (evalAll settings held bs s i args) := by
  induction bs generalizing i with
  | nil => rfl
  | cons b bs ih =>
    obtain ⟨hb, hbs⟩ := List.forall_mem_cons.1 hbs
    simp only [Guarded.evalAll, evalAll, hb, ih hbs]
    cases b.eval settings held (s.sub i) args with
    | error e => rfl
    | ok v => cases evalAll settings held bs s (i + 1) args <;> rfl

/-- Function values do not stop when they are called, and neither do the bodies of user functions.
An amend inside of a body works on well-formed values, as one from outside does. -/
theorem call_cases_guarded (settings : Settings) : CallCases
    (fun f => WellFormed f → ∀ s args, WellFormed args →
      Guarded.apply settings f s args = .of (f.apply settings s args))
    (fun b => WellFormed b → ∀ held s args, WellFormed args →
      Guarded.eval settings held b s args = .of (b.eval settings held s args)) where
  other f hf _ s args _ := by
    rw [apply_of_not_function settings hf]
    cases f <;> first | rfl | cases hf
  builtin b _ s args hargs := by
    have settle {r : Result Value} (hr : WellFormed r) :
        (Guarded.of r >>= fun v => .of v.settle) = .of (r >>= Value.settle) :=
      guarded_bind rfl hr fun _ _ => rfl
    rcases args with _ | ⟨x, _ | ⟨y, _ | ⟨_, _⟩⟩⟩
    · rfl
    · have hx := ((everywhere_cons ..).1 hargs).1
      simp only [Guarded.apply, guarded_monadic hx]
      exact settle (wellFormed_monadic hx)
    · obtain ⟨hx, hrest⟩ := (everywhere_cons ..).1 hargs
      have hy := ((everywhere_cons ..).1 hrest).1
      simp only [Guarded.apply, guarded_dyadic hx hy]
      exact settle (wellFormed_dyadic hx hy)
    · rfl
  lambda t name arity body ih hf s args hargs := by
    have hbody := ((everywhere_lambda ..).1 hf).2
    simp only [Guarded.apply, Value.apply, ih hbody _ s args hargs]
    split
    · exact guarded_bind rfl (wellFormed_eval hbody hargs) fun _ _ => rfl
    · rfl
  compose t outer inner iho ihi hf s args hargs := by
    obtain ⟨-, ho, hi⟩ := (everywhere_compose ..).1 hf
    refine guarded_bind (ihi hi _ args hargs) (safe_ofValue hi _ _ hargs) fun v hv => ?_
    exact iho ho _ [v] ((everywhere_cons ..).2 ⟨hv, everywhere_empty⟩)
  project t g bound ih hf s args hargs := by
    obtain ⟨-, hg, hbound⟩ := (everywhere_project ..).1 hf
    have hfilled := everywhere_filterMap_id (everywhere_fillHoles hbound hargs)
    simp only [Guarded.apply, Value.apply, ih hg s _ hfilled]
    split
    · rfl
    · split <;> rfl
  arg k _ held s args _ := rfl
  const v _ held s args _ := rfl
  call f bs ihf ihbs hb held s args hargs := by
    obtain ⟨hf, hbs⟩ := (everywhere_body_call ..).1 hb
    have hwf := everywhere_iff_forall.1 hbs
    -- Arguments are well-formed, because all answers of bodies are.
    refine guarded_bind (guarded_evalAll fun b hmem s => ihbs b hmem (hwf b hmem) held s args hargs)
      (everywhere_evalAll (fun b hmem s args hargs => wellFormed_eval (hwf b hmem) hargs) hargs)
      fun vs hvs => ihf hf _ vs hvs
  raise b ih hb held s args hargs :=
    guarded_bind_pure (ih ((everywhere_body_raise b).1 hb) held _ args hargs)
  fail e _ held s args _ := rfl
  branch c t e ihc iht ihe hb held s args hargs := by
    obtain ⟨⟨hc, ht⟩, he⟩ := (everywhere_body_branch ..).1 hb
    have hthen := iht ht held (s.sub 2) args hargs
    have helse := ihe he held (s.sub 1) args hargs
    refine guarded_bind (ihc hc held _ args hargs) (wellFormed_eval hc hargs) fun v _ => ?_
    cases v with
    | nil => exact helse
    | int n =>
      simp only
      split
      · exact helse
      · exact hthen
    | _ => exact hthen
  amend form x y f ihx ihy ihf hb held s args hargs := by
    obtain ⟨⟨hx, hy⟩, hf⟩ := (everywhere_body_amend ..).1 hb
    have hagrees : Guarded.Callee.Agrees ⟨⟨f, f.apply settings⟩, Guarded.apply settings f⟩ :=
      ⟨safe_ofValue hf, ihf hf⟩
    refine guarded_bind (ihx hx held _ args hargs) (wellFormed_eval hx hargs) fun vx hvx => ?_
    refine guarded_bind (ihy hy held _ args hargs) (wellFormed_eval hy hargs) fun vy hvy => ?_
    rw [guarded_amendBy hagrees hvx hvy everywhere_none]
    rfl
  amendWith form x y f z ihx ihy ihf ihz hb held s args hargs := by
    obtain ⟨⟨⟨hx, hy⟩, hf⟩, hz⟩ := (everywhere_body_amendWith ..).1 hb
    have hagrees : Guarded.Callee.Agrees ⟨⟨f, f.apply settings⟩, Guarded.apply settings f⟩ :=
      ⟨safe_ofValue hf, ihf hf⟩
    refine guarded_bind (ihx hx held _ args hargs) (wellFormed_eval hx hargs) fun vx hvx => ?_
    refine guarded_bind (ihy hy held _ args hargs) (wellFormed_eval hy hargs) fun vy hvy => ?_
    refine guarded_bind (ihz hz held _ args hargs) (wellFormed_eval hz hargs) fun vz hvz => ?_
    rw [guarded_amendBy hagrees hvx hvy ((everywhere_some vz).2 hvz)]
    rfl

section Interface

variable {settings : Settings} {f : Value}

theorem agrees_ofValue (hf : WellFormed f) :
    (Guarded.Callee.ofValue settings f).Agrees :=
  ⟨safe_ofValue hf, (call_cases_guarded settings).value f hf⟩

theorem guarded_merge {c : Scope} {l r : Dict Value} (hl : l.Paired) (hr : r.Paired)
    (hf : WellFormed f) : Guarded.merge settings c l r f = .of (l.merge settings c r f) := by
  refine guarded_mergeWith hl hr fun common hcommon => ?_
  have hleft : ∀ p ∈ (Selection.many (common.map (·.1))).positions, p < l.vals.len :=
    List.forall_mem_map.2 fun e he => (hcommon e he).1
  have hright : ∀ p ∈ common.map (·.2), p < r.vals.len :=
    List.forall_mem_map.2 fun e he => (hcommon e he).2
  refine guarded_bind (guarded_select hr.2.2 hright) (wellFormed_select_result hr.2.2)
    fun z hz => ?_
  have hagrees : (Guarded.Callee.ofValue settings f).Agrees := agrees_ofValue hf
  rw [guarded_amendAt hagrees hl.2.2 ((everywhere_array z).2 hz) hleft]
  rfl

/-- No access is out of range: amends of a slot, merges and calls do not stop, and leave or answer
what they would without guards. This holds at every access on the way, also after writes have
copied, widened or canonicalized the array, and after keys have been appended. -/
theorem accesses_in_range (settings : Settings) {f : Value} (hf : WellFormed f) :
    (∀ (form : Form) (c : Scope) (x y : Value) (z : Option Value),
      WellFormed x → WellFormed y → WellFormed z →
        Guarded.amendSlot settings form c x y f z = some (x.amendSlot settings form c y f z)) ∧
    (∀ (c : Scope) (l r : Dict Value), l.Paired → r.Paired →
      Guarded.merge settings c l r f = .of (l.merge settings c r f)) ∧
    ∀ (s : Site) (args : List Value), WellFormed args →
      Guarded.apply settings f s args = .of (f.apply settings s args) := by
  refine ⟨fun form c x y z hx hy hz => ?_, fun c l r hl hr => guarded_merge hl hr hf, ?_⟩
  · exact guarded_amendBy (agrees_ofValue hf) hx hy hz
  · exact (call_cases_guarded settings).value f hf

/-- A string at the first position turns the integers into a list, later steps write to it, and it
ends as integers again. A merge appends the key that is new. At a position that has not been
resolved against the array, the twin does stop. -/
theorem accesses_in_range_widened :
    let a : Arr Value := .ints (.ofList ⟨[1]⟩ [1, 2, 3])
    let y : Value := .array (.ints (.ofList ⟨[2]⟩ [0, 0, 2]))
    let z : Value := .array (.list (.ofList ⟨[3]⟩ [.str "s", .int 4, .int 5]))
    let l : Dict Value := ⟨.strs (.ofList ⟨[4]⟩ ["k"]), .ints (.ofList ⟨[5]⟩ [6])⟩
    let r : Dict Value := ⟨.strs (.ofList ⟨[6]⟩ ["k", "n"]), .ints (.ofList ⟨[7]⟩ [8, 9])⟩
    let f : Value := .builtin .right
    let c : Scope := ⟨[], ⟨[0]⟩⟩
    (WellFormed f ∧ WellFormed a ∧ WellFormed y ∧ WellFormed z ∧ l.Paired ∧ r.Paired) ∧
      (∃ w, Guarded.amendSlot {} .flat c (.array a) y f (some z) = some (.done (.array (.ints w))) ∧
        w.items = [4, 2, 5]) ∧
      (∃ keys vals, Guarded.merge {} c l r f = .of (.ok ⟨.strs keys, .ints vals⟩) ∧
        keys.items = ["k", "n"] ∧ vals.items = [8, 9]) ∧
      Guarded.apply {} f c.site [.int 1, .int 2] = .of (.ok (.int 2)) ∧
      Guarded.amendAt {} c a (.one 3) (.ofValue {} f) (some (.int 0)) = none := by
  intro a y z l r f c
  have hwf : WellFormed f ∧ WellFormed a ∧ WellFormed y ∧ WellFormed z ∧ l.Paired ∧ r.Paired :=
    ⟨by decide, by decide, by decide, by decide, ⟨rfl, by decide, by decide⟩,
      ⟨rfl, by decide, by decide⟩⟩
  obtain ⟨hf, ha, hy, hz, hl, hr⟩ := hwf
  obtain ⟨hamend, hmerge, hcall⟩ := accesses_in_range {} hf
  refine ⟨⟨hf, ha, hy, hz, hl, hr⟩, ?_, ?_, ?_, rfl⟩
  · rw [hamend .flat c (.array a) y (some z) ha hy hz]
    exact ⟨_, rfl, by decide⟩
  · rw [hmerge c l r hl hr]
    exact ⟨_, _, rfl, by decide, by decide⟩
  · rw [hcall c.site [.int 1, .int 2] (by decide)]
    rfl

end Interface

end SharedArrays
