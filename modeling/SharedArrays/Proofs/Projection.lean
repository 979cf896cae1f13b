import SharedArrays.Call

/-!
# Projections filled in stages

A projection waits for as many arguments as it has holes. Given fewer it becomes a projection that
waits for the rest, and given the last of them it makes its call. Nothing of this way is left in
the call: each argument stands where it would stand if all of them had been given at once.

What a hole is filled with can be told from the position of the hole alone, because the arguments
go to the holes from the left: the hole behind `k` others takes argument number `k`. Filling some
holes does not change the order of those that are left, so the second batch goes on where the
first one ended.

## Main definitions

* `argumentAt` — the argument at a position of the call that a projection makes
* `Batch`, `applyInBatches` — calling a function, then its answer, and so on

## Main results

* `getElem?_fillHoles`, `holes_fillHoles` — what is filled, and what is left open
* `fillHoles_fillHoles` — two stages are one
* `applyInBatches_of_leaveOpen` — batches that leave holes open make projections
* `project_applyInBatches` — in stages or at once, a projection makes one call
-/

namespace SharedArrays

/-! ## Holes -/

section Holes

variable {bound : List (Option Value)} {args more : List Value}

@[simp] theorem holes_nil : holes [] = 0 := rfl

@[simp] theorem holes_cons_none : holes (none :: bound) = holes bound + 1 := by
  simp [holes]

@[simp] theorem holes_cons_some (v : Value) : holes (some v :: bound) = holes bound := by
  simp [holes]

@[simp] theorem fillHoles_none (bound : List (Option Value)) : fillHoles bound [] = bound := by
  induction bound with
  | nil => rfl
  | cons b bound ih => cases b <;> simp [fillHoles, ih]

/-- Filling closes a hole for each argument, as long as there are holes. -/
theorem holes_fillHoles (bound : List (Option Value)) (args : List Value) :
    holes (fillHoles bound args) = holes bound - args.length := by
  induction bound, args using fillHoles.induct with
  | case1 args => simp [fillHoles]
  | case2 v bound args ih => simp [fillHoles, ih]
  | case3 bound ih => simp
  | case4 bound v args ih =>
    simp only [fillHoles, holes_cons_some, holes_cons_none, ih, List.length_cons]
    omega

@[simp] theorem length_fillHoles (bound : List (Option Value)) (args : List Value) :
    (fillHoles bound args).length = bound.length := by
  induction bound, args using fillHoles.induct with
  | case1 args => rfl
  | case2 v bound args ih => simp [fillHoles, ih]
  | case3 bound ih => simp
  | case4 bound v args ih => simp [fillHoles, ih]

/-- A hole takes the argument whose number is the number of holes in front of it. -/
theorem getElem?_fillHoles (bound : List (Option Value)) (args : List Value) (i : Nat) :
    (fillHoles bound args)[i]? = (bound[i]?).map (· <|> args[holes (bound.take i)]?) := by
  induction bound, args using fillHoles.induct generalizing i with
  | case1 args => rfl
  | case2 v bound args ih => cases i <;> simp [fillHoles, ih]
  | case3 bound ih => simp
  | case4 bound v args ih => cases i <;> simp [fillHoles, ih]

/-- The second batch of arguments goes on where the first one ended. -/
theorem fillHoles_fillHoles (bound : List (Option Value)) (args more : List Value) :
    fillHoles (fillHoles bound args) more = fillHoles bound (args ++ more) := by
  induction bound, args using fillHoles.induct with
  | case1 args => rfl
  | case2 v bound args ih => simp [fillHoles, ih]
  | case3 bound ih => simp
  | case4 bound v args ih => simp [fillHoles, ih]

/-- Without holes, a list of bound arguments is a list of arguments. -/
theorem exists_of_holes_eq_zero (h : holes bound = 0) :
    ∃ call : List Value, bound = call.map some := by
  induction bound with
  | nil => exact ⟨[], rfl⟩
  | cons b bound ih =>
    cases b with
    | none => simp at h
    | some v =>
      obtain ⟨call, rfl⟩ := ih (by simpa using h)
      exact ⟨v :: call, rfl⟩

end Holes

/-- The argument at position `i` of the call that a projection with the arguments `bound` makes
when `args` are given: what is bound there, and for a hole that is behind `k` others the argument
number `k`. -/
def argumentAt (bound : List (Option Value)) (args : List Value) (i : Nat) : Option Value :=
  (bound[i]?).bind (· <|> args[holes (bound.take i)]?)

/-- As many arguments as there are holes make a call, with each argument at its position. -/
theorem exists_call_of_filled {bound : List (Option Value)} {args : List Value}
    (h : args.length = holes bound) :
    ∃ call, (fillHoles bound args).filterMap id = call ∧ call.length = bound.length ∧
      ∀ i, call[i]? = argumentAt bound args i := by
  have hfilled : holes (fillHoles bound args) = 0 := by rw [holes_fillHoles, h, Nat.sub_self]
  obtain ⟨call, hcall⟩ := exists_of_holes_eq_zero hfilled
  refine ⟨call, by simp [hcall], ?_, fun i => ?_⟩
  · rw [← length_fillHoles bound args, hcall, List.length_map]
  · have hat := getElem?_fillHoles bound args i
    rw [hcall, List.getElem?_map] at hat
    rw [argumentAt]
    cases hbound : bound[i]? <;> cases hi : call[i]? <;> simp_all

/-! ## Batches -/

/-- Arguments that are given together, and the site at which the call with them makes its
objects. -/
structure Batch where
  site : Site
  args : List Value

/-- All arguments of the batches, from the first one on. -/
def allArgs (batches : List Batch) : List Value := batches.flatMap Batch.args

/-- Calls `f` with the first batch, the answer of this call with the second one, and so on. -/
def applyInBatches (settings : Settings) (f : Value) : List Batch → Result Value
  | [] => .ok f
  | batch :: batches => do
    let g ← f.apply settings batch.site batch.args
    applyInBatches settings g batches

/-- Some argument is still to come after each of the batches. -/
def LeaveOpen (bound : List (Option Value)) (batches : List Batch) : Prop :=
  batches ≠ [] → (allArgs batches).length < holes bound

section Batches

variable {settings : Settings} {s t : Site} {f g : Value} {bound : List (Option Value)}
  {args : List Value} {batches : List Batch}

@[simp] theorem allArgs_cons (batch : Batch) (batches : List Batch) :
    allArgs (batch :: batches) = batch.args ++ allArgs batches := by
  simp [allArgs]

theorem allArgs_concat (batches : List Batch) (last : Batch) :
    allArgs (batches ++ [last]) = allArgs batches ++ last.args := by
  simp [allArgs]

theorem applyInBatches_append (batches rest : List Batch) :
    applyInBatches settings f (batches ++ rest) =
      applyInBatches settings f batches >>= fun g => applyInBatches settings g rest := by
  induction batches generalizing f with
  | nil => rfl
  | cons batch batches ih =>
    simp only [List.cons_append, applyInBatches, ih]
    cases f.apply settings batch.site batch.args <;> rfl

theorem applyInBatches_singleton (batch : Batch) :
    applyInBatches settings f [batch] = f.apply settings batch.site batch.args := by
  simp only [applyInBatches]
  cases f.apply settings batch.site batch.args <;> rfl

theorem project_apply_of_lt (h : args.length < holes bound) :
    (Value.project t g bound).apply settings s args =
      .ok (.project s g (fillHoles bound args)) := by
  rw [Value.apply, if_neg (by omega), if_pos h]

theorem project_apply_of_eq (h : args.length = holes bound) :
    (Value.project t g bound).apply settings s args =
      g.apply settings s ((fillHoles bound args).filterMap id) := by
  rw [Value.apply, if_neg (by omega), if_neg (by omega)]

theorem project_apply_of_gt (h : holes bound < args.length) :
    (Value.project t g bound).apply settings s args =
      .error (.arity (Value.project t g bound).text (toString (holes bound)) args.length) := by
  rw [Value.apply, if_pos h]

/-- Batches that leave a hole open go through one after the other, and make the projection that
all of their arguments together would have made. -/
theorem applyInBatches_of_leaveOpen (settings : Settings) (t : Site) (g : Value)
    (h : LeaveOpen bound batches) : ∃ u, applyInBatches settings (.project t g bound) batches =
      .ok (.project u g (fillHoles bound (allArgs batches))) := by
  induction batches generalizing t bound with
  | nil =>
    refine ⟨t, ?_⟩
    rw [allArgs, List.flatMap_nil, fillHoles_none]
    rfl
  | cons batch batches ih =>
    have hlen : batch.args.length + (allArgs batches).length < holes bound := by
      simpa using h (by simp)
    -- What the first batch leaves open is enough for the others.
    have hrest : LeaveOpen (fillHoles bound batch.args) batches := by
      intro _
      rw [holes_fillHoles]
      omega
    obtain ⟨u, hu⟩ := ih batch.site hrest
    refine ⟨u, ?_⟩
    rw [applyInBatches, project_apply_of_lt (by omega), allArgs_cons, ← fillHoles_fillHoles]
    exact hu

/-- Batches of which the last one fills the last hole make the call that all of their arguments at
once make. -/
theorem applyInBatches_concat (h : LeaveOpen bound batches) {last : Batch}
    (hall : (allArgs (batches ++ [last])).length = holes bound) :
    applyInBatches settings (.project t g bound) (batches ++ [last]) =
      g.apply settings last.site
        ((fillHoles bound (allArgs (batches ++ [last]))).filterMap id) := by
  obtain ⟨u, hu⟩ := applyInBatches_of_leaveOpen settings t g h
  have hlast : last.args.length = holes (fillHoles bound (allArgs batches)) := by
    rw [allArgs_concat, List.length_append] at hall
    rw [holes_fillHoles]
    omega
  calc applyInBatches settings (.project t g bound) (batches ++ [last])
      = (Value.project u g (fillHoles bound (allArgs batches))).apply settings last.site
          last.args := by
        rw [applyInBatches_append, hu]
        exact applyInBatches_singleton last
    _ = g.apply settings last.site
          ((fillHoles (fillHoles bound (allArgs batches)) last.args).filterMap id) :=
        project_apply_of_eq hlast
    _ = _ := by rw [fillHoles_fillHoles, allArgs_concat]

end Batches

/-- A projection makes one call, whether its arguments are given at once or in batches of which only
the last one fills the last hole. In the call the arguments stand at the holes in the order in which
they were given. Batches that leave a hole open make a projection, in which their arguments have
taken the same places; it waits for as many arguments as there are holes left, and more of them are
refused. -/
theorem project_applyInBatches (settings : Settings) (t : Site) (g : Value)
    (bound : List (Option Value)) :
    (∀ batches, LeaveOpen bound batches → ∃ u bound',
      applyInBatches settings (.project t g bound) batches = .ok (.project u g bound') ∧
      (∀ i, bound'[i]? = (bound[i]?).map fun _ => argumentAt bound (allArgs batches) i) ∧
      holes bound' + (allArgs batches).length = holes bound ∧
      ∀ s args, holes bound' < args.length →
        (Value.project u g bound').apply settings s args =
          .error (.arity (Value.project u g bound').text (toString (holes bound')) args.length)) ∧
    ∀ batches last, LeaveOpen bound batches →
      (allArgs (batches ++ [last])).length = holes bound →
      ∃ call : List Value, call.length = bound.length ∧
        (∀ i, call[i]? = argumentAt bound (allArgs (batches ++ [last])) i) ∧
        (∀ s, (Value.project t g bound).apply settings s (allArgs (batches ++ [last])) =
          g.apply settings s call) ∧
        applyInBatches settings (.project t g bound) (batches ++ [last]) =
          g.apply settings last.site call := by
  constructor
  · intro batches hopen
    obtain ⟨u, hu⟩ := applyInBatches_of_leaveOpen settings t g hopen
    refine ⟨u, _, hu, fun i => ?_, ?_, fun s args hargs => project_apply_of_gt hargs⟩
    · rw [getElem?_fillHoles, argumentAt]
      cases bound[i]? <;> rfl
    · rw [holes_fillHoles]
      by_cases hnil : batches = []
      · simp [hnil, allArgs]
      · have := hopen hnil
        omega
  · intro batches last hopen hall
    obtain ⟨call, hcall, hlen, hat⟩ := exists_call_of_filled hall
    refine ⟨call, hlen, hat, fun s => ?_, ?_⟩
    · rw [project_apply_of_eq hall, hcall]
    · rw [applyInBatches_concat hopen hall, hcall]

/-- Both operands of a subtraction are left open twice. They come in three batches, of which one is
empty. -/
theorem project_applyInBatches_nested :
    let g : Value := .project (.step 1) (.builtin .subtract) [none, none]
    let batches : List Batch := [⟨.step 2, [.int 9]⟩, ⟨.step 3, []⟩]
    let last : Batch := ⟨.step 4, [.int 2]⟩
    LeaveOpen [none, none] batches ∧ (allArgs (batches ++ [last])).length = holes [none, none] ∧
      applyInBatches {} (.project (.step 0) g [none, none]) (batches ++ [last]) =
        g.apply {} (.step 4) [.int 9, .int 2] ∧
      g.apply {} (.step 4) [.int 9, .int 2] = .ok (.int 7) := by
  intro g batches last
  have hopen : LeaveOpen [none, none] batches := fun _ => by decide
  obtain ⟨call, -, hat, -, hrun⟩ :=
    (project_applyInBatches {} (.step 0) g [none, none]).2 batches last hopen rfl
  have hcall : call = [.int 9, .int 2] := by
    ext1 i
    match i with
    | 0 => exact hat 0
    | 1 => exact hat 1
    | i + 2 => exact hat (i + 2)
  exact ⟨hopen, rfl, hcall ▸ hrun, rfl⟩

end SharedArrays
