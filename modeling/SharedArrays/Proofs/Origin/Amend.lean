import SharedArrays.Proofs.Origin.Operators
import SharedArrays.Amend.Path

/-!
# Where the failure of an amend comes from

An amend calls its function several times. To find out where its failure comes from, let the calls
that fail answer other failures. If the amend still fails as before, it has rejected something by
itself. If it fails with whatever one of the calls answers, that call has ended it, and the amend
only passes the failure on. There is nothing between the two.

## Main definitions

* `CallAnswers.Follows` — answers that differ at most where calls fail
* `EndedBy` — the call whose failure an update passes on
* `Fate` — an update goes through, rejects something by itself, or is ended by a call

## Main results

* `Fate.andThen` — one update after the other
* `fate_amend`, `fate_amendPath` — the fates of amends
-/

namespace SharedArrays

variable {α β : Type}

/-- How the calls of a function are answered. -/
abbrev CallAnswers := Site → List Value → Result Value

/-- Wherever `f` answers a value, `g` answers it too. Where `f` fails, `g` answers anything. -/
def CallAnswers.Follows (g f : CallAnswers) : Prop :=
  ∀ s args v, f s args = .ok v → g s args = .ok v

theorem CallAnswers.Follows.refl (f : CallAnswers) : Follows f f := fun _ _ _ h => h

/-- The call at the site `s` ends the update: with whatever failure it is answered, the update
fails with that. -/
def EndedBy (f : CallAnswers) (update : CallAnswers → Outcome α) (s : Site)
    (args : List Value) : Prop :=
  ∀ g : CallAnswers, g.Follows f → ∀ e, g s args = .error e → (update g).failure = some e

/-- What becomes of an update whose calls are answered by `f`. -/
inductive Fate (f : CallAnswers) (update : CallAnswers → Outcome α) : Prop where
  /-- It goes through, and no call fails. -/
  | through (done : (update f).failure = none)
    (same : ∀ g : CallAnswers, g.Follows f → update g = update f)
  /-- It rejects something, however failing calls are answered. -/
  | itself (e : Failure Value) (bare : e.op = none)
      (same : ∀ g : CallAnswers, g.Follows f → (update g).failure = some e)
  /-- A call that fails ends it. -/
  | call (s : Site) (args : List Value) (e : Failure Value) (fails : f s args = .error e)
      (ends : EndedBy f update s args)

namespace Fate

variable {f : CallAnswers} {U : CallAnswers → Outcome α} {V W : CallAnswers → Outcome β}

theorem done (a : α) : Fate f fun _ => .done a := .through rfl fun _ _ => rfl

theorem failed (a : α) {e : Failure Value} (h : e.op = none) : Fate f fun _ => .failed a e :=
  .itself e h fun _ _ => rfl

theorem congr (h : ∀ g : CallAnswers, g.Follows f → W g = V g) (hV : Fate f V) : Fate f W := by
  have hf := h f (.refl f)
  cases hV with
  | through done same => exact .through (hf ▸ done) fun g hg => by rw [h g hg, same g hg, hf]
  | itself e bare same => exact .itself e bare fun g hg => by rw [h g hg, same g hg]
  | call s args e fails ends =>
    exact .call s args e fails fun g hg e' he => by rw [h g hg, ends g hg e' he]

/-- What is done with the content of a slot afterwards does not fail. -/
theorem finish {k : Outcome α → Outcome β} (hk : ∀ o, (k o).failure = o.failure)
    (hU : Fate f U) : Fate f fun g => k (U g) := by
  cases hU with
  | through done same => exact .through ((hk _).trans done) fun g hg => congrArg k (same g hg)
  | itself e bare same => exact .itself e bare fun g hg => (hk _).trans (same g hg)
  | call s args e fails ends =>
    exact .call s args e fails fun g hg e' he => (hk _).trans (ends g hg e' he)

theorem map (k : α → β) (hU : Fate f U) : Fate f fun g => (U g).map k := finish (fun _ => rfl) hU

/-- An update `W` that begins with `U`, stops if that fails, and goes on with `V` if it goes
through. -/
theorem andThen (hU : Fate f U)
    (hstop : ∀ g e, (U g).failure = some e → (W g).failure = some e)
    (hgo : ∀ g, U g = .done (U f).slot → W g = V g) (hV : Fate f V) : Fate f W := by
  cases hU with
  | through done same =>
    refine congr (fun g hg => hgo g ?_) hV
    rw [same g hg]
    exact congrArg (Outcome.mk _) done
  | itself e bare same => exact .itself e bare fun g hg => hstop g e (same g hg)
  | call s args e fails ends =>
    exact .call s args e fails fun g hg e' he => hstop g e' (ends g hg e' he)

/-- A single call, after which the update goes on with what it answers. -/
theorem ask (s : Site) (args : List Value) (a : α) {next : Value → CallAnswers → Outcome α}
    (h : ∀ v, Fate f (next v)) :
    Fate f fun g => match g s args with
      | .error e => .failed a e
      | .ok v => next v g := by
  cases hf : f s args with
  | ok v => exact congr (fun g hg => by simp only [hg s args v hf]) (h v)
  | error e => exact .call s args e hf fun g _ e' he => by simp only [he]; rfl

end Fate

variable {settings : Settings} {v : Value} {f : CallAnswers}

/-! ## Arrays -/

/-- The steps call the function, each at most once. -/
theorem fate_runSteps (c d : Scope) (operands : Operands) (entries : List (Nat × Nat))
    (a : Arr Value) :
    Fate f fun g => a.runSteps d (entries.map fun (i, k) =>
      ⟨i, fun old => g (c.site.sub (k + 1)) (old :: (operands.at? k).toList)⟩) := by
  induction entries generalizing a with
  | nil => exact .done a
  | cons entry entries ih =>
    obtain ⟨i, k⟩ := entry
    simp only [List.map_cons, Arr.runSteps]
    cases a.at? i with
    | none => exact .failed a rfl
    | some old => exact .ask _ _ a fun new => ih (a.put d i new)

theorem unnamed_forMany (n : Nat) (z : Option Value) : Unnamed (Operands.forMany n z) := by
  unfold Operands.forMany
  split
  · exact unnamed_ok _
  · split <;> first | exact unnamed_ok _ | exact rfl
  · exact unnamed_ok _

theorem unnamed_operands (v : Value) (f : CallAnswers) (z : Option Value) (sel : Selection) :
    Unnamed (Callee.operands ⟨v, f⟩ z sel) := by
  unfold Callee.operands
  split
  · cases sel with
    | one i => exact unnamed_ok _
    | many ps => exact unnamed_forMany ..
  · exact rfl

theorem unnamed_position (len : Nat) (i : Int64) : Unnamed (position len i) := by
  unfold position
  split <;> first | exact unnamed_ok _ | exact rfl

theorem unnamed_mapM {g : α → Result β} (h : ∀ x, Unnamed (g x)) (xs : List α) :
    Unnamed (xs.mapM g) := by
  induction xs with
  | nil => exact unnamed_ok _
  | cons x xs ih =>
    rw [List.mapM_cons]
    exact unnamed_bind (h x) fun _ _ => unnamed_map ih

theorem unnamed_ofIndex (len : Nat) (y : Value) : Unnamed (Selection.ofIndex len y) := by
  unfold Selection.ofIndex
  split
  · exact unnamed_ok _
  · exact unnamed_map (unnamed_position ..)
  · exact unnamed_map (unnamed_mapM (fun _ => unnamed_position ..) _)
  · exact unnamed_map (unnamed_mapM (fun _ => unnamed_position ..) _)
  · exact rfl

theorem fate_amendAt (c : Scope) (a : Arr Value) (sel : Selection) (z : Option Value) :
    Fate f fun g => a.amendAt settings c sel ⟨v, g⟩ z := by
  cases hr : Callee.operands ⟨v, f⟩ z sel with
  | error e =>
    have hsame (g : CallAnswers) : Callee.operands ⟨v, g⟩ z sel = .error e := hr
    simp only [Arr.amendAt, hsame]
    exact .failed a (unnamed_iff.1 (unnamed_operands v f z sel) e hr)
  | ok operands =>
    have hsame (g : CallAnswers) : Callee.operands ⟨v, g⟩ z sel = .ok operands := hr
    simp only [Arr.amendAt, hsame]
    split
    · exact .done _
    · exact .finish (k := fun o => o.map (·.canonical ((c.sub 0).beside o.raised)))
        (fun _ => rfl) (fate_runSteps c (c.sub 0) operands _ a)

theorem fate_amendAtIndex (y : Value) (c : Scope) (a : Arr Value) (z : Option Value) :
    Fate f fun g => amendAtIndex settings ⟨v, g⟩ y c a z := by
  cases hsel : Selection.ofIndex a.len y with
  | error e =>
    simp only [amendAtIndex, hsel]
    exact .failed a (unnamed_iff.1 (unnamed_ofIndex a.len y) e hsel)
  | ok sel =>
    simp only [amendAtIndex, hsel]
    exact fate_amendAt c a sel z

theorem fate_amendInTurn {ys : List Value}
    (h : ∀ y ∈ ys, ∀ c a z, Fate f fun g => amendFn settings ⟨v, g⟩ y c a z) (operands : Operands)
    (c : Scope) (k : Nat) (a : Arr Value) :
    Fate f fun g => amendInTurn operands c k (ys.map (amendFn settings ⟨v, g⟩)) a := by
  induction ys generalizing k a with
  | nil => exact .done a
  | cons y ys ih =>
    obtain ⟨hy, hys⟩ := List.forall_mem_cons.1 h
    refine (hy (c.sub k) a (operands.at? k)).andThen (fun g e he => ?_) (fun g hg => ?_)
      (ih hys (k + 1) (amendFn settings ⟨v, f⟩ y (c.sub k) a (operands.at? k)).slot)
    · simp only [List.map_cons, amendInTurn]
      generalize amendFn settings ⟨v, g⟩ y (c.sub k) a (operands.at? k) = o at he ⊢
      obtain ⟨b, _⟩ := o
      cases he
      rfl
    · simp only [List.map_cons, amendInTurn, hg]
      rfl

/-- An index is a selection, or a list whose members take their turns. -/
theorem fate_amendFn (y : Value) (c : Scope) (a : Arr Value) (z : Option Value) :
    Fate f fun g => amendFn settings ⟨v, g⟩ y c a z := by
  have hsingle {y : Value} (hy : ∀ w, y ≠ .array (.list w)) (c : Scope) (a : Arr Value)
      (z : Option Value) : Fate f fun g => amendFn settings ⟨v, g⟩ y c a z := by
    simp only [amendFn_of_not_list settings _ hy]
    exact fate_amendAtIndex y c a z
  induction y using Value.nest_induction generalizing c a z with
  | leaf y hleaf => exact hsingle (by rintro _ rfl; cases hleaf) c a z
  | error t u => exact hsingle (by rintro _ ⟨⟩) c a z
  | dict t keys vals _ _ => exact hsingle (by rintro _ ⟨⟩) c a z
  | array b ih =>
    cases b with
    | list w =>
      simp only [amendFn_list]
      cases hops : Operands.forMany w.len z with
      | error e => exact .failed a (unnamed_iff.1 (unnamed_forMany w.len z) e hops)
      | ok operands =>
        exact fate_amendInTurn (fun y hy => ih y (List.mem_of_mem_drop (List.mem_of_mem_take hy)))
          operands c 0 a
    | _ w => exact hsingle (by rintro _ ⟨⟩) c a z

/-! ## Containers and paths -/

theorem fate_dictAmend (c : Scope) (d : Dict Value) (y : Value) (z : Option Value) :
    Fate f fun g => d.amend settings c y ⟨v, g⟩ z := by
  cases hr : Callee.operands ⟨v, f⟩ z (d.placement settings y).selection with
  | error e =>
    have hsame (g : CallAnswers) :
        Callee.operands ⟨v, g⟩ z (d.placement settings y).selection = .error e := hr
    simp only [Dict.amend, hsame]
    exact .failed d (unnamed_iff.1 (unnamed_operands v f z _) e hr)
  | ok operands =>
    have hsame (g : CallAnswers) :
        Callee.operands ⟨v, g⟩ z (d.placement settings y).selection = .ok operands := hr
    simp only [Dict.amend, hsame]
    exact .map _ (fate_amendAt ..)

/-- An amend goes through, rejects something by itself, or is ended by a call. -/
theorem fate_amend (c : Scope) (x y : Value) (z : Option Value) :
    Fate f fun g => x.amend settings c y ⟨v, g⟩ z := by
  unfold Value.amend
  cases x with
  | array a => exact .map _ (fate_amendFn y c a z)
  | dict s d => exact .map _ (fate_dictAmend c d y z)
  | _ => exact .failed _ rfl

theorem fate_amendElements {update : CallAnswers → ValueUpdate}
    (h : ∀ c x z, Fate f fun g => update g c x z) (operands : Operands) (c : Scope) (k : Nat)
    (ps : List Nat) (w : Window Value) :
    Fate f fun g => amendElements (update g) operands c k ps w := by
  induction ps generalizing k w with
  | nil => exact .done w
  | cons i ps ih =>
    simp only [amendElements]
    cases w.items[i]? with
    | none => exact .failed w rfl
    | some slot =>
      let inner := (c.sub (k + 1)).beside (w.buf.eraseIdx (w.off + i))
      refine (h inner slot (operands.at? k)).andThen (fun g e he => ?_) (fun g hg => ?_)
        (ih (k + 1) { w with
          buf := w.buf.set (w.off + i) (update f inner slot (operands.at? k)).slot })
      · simp only [inner] at he
        simp only [he, Outcome.failed]
      · simp only [inner] at hg
        simp only [hg, Outcome.done, inner]

theorem fate_arrAmendElements {update : CallAnswers → ValueUpdate}
    (h : ∀ c x z, Fate f fun g => update g c x z) (operands : Operands) (c : Scope)
    (ps : List Nat) (a : Arr Value) :
    Fate f fun g => a.amendElements (update g) operands c ps := by
  cases a with
  | list w => exact .map _ (fate_amendElements h operands c 0 ps _)
  | _ => exact .done _

theorem unnamed_ensureContainers (s : Site) (a : Arr Value) (ps : List Nat) :
    Unnamed (a.ensureContainers s ps) := by
  unfold Arr.ensureContainers
  split
  · split <;> first | exact unnamed_ok _ | exact rfl
  · exact rfl

theorem unnamed_arrOpenLevel (s : Site) (a : Arr Value) (y : Value) (z : Option Value) :
    Unnamed (a.openLevel s y ⟨v, f⟩ z) := by
  refine unnamed_bind (unnamed_ofIndex ..) fun sel _ =>
    unnamed_bind (unnamed_operands ..) fun operands _ => ?_
  split
  · exact unnamed_map (unnamed_ensureContainers ..)
  · exact unnamed_ok _

theorem unnamed_dictOpenLevel (s : Site) (d : Dict Value) (plan : Placement) (z : Option Value) :
    Unnamed (d.openLevel s plan ⟨v, f⟩ z) := by
  refine unnamed_bind (unnamed_operands ..) fun operands _ => ?_
  split
  · exact unnamed_map (unnamed_ensureContainers ..)
  · exact unnamed_ok _

theorem fate_amendAlong (path : List Value) (c : Scope) (x : Value) (z : Option Value) :
    Fate f fun g => Value.amendAlong settings ⟨v, g⟩ path c x z := by
  induction path generalizing c x z with
  | nil =>
    refine .congr (fun g _ => ?_) (.ask c.site (x :: z.toList) x fun new => .done new)
    simp only [Value.amendAlong]
    cases g c.site (x :: z.toList) <;> rfl
  | cons y path ih =>
    cases path with
    | nil => exact fate_amend c x y z
    | cons next rest =>
      cases x with
      | array a =>
        cases hr : a.openLevel c.site y ⟨v, f⟩ z with
        | error e =>
          -- A level opens or is refused before the first call, whatever calls answer.
          have hsame (g : CallAnswers) : a.openLevel c.site y ⟨v, g⟩ z = .error e := hr
          simp only [Value.amendAlong, hsame]
          exact .failed _ (unnamed_iff.1 (unnamed_arrOpenLevel ..) e hr)
        | ok level =>
          have hsame (g : CallAnswers) : a.openLevel c.site y ⟨v, g⟩ z = .ok level := hr
          simp only [Value.amendAlong, hsame]
          split
          · exact .done _
          · exact .map _ (fate_arrAmendElements ih ..)
      | dict s d =>
        cases hr : d.openLevel c.site (d.placement settings y) ⟨v, f⟩ z with
        | error e =>
          have hsame (g : CallAnswers) :
              d.openLevel c.site (d.placement settings y) ⟨v, g⟩ z = .error e := hr
          simp only [Value.amendAlong, hsame]
          exact .failed _ (unnamed_iff.1 (unnamed_dictOpenLevel ..) e hr)
        | ok operands =>
          have hsame (g : CallAnswers) :
              d.openLevel c.site (d.placement settings y) ⟨v, g⟩ z = .ok operands := hr
          simp only [Value.amendAlong, hsame]
          split
          · exact .done _
          · exact .map _ (fate_arrAmendElements ih ..)
      | _ => exact .failed _ rfl

/-- An amend along a path goes through, rejects something by itself, or is ended by a call. -/
theorem fate_amendPath (c : Scope) (x path : Value) (z : Option Value) :
    Fate f fun g => x.amendPath settings c path ⟨v, g⟩ z := by
  unfold Value.amendPath
  dsimp only
  split
  · exact .failed x rfl
  · exact fate_amendAlong path.components c x z

end SharedArrays
