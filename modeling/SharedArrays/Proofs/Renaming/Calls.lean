import SharedArrays.Proofs.Renaming.Amend
import SharedArrays.Proofs.Closed.Calls
import SharedArrays.Interface

/-!
# Calls under other names

A function value under other names answers arguments under other names with its answer, under
other names. So the names of objects, and the order in which they are given out, show in nothing
that a program can see.

## Main definitions

* `ApplyRenamed`, `EvalRenamed` — calls and bodies that answer the same under other names

## Main results

* `Value.text_rename` — the text of a value
* `apply_rename` — calling function values
* `amended_rename` — amends of a value
-/

namespace SharedArrays

variable {ρ : Site → Site}

/-! ## Texts -/

mutual

theorem Value.text_rename (ρ : Site → Site) : ∀ v : Value, (v.rename ρ).text = v.text
  | .array a => a.text_rename ρ
  | .dict s ⟨keys, vals⟩ => by
    have hlen : (keys.rename ρ).len = keys.len := len_rename keys
    have hkind : (keys.rename ρ).kind = keys.kind := kind_rename keys
    simp only [Value.rename, Value.text, keys.text_rename, vals.text_rename, hlen, hkind]
  | .error s v => by simp only [Value.rename, Value.text, v.text_rename]
  | .lambda s name arity body => rfl
  | .compose s outer inner => by
    simp only [Value.rename, Value.text, outer.text_rename, inner.text_rename]
  | .project s f args => by
    simp only [Value.rename, Value.text, f.text_rename, argTexts_rename]
  | .nil => rfl
  | .int _ => rfl
  | .float _ => rfl
  | .str _ => rfl
  | .builtin _ => rfl

theorem Arr.text_rename (ρ : Site → Site) : ∀ a : Arr Value, (a.rename ρ).text = a.text
  | .bools _ => rfl
  | .ints _ => rfl
  | .floats _ => rfl
  | .strs _ => rfl
  | .list ⟨s, buf, off, len, flags⟩ => by
    have hitems : stretch off len (renameCells ρ buf) = (stretch off len buf).map (rename ρ) := by
      rw [renameCells_eq]
      exact stretch_map ..
    simp only [Arr.rename, Arr.text, texts_rename, hitems]
    generalize stretch off len buf = vs
    generalize stretch off len (texts buf) = ts
    -- How an element is put in brackets depends on its variant and on its length.
    rcases vs with _ | ⟨v, _ | ⟨_, _⟩⟩
    · rfl
    · rcases ts with _ | ⟨t, _ | ⟨_, _⟩⟩
      · cases v <;> rfl
      · cases v with
        | array a =>
          show (if (rename ρ a).len = 1 then "," ++ t else ",(" ++ t ++ ")") = _
          rw [len_rename]
        | _ => rfl
      · cases v <;> rfl
    · cases v <;> rfl

theorem texts_rename (ρ : Site → Site) : ∀ vs : List Value, texts (renameCells ρ vs) = texts vs
  | [] => rfl
  | v :: vs => by simp only [renameCells, texts, v.text_rename, texts_rename ρ vs]

theorem argTexts_rename (ρ : Site → Site) : ∀ vs : List (Option Value),
    argTexts (renameArgs ρ vs) = argTexts vs
  | [] => rfl
  | none :: vs => by simp only [renameArgs, argTexts, argTexts_rename ρ vs]
  | some v :: vs => by simp only [renameArgs, argTexts, v.text_rename, argTexts_rename ρ vs]

end

/-! ## Arguments -/

@[simp] theorem length_rename {α : Type} [Renamable α] (xs : List α) :
    (rename ρ xs).length = xs.length := List.length_map _

theorem holes_rename (bound : List (Option Value)) : holes (rename ρ bound) = holes bound := by
  rw [holes, holes, rename_list_eq_map, List.countP_map]
  exact List.countP_congr fun v _ => by cases v <;> rfl

theorem fillHoles_rename (bound : List (Option Value)) (args : List Value) :
    fillHoles (rename ρ bound) (rename ρ args) = rename ρ (fillHoles bound args) := by
  induction bound generalizing args with
  | nil => rfl
  | cons v bound ih =>
    cases v with
    | some v => exact congrArg (some (rename ρ v) :: ·) (ih args)
    | none =>
      cases args with
      | nil => exact congrArg (none :: ·) (ih [])
      | cons v args => exact congrArg (some (rename ρ v) :: ·) (ih args)

theorem filled_rename (bound : List (Option Value)) :
    (rename ρ bound).filterMap id = rename ρ (bound.filterMap id) := by
  induction bound with
  | nil => rfl
  | cons v bound ih =>
    cases v with
    | none => exact ih
    | some v => exact congrArg (rename ρ v :: ·) ih

/-! ## Calls -/

section Calls

variable {settings : Settings}

/-- Calls of the function answer the same under other names. -/
def ApplyRenamed (ρ : Site → Site) (settings : Settings) (f : Value) : Prop :=
  ∀ s, Carries ρ s → ∀ args,
    (rename ρ f).apply settings (ρ s) (rename ρ args) = rename ρ (f.apply settings s args)

/-- The body of a user function answers the same under other names. -/
def EvalRenamed (ρ : Site → Site) (settings : Settings) (b : Body Value) : Prop :=
  ∀ held s args, Carries ρ s →
    (rename ρ b).eval settings (rename ρ held) (ρ s) (rename ρ args) =
      rename ρ (b.eval settings held s args)

/-- The calls that a run at `s` makes are at parts of `s`. -/
theorem ApplyRenamed.part {f : Value} (hf : ApplyRenamed ρ settings f) {s : Site}
    (h : Carries ρ s) (k : Nat) (args : List Value) :
    (rename ρ f).apply settings ((ρ s).sub k) (rename ρ args) =
      rename ρ (f.apply settings (s.sub k) args) := by
  rw [← h.sub_eq]
  exact hf _ (h.sub k) args

theorem EvalRenamed.part {b : Body Value} (hb : EvalRenamed ρ settings b) {s : Site}
    (h : Carries ρ s) (k : Nat) (held args : List Value) :
    (rename ρ b).eval settings (rename ρ held) ((ρ s).sub k) (rename ρ args) =
      rename ρ (b.eval settings held (s.sub k) args) := by
  rw [← h.sub_eq]
  exact hb held _ args (h.sub k)

theorem evalAll_rename {bs : List (Body Value)} {s : Site} (h : Carries ρ s)
    (hbs : ∀ b ∈ bs, EvalRenamed ρ settings b) (held args : List Value) (i : Nat) :
    evalAll settings (rename ρ held) (rename ρ bs) (ρ s) i (rename ρ args) =
      rename ρ (evalAll settings held bs s i args) := by
  induction bs generalizing i with
  | nil => rfl
  | cons b bs ih =>
    obtain ⟨hb, hbs⟩ := List.forall_mem_cons.1 hbs
    exact bind_rename (hb.part h i held args) fun v => bind_rename (ih hbs (i + 1)) fun vs => rfl

/-- An amend that the body of a user function makes, beside what the function holds. -/
theorem amendIn_rename (hρ : Function.Injective ρ) {f : Value} (hf : ApplyRenamed ρ settings f)
    (form : Form) (held evaluated : List Value) {s : Site} (h : Carries ρ s) (x y : Value)
    (z : Option Value) :
    ((rename ρ x).amendBy settings form ⟨rename ρ held ++ rename ρ evaluated, (ρ s).sub 3⟩
      (rename ρ y) ⟨rename ρ f, (rename ρ f).apply settings⟩ (rename ρ z)).toResult =
      rename ρ (x.amendBy settings form ⟨held ++ evaluated, s.sub 3⟩ y ⟨f, f.apply settings⟩
        z).toResult := by
  have hscope : (⟨rename ρ held ++ rename ρ evaluated, (ρ s).sub 3⟩ : Scope) =
      rename ρ (⟨held ++ evaluated, s.sub 3⟩ : Scope) := by
    rw [← rename_append, ← h.sub_eq]
    rfl
  have hcallee : Callee.Renamed ρ ⟨f, f.apply settings⟩
      ⟨rename ρ f, (rename ρ f).apply settings⟩ := ⟨rfl, hf⟩
  rw [hscope, amendBy_rename hρ hcallee settings form (c := ⟨held ++ evaluated, s.sub 3⟩) (h.sub 3),
    toResult_rename]

theorem call_cases_rename (hρ : Function.Injective ρ) (settings : Settings) :
    CallCases (ApplyRenamed ρ settings) (EvalRenamed ρ settings) where
  other f hf s h args := by
    rw [apply_of_not_function settings hf,
      apply_of_not_function settings ((isFunction_rename f).trans hf), typeName_rename]
    rfl
  builtin b s h args := by
    refine bind_rename ?_ settle_rename
    rcases args with _ | ⟨x, _ | ⟨y, _ | ⟨z, args⟩⟩⟩
    · rfl
    · exact monadic_rename b h x
    · exact dyadic_rename hρ b h x y
    · show (.error (.arity b.symbol "1-2" (rename ρ (x :: y :: z :: args)).length) :
        Result Value) = _
      rw [length_rename]
      rfl
  lambda t name arity body ih s h args := by
    -- What the running function keeps alive goes under new names as well.
    have hbody := ih (.lambda t name arity body :: args) s args h
    show (if (rename ρ args).length = arity then
        (rename ρ body).eval settings (rename ρ (.lambda t name arity body :: args)) (ρ s)
          (rename ρ args) >>= Value.settle
      else .error (.arity name (toString arity) (rename ρ args).length)) =
        rename ρ (if args.length = arity then
          body.eval settings (.lambda t name arity body :: args) s args >>= Value.settle
        else .error (.arity name (toString arity) args.length))
    rw [length_rename]
    split
    · exact bind_rename hbody settle_rename
    · rfl
  compose t outer inner iho ihi s h args :=
    bind_rename (ihi.part h 0 args) fun v => iho.part h 1 [v]
  project t g bound ih s h args := by
    have hproject (t : Site) (bound : List (Option Value)) :
        rename ρ (.project t g bound : Value) = .project (ρ t) (rename ρ g) (rename ρ bound) :=
      congrArg (Value.project (ρ t) (rename ρ g)) (renameArgs_eq bound)
    have htext : (Value.project (ρ t) (rename ρ g) (rename ρ bound)).text =
        (Value.project t g bound).text := by
      rw [← hproject]
      exact Value.text_rename ρ _
    rw [hproject]
    -- A projection that goes on waiting is made at the new site.
    simp only [Value.apply, htext, holes_rename, length_rename, fillHoles_rename, filled_rename]
    split
    · rfl
    · split
      · exact congrArg Except.ok (hproject s (fillHoles bound args)).symm
      · exact ih s h _
  arg k held s args h := by
    show Except.ok ((rename ρ args)[k]?.getD .nil) = Except.ok (rename ρ (args[k]?.getD .nil))
    rw [rename_list_eq_map, List.getElem?_map]
    cases args[k]? <;> rfl
  const v held s args h := rfl
  call f bs ihf ihbs held s args h := by
    show (do let vs ← evalAll settings (rename ρ held) (renameBodies ρ bs) (ρ s) 1 (rename ρ args)
             (rename ρ f).apply settings ((ρ s).sub 0) vs : Result Value) = _
    rw [renameBodies_eq]
    exact bind_rename (evalAll_rename h ihbs held args 1) fun vs => ihf.part h 0 vs
  raise b ih held s args h := bind_rename (ih.part h 0 held args) fun v => rfl
  fail e held s args h := by
    obtain ⟨c, op, hint⟩ := e
    cases c <;> rfl
  branch c t e ihc iht ihe held s args h := by
    have he := ihe.part h 1 held args
    have ht := iht.part h 2 held args
    refine bind_rename (ihc.part h 0 held args) fun v => ?_
    cases v with
    | nil => exact he
    | int n =>
      show (if n = 0 then _ else _) = rename ρ (if n = 0 then _ else _)
      split
      · exact he
      · exact ht
    | _ => exact ht
  amend form x y f ihx ihy ihf held s args h :=
    bind_rename (ihx.part h 0 held args) fun x => bind_rename (ihy.part h 1 held args) fun y =>
      amendIn_rename hρ ihf form held [y] h x y none
  amendWith form x y f z ihx ihy ihf ihz held s args h :=
    bind_rename (ihx.part h 0 held args) fun x => bind_rename (ihy.part h 1 held args) fun y =>
      bind_rename (ihz.part h 2 held args) fun z => amendIn_rename hρ ihf form held [y, z] h x y z

end Calls

/-- Calls under other names. -/
theorem apply_rename (hρ : Function.Injective ρ) (settings : Settings) (f : Value) {s : Site}
    (h : Carries ρ s) (args : List Value) :
    (rename ρ f).apply settings (ρ s) (rename ρ args) = rename ρ (f.apply settings s args) :=
  (call_cases_rename hρ settings).value f s h args

theorem renamed_ofValue (hρ : Function.Injective ρ) (settings : Settings) (f : Value) :
    (Callee.ofValue settings f).Renamed ρ (Callee.ofValue settings (rename ρ f)) :=
  ⟨rfl, fun _ h args => apply_rename hρ settings f h args⟩

/-- Amends under other names, of either form. In what an amend answers, the names of objects show
in nothing but names. -/
theorem amended_rename (hρ : Function.Injective ρ) (settings : Settings) (form : Form) {c : Scope}
    (h : Carries ρ c.site) (x y f : Value) (z : Option Value) :
    (rename ρ x).amended settings form (rename ρ c) (rename ρ y) (rename ρ f) (rename ρ z) =
      rename ρ (x.amended settings form c y f z) := by
  have hslot := amendBy_rename hρ (renamed_ofValue hρ settings f) settings form h z x y
  rw [Value.amended, Value.amendSlot, hslot, toResult_rename]
  rfl

end SharedArrays
