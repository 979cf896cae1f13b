import SharedArrays.Proofs.Store.Operators
import SharedArrays.Proofs.Store.Path
import SharedArrays.Proofs.WellFormed.Call

/-!
# Calls and the store

A call makes its answer: it changes nothing that its arguments and the called function refer to.
The body of a user function may amend values in place, but only such as the body has made itself,
since the arguments and the constants of the body are held all the while.

## Main results

* `made_call_cases` — calls of function values, and running bodies
* `makes_ofValue` — function values in the role of an update function
-/

namespace SharedArrays

variable {settings : Settings}

section Bodies

variable {held : List Value} {s : Site} {args : List Value}

/-- The body makes its answers from what is held, provided that its constants and its arguments
are. -/
def Body.Makes (settings : Settings) (b : Body Value) : Prop :=
  ∀ (held : List Value) (s : Site) (args : List Value),
    (∀ st, LiesIn st held → LiesIn st b) → (∀ st, LiesIn st held → LiesIn st args) →
      Made s.Covers held (b.eval settings held s args)

theorem made_evalAll {bs : List (Body Value)} (hmakes : ∀ b ∈ bs, b.Makes settings)
    (hbs : ∀ st, LiesIn st held → LiesIn st bs) (hargs : ∀ st, LiesIn st held → LiesIn st args)
    (i : Nat) : Made (s.From i) held (evalAll settings held bs s i args) := by
  induction bs generalizing i with
  | nil => exact made_of_liesIn fun _ _ => everywhere_empty
  | cons b bs ih =>
    obtain ⟨hmake, hmakes⟩ := List.forall_mem_cons.1 hmakes
    have hb := hmake held (s.sub i) args (fun st h => ((everywhere_cons ..).1 (hbs st h)).1) hargs
    have hrest := ih hmakes (fun st h => ((everywhere_cons ..).1 (hbs st h)).2) (i + 1)
    refine hb.bind (fun v _ => ?_)
      (fun t ht hfrom => Site.not_from_of_sub (Nat.lt_succ_self i) ht hfrom)
      (fun _ => Site.from_of_sub (Nat.le_refl i)) fun _ => Site.From.mono (Nat.le_succ i)
    have hboth : Made (s.From (i + 1)) (held, v) (evalAll settings held bs s (i + 1) args) :=
      hrest.of_input fun st h => ((everywhere_pair ..).1 h).1
    refine hboth.followed (fun _ h => h) fun vs hvs => ?_
    refine (hvs.beside_input (z := v) fun st h => ((everywhere_pair ..).1 h).2).to_output ?_
    exact fun st h => (everywhere_cons ..).2 ((everywhere_pair ..).1 h)

/-- What the body amends has been made by the body, or is shared with what is held. -/
theorem turns_bodyAmend {f : Value} (hf : (Callee.ofValue settings f).Makes)
    (hkf : ∀ st, LiesIn st held → LiesIn st f) (form : Form) (x y : Value) (z : Option Value) :
    Scope.Turns ⟨held, s⟩ (s.From 3) (x, y, z)
      (x.amendBy settings form ⟨held ++ y :: z.toList, s.sub 3⟩ y (.ofValue settings f)
        z).toResult := by
  let c : Scope := ⟨held, s⟩
  have hkeeps {st : Store} (hheld : LiesIn st (held ++ y :: z.toList)) :
      LiesIn st held ∧ LiesIn st y ∧ LiesIn st z.toList := by
    obtain ⟨hheld, hyz⟩ := (everywhere_append ..).1 hheld
    exact ⟨hheld, (everywhere_cons ..).1 hyz⟩
  have hz : ((c.sub 3).beside (y :: z.toList)).Keeps z := fun st hheld => by
    have hz := (hkeeps hheld).2.2
    cases z with
    | none => exact everywhere_none
    | some z => exact ((everywhere_cons ..).1 hz).1
  have hturns : ((c.sub 3).beside (y :: z.toList)).Turns (s.sub 3).Covers x
      (x.amendBy settings form ((c.sub 3).beside (y :: z.toList)) y _ z) :=
    turns_amendBy hf (fun st h => hkf st (hkeeps h).1) (fun st h => (hkeeps h).2.1) hz x
  refine ((hturns.frame.of_sub.of_input fun st h => ?_).to_output fun st h => ?_).mono
    fun _ => Site.from_of_sub (Nat.le_refl 3)
  · obtain ⟨hx, hyz⟩ := (everywhere_pair ..).1 h
    obtain ⟨hy, hz⟩ := (everywhere_pair ..).1 hyz
    exact (everywhere_pair ..).2 ⟨(everywhere_cons ..).2 ⟨hy, everywhere_toList.2 hz⟩, hx⟩
  · exact everywhere_toResult ((everywhere_pair ..).1 h).2

end Bodies

/-- Function values make their answers, and so do the bodies of user functions, as long as their
constants are held. -/
theorem made_call_cases (settings : Settings) : CallCases
    (fun f => (Callee.ofValue settings f).Makes) (Body.Makes settings) where
  other f hf s args := by
    show Made s.Covers (f :: args) (f.apply settings s args)
    rw [apply_of_not_function settings hf]
    exact made_error rfl
  builtin b s args := by
    refine Made.followed (S := s.Covers) ?_ (fun _ h => h) fun v hv =>
      hv.to_output fun _ => everywhere_settle
    have hargs {st : Store} (h : LiesIn st (Value.builtin b :: args)) : LiesIn st args :=
      ((everywhere_cons ..).1 h).2
    split
    · exact (made_monadic b s _).of_input fun st h => ((everywhere_cons ..).1 (hargs h)).1
    · refine (made_dyadic b s _ _).of_input fun st h => ?_
      obtain ⟨hx, hy⟩ := (everywhere_cons ..).1 (hargs h)
      exact (everywhere_pair ..).2 ⟨hx, ((everywhere_cons ..).1 hy).1⟩
    · exact made_error rfl
  lambda t name arity body ih s args := by
    simp only [Callee.ofValue, Value.apply]
    split
    · refine Made.followed (S := s.Covers) (ih _ s args (fun st h => ?_) fun st h => ?_)
        (fun _ h => h) fun v hv => hv.to_output fun _ => everywhere_settle
      · exact ((everywhere_lambda ..).1 ((everywhere_cons ..).1 h).1).2
      · exact ((everywhere_cons ..).1 h).2
    · exact made_error rfl
  compose t outer inner iho ihi s args := by
    have hparts {st : Store} (h : LiesIn st (Value.compose t outer inner :: args)) :
        (LiesIn st outer ∧ LiesIn st inner) ∧ LiesIn st args := by
      obtain ⟨hf, hargs⟩ := (everywhere_cons ..).1 h
      exact ⟨((everywhere_compose ..).1 hf).2, hargs⟩
    -- The inner call works at site 0 and the outer one at site 1, so it keeps what the inner made.
    have hinner : Made (s.sub 0).Covers (Value.compose t outer inner :: args)
        (inner.apply settings (s.sub 0) args) := (ihi (s.sub 0) args).of_input fun st h =>
      (everywhere_cons ..).2 ⟨(hparts h).1.2, (hparts h).2⟩
    refine hinner.bind (fun v _ => ?_) (Site.apart_sub Nat.zero_ne_one)
      (fun _ => Site.Covers.of_sub) fun _ => Site.Covers.of_sub
    refine (iho (s.sub 1) [v]).of_input fun st h => ?_
    obtain ⟨h, hv⟩ := (everywhere_pair ..).1 h
    exact (everywhere_cons ..).2
      ⟨(hparts h).1.1, (everywhere_cons ..).2 ⟨hv, everywhere_empty⟩⟩
  project t g bound ih s args := by
    have hparts {st : Store} (h : LiesIn st (Value.project t g bound :: args)) :
        LiesIn st g ∧ LiesIn st (fillHoles bound args) := by
      obtain ⟨hf, hargs⟩ := (everywhere_cons ..).1 h
      obtain ⟨-, hg, hbound⟩ := (everywhere_project ..).1 hf
      exact ⟨hg, everywhere_fillHoles hbound hargs⟩
    simp only [Callee.ofValue, Value.apply]
    split
    · exact made_error rfl
    -- While holes are left the projection only grows; without one the function is called.
    split
    · exact made_ok (made_object rfl fun st h => List.forall_mem_append.2 (hparts h))
    · exact (ih s _).of_input fun st h =>
        (everywhere_cons ..).2 ⟨(hparts h).1, everywhere_filterMap_id (hparts h).2⟩
  arg k held s args _ hargs := by
    cases hk : args[k]? with
    | none =>
      simp only [Body.eval, hk]
      exact made_of_liesIn fun _ _ => everywhere_nil
    | some v =>
      simp only [Body.eval, hk]
      exact made_of_liesIn fun st h =>
        everywhere_iff_forall.1 (hargs st h) v (List.mem_of_getElem? hk)
  const v held s args hb _ := made_of_liesIn fun st h => hb st h
  call f bs ihf ihbs held s args hb hargs := by
    have hparts {st : Store} (h : LiesIn st held) : LiesIn st f ∧ LiesIn st bs :=
      (everywhere_body_call ..).1 (hb st h)
    -- The arguments are evaluated from site 1 on, since site 0 is that of the call.
    refine (made_evalAll ihbs (fun st h => (hparts h).2) hargs 1).bind (T := (s.sub 0).Covers)
      (fun vs _ => ?_) (fun t ht hs => Site.not_from_of_sub Nat.zero_lt_one hs ht)
      (fun _ => Site.From.covers) fun _ => Site.Covers.of_sub
    refine (ihf (s.sub 0) vs).of_input fun st h => ?_
    obtain ⟨hheld, hvs⟩ := (everywhere_pair ..).1 h
    exact (everywhere_cons ..).2 ⟨(hparts hheld).1, hvs⟩
  raise b ih held s args hb hargs := by
    refine (ih held (s.sub 0) args hb hargs).followed (fun _ => Site.Covers.of_sub) fun v hv => ?_
    exact made_ok ((hv.mono fun _ => Site.below_of_sub).object rfl fun _ h => h)
  fail e held s args hb _ := made_of_liesIn fun st h => (everywhere_body_fail e).1 (hb st h)
  branch b t e ihb iht ihe held s args hb hargs := by
    have hparts {st : Store} (h : LiesIn st held) :
        (LiesIn st b ∧ LiesIn st t) ∧ LiesIn st e := (everywhere_body_branch ..).1 (hb st h)
    refine (ihb held (s.sub 0) args (fun st h => (hparts h).1.1) hargs).followed
      (fun _ => Site.Covers.of_sub) fun v _ => ?_
    have ht := (iht held (s.sub 2) args (fun st h => (hparts h).1.2) hargs).mono
      fun _ => Site.Covers.of_sub
    have he := (ihe held (s.sub 1) args (fun st h => (hparts h).2) hargs).mono
      fun _ => Site.Covers.of_sub
    split
    · exact he
    · split
      · exact he
      · exact ht
    · exact ht
  amend form x y f ihx ihy ihf held s args hb hargs := by
    have hparts {st : Store} (h : LiesIn st held) :
        (LiesIn st x ∧ LiesIn st y) ∧ LiesIn st f := (everywhere_body_amend ..).1 (hb st h)
    have hx := ihx held (s.sub 0) args (fun st h => (hparts h).1.1) hargs
    have hy := ihy held (s.sub 1) args (fun st h => (hparts h).1.2) hargs
    refine (made_of_turns (c := ⟨held, s⟩) (hx.turns_next fun vx _ =>
      hy.turns_next fun vy _ => ?_)).mono fun _ => Site.From.covers
    refine ((turns_bodyAmend ihf (fun st h => (hparts h).2) form vx vy none).of_input
      fun st h => ?_).mono fun _ => Site.From.mono (by omega)
    obtain ⟨h, hvy⟩ := (everywhere_pair ..).1 h
    exact (everywhere_pair ..).2
      ⟨((everywhere_pair ..).1 h).2, (everywhere_pair ..).2 ⟨hvy, everywhere_none⟩⟩
  amendWith form x y f z ihx ihy ihf ihz held s args hb hargs := by
    have hparts {st : Store} (h : LiesIn st held) :
        ((LiesIn st x ∧ LiesIn st y) ∧ LiesIn st f) ∧ LiesIn st z :=
      (everywhere_body_amendWith ..).1 (hb st h)
    have hx := ihx held (s.sub 0) args (fun st h => (hparts h).1.1.1) hargs
    have hy := ihy held (s.sub 1) args (fun st h => (hparts h).1.1.2) hargs
    have hz := ihz held (s.sub 2) args (fun st h => (hparts h).2) hargs
    refine (made_of_turns (c := ⟨held, s⟩) (hx.turns_next fun vx _ => hy.turns_next fun vy _ =>
      hz.turns_next fun vz _ => ?_)).mono fun _ => Site.From.covers
    refine (turns_bodyAmend ihf (fun st h => (hparts h).1.2) form vx vy (some vz)).of_input
      fun st h => ?_
    obtain ⟨h, hvz⟩ := (everywhere_pair ..).1 h
    obtain ⟨h, hvy⟩ := (everywhere_pair ..).1 h
    exact (everywhere_pair ..).2
      ⟨((everywhere_pair ..).1 h).2, (everywhere_pair ..).2 ⟨hvy, hvz⟩⟩

/-- Every function value makes its answers. -/
theorem makes_ofValue (settings : Settings) (f : Value) : (Callee.ofValue settings f).Makes :=
  (made_call_cases settings).value f

end SharedArrays
