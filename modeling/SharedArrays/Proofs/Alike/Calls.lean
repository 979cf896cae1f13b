import SharedArrays.Proofs.Alike.Operators
import SharedArrays.Proofs.Alike.Path
import SharedArrays.Proofs.Projection

/-!
# Which functions do not see sharing

The only objects that are told apart by their identity are functions, and the only functions that a
call makes are projections that wait for more arguments. So a function whose calls never leave a
projection waiting gives answers that depend on nothing but bare arguments. Whether calls leave one
waiting can be read off the function, because a user function calls constants only.

## Main definitions

* `Value.neverWaits`, `Body.neverWaits` — all calls on the way have as many arguments as they need

## Main results

* `isPure_of_neverWaits` — functions of this kind do not see sharing
* `isPure_builtin` — no operator sees sharing
* `not_isPure_project` — a projection that gets too few arguments does
-/

namespace SharedArrays

mutual

/-- No projection is left waiting by a call with `count` arguments, neither by the function itself
nor by those that it calls. -/
def Value.neverWaits (f : Value) (count : Nat) : Bool :=
  match f with
  | .lambda _ _ arity body => count != arity || body.neverWaits
  | .compose _ outer inner => inner.neverWaits count && outer.neverWaits 1
  | .project _ g bound =>
    decide (holes bound ≤ count) && (count != holes bound || g.neverWaits bound.length)
  | _ => true
termination_by structural f

/-- No projection is left waiting when the body runs. -/
def Body.neverWaits (b : Body Value) : Bool :=
  match b with
  | .arg _ | .const _ | .fail _ => true
  | .call f bs => f.neverWaits bs.length && allNeverWait bs
  | .raise b => b.neverWaits
  | .branch c t e => c.neverWaits && t.neverWaits && e.neverWaits
  | .amend _ x y f => x.neverWaits && y.neverWaits && f.neverWaits 1
  | .amendWith _ x y f z => x.neverWaits && y.neverWaits && z.neverWaits && f.neverWaits 2
termination_by structural b

/-- No projection is left waiting when the bodies run one after the other. -/
def allNeverWait (bs : List (Body Value)) : Bool :=
  match bs with
  | [] => true
  | b :: bs => b.neverWaits && allNeverWait bs
termination_by structural bs

end

theorem allNeverWait_iff {bs : List (Body Value)} :
    allNeverWait bs = true ↔ ∀ b ∈ bs, b.neverWaits = true := by
  induction bs with
  | nil => simp [allNeverWait]
  | cons b bs ih => simp [allNeverWait, ih]

/-- What the body answers depends on bare arguments only. -/
def Body.IsPure (settings : Settings) (b : Body Value) : Prop :=
  ∀ held held' s s' args args', WellFormed args → WellFormed args' → Alike args args' →
    Alike (b.eval settings held s args) (b.eval settings held' s' args')

/-! ## Arguments and bodies -/

section Arguments

variable {args args' : List Value}

theorem alike_fillHoles (bound : List (Option Value)) (h : Alike args args') :
    Alike (fillHoles bound args) (fillHoles bound args') := by
  induction bound, args using fillHoles.induct generalizing args' with
  | case1 args => exact .refl _
  | case2 v bound args ih => exact alike_cons.2 ⟨.refl _, ih h⟩
  | case3 bound ih =>
    obtain rfl := alike_nil.1 h
    exact .refl _
  | case4 bound v args ih =>
    obtain ⟨v', args', rfl, hv, h⟩ := h.exists_cons
    exact alike_cons.2 ⟨alike_some.2 hv, ih h⟩

theorem alike_filterMap_id {us vs : List (Option Value)} (h : Alike us vs) :
    Alike (us.filterMap id) (vs.filterMap id) := by
  induction us generalizing vs with
  | nil =>
    obtain rfl := alike_nil.1 h
    exact .refl _
  | cons u us ih =>
    obtain ⟨v, vs, rfl, huv, h⟩ := h.exists_cons
    have ih := ih h
    rcases alike_option_cases huv with ⟨rfl, rfl⟩ | ⟨u, v, rfl, rfl, hsame⟩
    · exact ih
    · exact alike_cons.2 ⟨hsame, ih⟩

theorem length_evalAll {settings : Settings} {held : List Value} {bs : List (Body Value)}
    {s : Site} {i : Nat} {vs : List Value} (h : evalAll settings held bs s i args = .ok vs) :
    vs.length = bs.length := by
  induction bs generalizing i vs with
  | nil =>
    cases h
    rfl
  | cons b bs ih =>
    obtain ⟨v, -, h⟩ := bind_eq_ok.1 h
    obtain ⟨vs, hvs, h⟩ := bind_eq_ok.1 h
    cases h
    rw [List.length_cons, List.length_cons, ih hvs]

theorem alike_evalAll {settings : Settings} {held held' : List Value} {bs : List (Body Value)}
    (hbs : ∀ b ∈ bs, b.IsPure settings) {s s' : Site} {i i' : Nat} (hargs : WellFormed args)
    (hargs' : WellFormed args') (h : Alike args args') :
    Alike (evalAll settings held bs s i args) (evalAll settings held' bs s' i' args') := by
  induction bs generalizing i i' with
  | nil => exact .refl _
  | cons b bs ih =>
    obtain ⟨hb, hbs⟩ := List.forall_mem_cons.1 hbs
    refine alike_bind (hb _ _ _ _ _ _ hargs hargs' h) fun v v' _ _ hv => ?_
    refine alike_bind (ih hbs) fun vs vs' _ _ hvs => ?_
    exact alike_ok.2 (alike_cons.2 ⟨hv, hvs⟩)

/-- What follows a body works on answers that are alike, and well-formed. -/
theorem Body.IsPure.bind {settings : Settings} {b : Body Value} (hpure : b.IsPure settings)
    (hb : WellFormed b) (hargs : WellFormed args) (hargs' : WellFormed args')
    (h : Alike args args') {held held' : List Value} {s s' : Site} {k k' : Value → Result Value}
    (hk : ∀ v v', WellFormed v → WellFormed v' → Alike v v' → Alike (k v) (k' v')) :
    Alike (b.eval settings held s args >>= k) (b.eval settings held' s' args' >>= k') := by
  refine alike_bind (hpure held held' s s' args args' hargs hargs' h) fun v v' hv hv' hvv => ?_
  exact hk v v' (everywhere_of_ok (wellFormed_eval hb hargs) hv)
    (everywhere_of_ok (wellFormed_eval hb hargs') hv') hvv

end Arguments

/-! ## Calls -/

theorem isPure_builtin (settings : Settings) (b : Builtin) (count : Nat) :
    (Value.builtin b).IsPure settings count := by
  intro s s' args args' _ hargs hargs' h
  refine alike_bind ?_ fun v v' _ _ => alike_settle
  rw [h.length_eq]
  rcases args with _ | ⟨x, _ | ⟨y, _ | ⟨w, rest⟩⟩⟩
  · obtain rfl := alike_nil.1 h
    exact .refl _
  · obtain ⟨x', _, rfl, hx, h⟩ := h.exists_cons
    obtain rfl := alike_nil.1 h
    exact alike_monadic b s s' ((everywhere_cons ..).1 hargs).1 ((everywhere_cons ..).1 hargs').1 hx
  · obtain ⟨x', _, rfl, hx, h⟩ := h.exists_cons
    obtain ⟨y', _, rfl, hy, h⟩ := h.exists_cons
    obtain rfl := alike_nil.1 h
    simp only [everywhere_cons] at hargs hargs'
    exact alike_dyadic b s s' hargs.1 hargs'.1 hx hargs.2.1 hargs'.2.1 hy
  · obtain ⟨x', _, rfl, -, h⟩ := h.exists_cons
    obtain ⟨y', _, rfl, -, h⟩ := h.exists_cons
    obtain ⟨w', _, rfl, -, -⟩ := h.exists_cons
    exact .refl _

/-- Functions and bodies that leave no projection waiting do not see sharing. What a running
function keeps alive decides where amends may write, and so is seen as little. -/
theorem call_cases_isPure (settings : Settings) : CallCases
    (fun f => WellFormed f → ∀ count, f.neverWaits count = true → f.IsPure settings count)
    (fun b => WellFormed b → b.neverWaits = true → b.IsPure settings) where
  other f hf _ count _ s s' args args' _ _ _ _ := by
    show Alike (f.apply settings s args) (f.apply settings s' args')
    rw [apply_of_not_function settings hf, apply_of_not_function settings hf]
    exact .refl _
  builtin b _ count _ := isPure_builtin settings b count
  lambda t name arity body ih hf count hwaits s s' args args' hcount hargs hargs' h := by
    show Alike (Value.apply settings _ s args) (Value.apply settings _ s' args')
    simp only [Value.apply, ← h.length_eq, hcount]
    split
    · rename_i harity
      have hbody := ((everywhere_lambda ..).1 hf).2
      have hwb : body.neverWaits = true := by simpa [Value.neverWaits, harity] using hwaits
      exact (ih hbody hwb).bind hbody hargs hargs' h fun v v' _ _ => alike_settle
    · exact .refl _
  compose t outer inner iho ihi hf count hwaits s s' args args' hcount hargs hargs' h := by
    obtain ⟨-, ho, hi⟩ := (everywhere_compose ..).1 hf
    obtain ⟨hwi, hwo⟩ := Bool.and_eq_true_iff.1 hwaits
    refine alike_bind (ihi hi count hwi _ _ args args' hcount hargs hargs' h)
      fun v v' hv hv' hvv => ?_
    have hwell {s : Site} {args : List Value} {v : Value} (hargs : WellFormed args)
        (hv : inner.apply settings s args = .ok v) : WellFormed [v] :=
      everywhere_singleton.2 (everywhere_of_ok (safe_ofValue hi s args hargs) hv)
    exact iho ho 1 hwo _ _ [v] [v'] rfl (hwell hargs hv) (hwell hargs' hv')
      (alike_cons.2 ⟨hvv, .refl _⟩)
  project t g bound ih hf count hwaits s s' args args' hcount hargs hargs' h := by
    obtain ⟨-, hg, hbound⟩ := (everywhere_project ..).1 hf
    show Alike (Value.apply settings _ s args) (Value.apply settings _ s' args')
    simp only [Value.apply, ← h.length_eq, hcount]
    split
    · exact .refl _
    · obtain ⟨hholes, hwg⟩ := Bool.and_eq_true_iff.1 hwaits
      have hle : holes bound ≤ count := of_decide_eq_true hholes
      -- There is an argument for each hole, so that the call is made.
      rw [if_neg (by omega), if_neg (by omega)]
      have hcall : args.length = holes bound := by omega
      obtain ⟨call, hfilled, hlength, -⟩ := exists_call_of_filled hcall
      refine ih hg bound.length ?_ s s' _ _ (hfilled ▸ hlength)
        (everywhere_filterMap_id (everywhere_fillHoles hbound hargs))
        (everywhere_filterMap_id (everywhere_fillHoles hbound hargs'))
        (alike_filterMap_id (alike_fillHoles bound h))
      simpa [← hcount, hcall] using hwg
  arg k _ _ held held' s s' args args' _ _ h := by
    refine alike_ok.2 ?_
    rcases alike_option_cases (h.getElem? k) with ⟨hk, hk'⟩ | ⟨v, v', hk, hk', hv⟩
    · rw [hk, hk']
      exact .refl _
    · rw [hk, hk']
      exact hv
  const v _ _ held held' s s' args args' _ _ _ := .refl _
  call f bs ihf ihbs hb hwaits held held' s s' args args' hargs hargs' h := by
    obtain ⟨hf, hbs⟩ := (everywhere_body_call ..).1 hb
    obtain ⟨hwf, hwbs⟩ := Bool.and_eq_true_iff.1 hwaits
    have hpure : ∀ b ∈ bs, b.IsPure settings := fun b hmem =>
      ihbs b hmem (everywhere_iff_forall.1 hbs b hmem) (allNeverWait_iff.1 hwbs b hmem)
    have hwell {held : List Value} {s : Site} {args vs : List Value} (hargs : WellFormed args)
        (hvs : evalAll settings held bs s 1 args = .ok vs) : WellFormed vs :=
      everywhere_of_ok (everywhere_evalAll (fun b hmem s args hargs =>
        wellFormed_eval (everywhere_iff_forall.1 hbs b hmem) hargs) hargs) hvs
    refine alike_bind (alike_evalAll hpure hargs hargs' h) fun vs vs' hvs hvs' hvv => ?_
    exact ihf hf bs.length hwf _ _ vs vs' (length_evalAll hvs) (hwell hargs hvs)
      (hwell hargs' hvs') hvv
  raise b ih hb hwaits held held' s s' args args' hargs hargs' h :=
    have hb : WellFormed b := (everywhere_body_raise b).1 hb
    (ih hb hwaits).bind hb hargs hargs' h fun v v' _ _ hv => alike_ok.2 (alike_errorValue.2 hv)
  fail e _ _ held held' s s' args args' _ _ _ := .refl _
  branch c t e ihc iht ihe hb hwaits held held' s s' args args' hargs hargs' h := by
    obtain ⟨⟨hc, ht⟩, he⟩ := (everywhere_body_branch ..).1 hb
    simp only [Body.neverWaits, Bool.and_eq_true] at hwaits
    obtain ⟨⟨hwc, hwt⟩, hwe⟩ := hwaits
    have hthen := iht ht hwt held held' (s.sub 2) (s'.sub 2) args args' hargs hargs' h
    have helse := ihe he hwe held held' (s.sub 1) (s'.sub 1) args args' hargs hargs' h
    refine (ihc hc hwc).bind hc hargs hargs' h fun v v' _ _ hvv => ?_
    -- Only leaves are told from one another.
    rcases alike_value_cases hvv with ⟨a, b, rfl, rfl, -⟩ | ⟨t, u, d, e, rfl, rfl, -⟩ |
      ⟨t, u, w, w', rfl, rfl, -⟩ | ⟨-, rfl⟩
    · exact hthen
    · exact hthen
    · exact hthen
    · split
      · exact helse
      · split
        · exact helse
        · exact hthen
      · exact hthen
  amend form x y f ihx ihy ihf hb hwaits held held' s s' args args' hargs hargs' h := by
    obtain ⟨⟨hx, hy⟩, hf⟩ := (everywhere_body_amend ..).1 hb
    simp only [Body.neverWaits, Bool.and_eq_true] at hwaits
    obtain ⟨⟨hwx, hwy⟩, hwf⟩ := hwaits
    have hblind : (Callee.ofValue settings f).Blind false := blind_ofValue hf (ihf hf 1 hwf)
    refine (ihx hx hwx).bind hx hargs hargs' h fun vx vx' hvx hvx' hxx => ?_
    refine (ihy hy hwy).bind hy hargs hargs' h fun vy vy' hvy hvy' hyy => ?_
    exact alike_toResult (alike_amendBy hblind form hvy hvy' hyy hvx hvx' hxx everywhere_none
      everywhere_none (.refl _) rfl)
  amendWith form x y f z ihx ihy ihf ihz hb hwaits held held' s s' args args' hargs hargs' h := by
    obtain ⟨⟨⟨hx, hy⟩, hf⟩, hz⟩ := (everywhere_body_amendWith ..).1 hb
    simp only [Body.neverWaits, Bool.and_eq_true] at hwaits
    obtain ⟨⟨⟨hwx, hwy⟩, hwz⟩, hwf⟩ := hwaits
    have hblind : (Callee.ofValue settings f).Blind true := blind_ofValue hf (ihf hf 2 hwf)
    refine (ihx hx hwx).bind hx hargs hargs' h fun vx vx' hvx hvx' hxx => ?_
    refine (ihy hy hwy).bind hy hargs hargs' h fun vy vy' hvy hvy' hyy => ?_
    refine (ihz hz hwz).bind hz hargs hargs' h fun vz vz' hvz hvz' hzz => ?_
    exact alike_toResult (alike_amendBy hblind form hvy hvy' hyy hvx hvx' hxx
      ((everywhere_some vz).2 hvz) ((everywhere_some vz').2 hvz') (alike_some.2 hzz) rfl)

/-- A function that leaves no projection waiting does not see sharing. -/
theorem isPure_of_neverWaits {settings : Settings} {f : Value} (hf : WellFormed f) {count : Nat}
    (h : f.neverWaits count = true) : f.IsPure settings count :=
  (call_cases_isPure settings).value f hf count h

/-- A user function of two arguments, which adds the second one to every element of the first. -/
example : (Value.lambda ⟨[0]⟩ "raise" 2 (.amendWith .flat (.arg 0) (.const .nil) (.builtin .add)
    (.arg 1))).neverWaits 2 = true := rfl

/-- A projection that gets too few arguments makes a new one, which is told from all others. -/
theorem not_isPure_project {settings : Settings} {t : Site} {g : Value}
    {bound : List (Option Value)} {count : Nat} (h : count < holes bound) :
    ¬(Value.project t g bound).IsPure settings count := by
  intro hpure
  have hargs : WellFormed (List.replicate count Value.nil) :=
    everywhere_iff_forall.2 fun v hv => (List.eq_of_mem_replicate hv) ▸ everywhere_nil
  have hlength : (List.replicate count Value.nil).length < holes bound := by
    rwa [List.length_replicate]
  have halike := hpure ⟨[0]⟩ ⟨[1]⟩ _ _ List.length_replicate hargs hargs (.refl _)
  have hsites : (⟨[0]⟩ : Site) = ⟨[1]⟩ := by
    have halike : Alike (Value.apply settings _ ⟨[0]⟩ _) (Value.apply settings _ ⟨[1]⟩ _) := halike
    rw [project_apply_of_lt hlength, project_apply_of_lt hlength] at halike
    exact (Value.project.inj (alike_ok.1 halike)).1
  exact absurd hsites (by decide)

end SharedArrays
