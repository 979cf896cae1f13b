import SharedArrays.Proofs.Places
import SharedArrays.Proofs.Renaming.Sites

/-!
# Independent updates commute

Two amends along paths of single components do not see one another, if neither of their places lies
inside the other. After the one, the path of the other leads to the same place, and the same value
stands there. So the order matters only as far as the functions answer one thing at one site and
another thing at another. They never do so if each amend works at its own site in both orders. For a
pure function all sites are the same, and for any other function they differ in names.

## Main definitions

* `Updates`, `Amends` — what an amend along a path needs, of any function and of a pure one

## Main results

* `amends_commute_at_sites` — amends by any functions, each at a site of its own
* `amends_commute_exchange` — the same, where the second amends work at other sites
* `independent_amends_commute` — amends by pure functions, at any sites
-/

namespace SharedArrays

section Commute

variable {settings : Settings} {x x' : Value} {ps qs : List Nat}

/-! ## Amends at places -/

/-- What an amend of a value along a path needs, apart from the value: the parts are well-formed,
the path is not too long, and the function value can be called. -/
structure Updates (settings : Settings) (path f : Value) (z : Option Value) : Prop where
  wellFormed_path : WellFormed path
  limit : path.components.length ≤ settings.pathLimit
  wellFormed_function : WellFormed f
  isFunction : f.isFunction = true
  wellFormed_operand : WellFormed z

/-- What an amend of a value along a path needs, apart from the value: the parts are well-formed,
the path is not too long, and the function value is a pure function. -/
structure Amends (settings : Settings) (path f : Value) (z : Option Value) : Prop where
  wellFormed_path : WellFormed path
  limit : path.components.length ≤ settings.pathLimit
  wellFormed_function : WellFormed f
  isFunction : f.isFunction = true
  isPure : f.IsPure settings (updateArity z.isSome)
  wellFormed_operand : WellFormed z

theorem Amends.updates {path f : Value} {z : Option Value} (h : Amends settings path f z) :
    Updates settings path f z :=
  ⟨h.wellFormed_path, h.limit, h.wellFormed_function, h.isFunction, h.wellFormed_operand⟩

section Updates

variable {path f old : Value} {z : Option Value} (h : Updates settings path f z)
include h

theorem Updates.resolved (hx : WellFormed x) (hpath : x.resolve? path.components = some ps)
    (hold : x.follow? ps = some old) (c : Scope) :
    (∃ v x', f.apply settings (x.callSite c.site ps) (old :: z.toList) = .ok v ∧
        x.amended settings .path c path f z = .ok x' ∧ WellFormed x' ∧ v.Replaced ps x x') ∨
      ∃ e e', f.apply settings (x.callSite c.site ps) (old :: z.toList) = .error e ∧
        x.amended settings .path c path f z = .error e' := by
  have hwf : WellFormed (x.amended settings .path c path f z) :=
    everywhere_toResult <| wellFormed_amendSlot hx h.wellFormed_path h.wellFormed_function
      h.wellFormed_operand
  rw [amended_path h.limit] at hwf ⊢
  rcases amendAlong_resolved settings (real_ofValue settings f) h.isFunction hx
    h.wellFormed_operand hpath hold c with ⟨v, x', hv, hx', hreplaced⟩ | ⟨e, x', he, hx'⟩
  · rw [hx'] at hwf ⊢
    exact .inl ⟨v, x', hv, rfl, hwf, hreplaced⟩
  · rw [hx']
    exact .inr ⟨e, _, he, rfl⟩

/-- An amend that goes through has put an answer of its function at its place. -/
theorem Updates.exists_answer (hx : WellFormed x) (hpath : x.resolve? path.components = some ps)
    {c : Scope} {u : Value} (hu : x.amended settings .path c path f z = .ok u) :
    ∃ old v, x.follow? ps = some old ∧
      f.apply settings (x.callSite c.site ps) (old :: z.toList) = .ok v ∧ WellFormed u ∧
        v.Replaced ps x u := by
  obtain ⟨old, hold⟩ := exists_follow?_of_resolve? hpath
  rcases h.resolved hx hpath hold c with ⟨v, _, hv, hu', hwf, hreplaced⟩ | ⟨_, _, -, hu'⟩
  · cases hu.symm.trans hu'
    exact ⟨old, v, hold, hv, hwf, hreplaced⟩
  · cases hu.symm.trans hu'

/-- After something has been put at a place that is independent of its own, an amend puts what it
would have put before. -/
theorem Updates.after (hx : WellFormed x) (hx' : WellFormed x') {w v : Value}
    (hreplaced : w.Replaced qs x x') (hqs : ¬qs <+: ps) (hps : ¬ps <+: qs)
    (hpath : x.resolve? path.components = some ps) (hold : x.follow? ps = some old) (c : Scope)
    (hv : f.apply settings (x.callSite c.site ps) (old :: z.toList) = .ok v) :
    ∃ x'', x'.amended settings .path c path f z = .ok x'' ∧ v.Replaced ps x' x'' := by
  obtain ⟨hpath', hfollow, hsite⟩ := hreplaced.resolve? hx hx' hqs hps hpath c.site
  rcases h.resolved hx' hpath' (hfollow.trans hold) c with
    ⟨v', x'', hv', hx'', -, hnew⟩ | ⟨e, _, he, -⟩
  · rw [hsite] at hv'
    cases hv.symm.trans hv'
    exact ⟨x'', hx'', hnew⟩
  · rw [hsite] at he
    cases hv.symm.trans he

end Updates

/-! ## Both orders -/

/-- Equal answers put at two independent places, in either order. -/
theorem eqv_of_replaced {u v u' v' a a' b b' : Value} (hu : a.Replaced ps x u)
    (hu' : b'.Replaced qs u u') (hv : b.Replaced qs x v) (hv' : a'.Replaced ps v v')
    (hps : ¬ps <+: qs) (hqs : ¬qs <+: ps) (ha : a.eqv a' = true) (hb : b.eqv b' = true) :
    u'.eqv v' = true := by
  have hleft : (b'.putAt qs (a.putAt ps x)).eqv u' = true :=
    eqv_trans (putAt_congr (eqv_refl b') qs hu.eqv) hu'.eqv
  have hright : (a'.putAt ps (b.putAt qs x)).eqv v' = true :=
    eqv_trans (putAt_congr (eqv_refl a') ps hv.eqv) hv'.eqv
  have hboth : (b'.putAt qs (a.putAt ps x)).eqv (a'.putAt ps (b.putAt qs x)) = true := by
    rw [putAt_comm a b' hps hqs]
    exact putAt_congr ha ps (putAt_congr (eqv_symm hb) qs (eqv_refl x))
  exact eqv_trans (eqv_symm hleft) (eqv_trans hboth hright)

/-- Where the function answers at the one site, it answers an equal value at the other. -/
def Value.AnswersAs (settings : Settings) (f : Value) (s t : Site) (args : List Value) : Prop :=
  ∀ a, f.apply settings s args = .ok a → ∃ a', f.apply settings t args = .ok a' ∧ a.eqv a' = true

section Orders

variable {p q f g : Value} {z w : Option Value} (hx : WellFormed x) (hf : Updates settings p f z)
  (hg : Updates settings q g w) (hp : x.resolve? p.components = some ps)
  (hq : x.resolve? q.components = some qs) (hps : ¬ps <+: qs) (hqs : ¬qs <+: ps)
include hx hf hg hp hq hps hqs

/-- Two amends along paths of single components, at places of which neither lies inside the other:
if both go through, and the functions answer alike for what stands there at the sites where they
are called in the other order, then each goes through after the other, and the results are equal. -/
theorem amends_commute_of_answers {c c' d d' : Scope}
    (hanswers : ∀ old, x.follow? ps = some old →
      f.AnswersAs settings (x.callSite c.site ps) (x.callSite c'.site ps) (old :: z.toList))
    (hanswers' : ∀ old, x.follow? qs = some old →
      g.AnswersAs settings (x.callSite d.site qs) (x.callSite d'.site qs) (old :: w.toList))
    {u v : Value} (hu : x.amended settings .path c p f z = .ok u)
    (hv : x.amended settings .path d q g w = .ok v) :
    ∃ u' v', u.amended settings .path d' q g w = .ok u' ∧
      v.amended settings .path c' p f z = .ok v' ∧ u'.eqv v' = true := by
  obtain ⟨old, a, hold, ha, hwfu, hxu⟩ := hf.exists_answer hx hp hu
  obtain ⟨old', b, hold', hb, hwfv, hxv⟩ := hg.exists_answer hx hq hv
  obtain ⟨a', ha', haa⟩ := hanswers old hold a ha
  obtain ⟨b', hb', hbb⟩ := hanswers' old' hold' b hb
  obtain ⟨u', hu', huu⟩ := hg.after hx hwfu hxu hps hqs hq hold' d' hb'
  obtain ⟨v', hv', hvv⟩ := hf.after hx hwfv hxv hqs hps hp hold c' ha'
  exact ⟨u', v', hu', hv', eqv_of_replaced hxu huu hxv hvv hps hqs haa hbb⟩

/-- Whatever the functions make, it is the same in both orders if each amend works at a site of its
own. What is held beside the values may differ. -/
theorem amends_commute_at_sites {c d : Scope} (held held' : List Value) {u v : Value}
    (hu : x.amended settings .path c p f z = .ok u)
    (hv : x.amended settings .path d q g w = .ok v) :
    ∃ u' v', u.amended settings .path ⟨held, d.site⟩ q g w = .ok u' ∧
      v.amended settings .path ⟨held', c.site⟩ p f z = .ok v' ∧ u'.eqv v' = true := by
  refine amends_commute_of_answers hx hf hg hp hq hps hqs ?_ ?_ hu hv
  · exact fun _ _ a ha => ⟨a, ha, eqv_refl a⟩
  · exact fun _ _ b hb => ⟨b, hb, eqv_refl b⟩

/-- If the second amends work at other sites, then the results are equal but for the names of what
these amends have made. -/
theorem amends_commute_exchange {c c' d d' : Scope} (hc : c.site.Apart c'.site)
    (hd : d.site.Apart d'.site) {u v : Value} (hu : x.amended settings .path c p f z = .ok u)
    (hv : x.amended settings .path d q g w = .ok v)
    (hunused : d.site.Unused (d'.held, u, q, g, w) ∧ d'.site.Unused (d'.held, u, q, g, w))
    (hunused' : c.site.Unused (c'.held, v, p, f, z) ∧ c'.site.Unused (c'.held, v, p, f, z)) :
    ∃ u' v',
      u.amended settings .path d' q g w = .ok (rename (d.site.exchange d'.site) u') ∧
        v.amended settings .path c' p f z = .ok (rename (c.site.exchange c'.site) v') ∧
          u'.eqv v' = true := by
  obtain ⟨u', v', hu', hv', heqv⟩ :=
    amends_commute_at_sites hx hf hg hp hq hps hqs d'.held c'.held hu hv
  refine ⟨u', v', ?_, ?_, heqv⟩
  · exact (amended_exchange hd settings .path hunused.1 hunused.2).trans (congrArg _ hu')
  · exact (amended_exchange hc settings .path hunused'.1 hunused'.2).trans (congrArg _ hv')

end Orders

/-- A projection that gets too few arguments makes a new function. Both orders put the same
two functions into the array, if each amend keeps its site. -/
example :
    let x : Value := .array (.ints (.ofList (.step 1) [1, 2]))
    let f : Value := .project (.step 2) (.builtin .add) [none, none]
    let c : Scope := ⟨[], .step 3⟩
    let d : Scope := ⟨[], .step 4⟩
    let r := x.amended {} .path c (.int 0) f none >>= fun u => u.amended {} .path d (.int 1) f none
    let r' := x.amended {} .path d (.int 1) f none >>= fun v => v.amended {} .path c (.int 0) f none
    ∃ u v, r = .ok u ∧ r' = .ok v ∧ u.eqv v = true :=
  ⟨_, _, rfl, rfl, by decide⟩

/-! ## Pure functions -/

/-- A pure function answers alike at all sites. -/
theorem Amends.answersAs {path f old : Value} {z : Option Value} (h : Amends settings path f z)
    (hold : WellFormed old) (s t : Site) : f.AnswersAs settings s t (old :: z.toList) := by
  have hargs : WellFormed (old :: z.toList) :=
    (everywhere_cons ..).2 ⟨hold, everywhere_toList.2 h.wellFormed_operand⟩
  have hlen : (old :: z.toList).length = updateArity z.isSome := by cases z <;> rfl
  intro a ha
  have hsame := h.isPure s t _ _ hlen hargs hargs (.refl _)
  rw [show (Callee.ofValue settings f).call s (old :: z.toList) = .ok a from ha] at hsame
  rcases alike_result_cases hsame with ⟨_, a', h, ha', haa⟩ | ⟨_, _, h, -, -⟩
  · cases h
    exact ⟨a', ha', haa.eqv⟩
  · cases h

/-- Two amends along paths of single components, at places of which neither lies inside the other:
if both go through, then each goes through after the other, and the results are equal. -/
theorem independent_amends_commute {x p q f g : Value} {z w : Option Value} {ps qs : List Nat}
    (hx : WellFormed x) (hf : Amends settings p f z) (hg : Amends settings q g w)
    (hp : x.resolve? p.components = some ps) (hq : x.resolve? q.components = some qs)
    (hps : ¬ps <+: qs) (hqs : ¬qs <+: ps) (c c' d d' : Scope) {u v : Value}
    (hu : x.amended settings .path c p f z = .ok u)
    (hv : x.amended settings .path d q g w = .ok v) :
    ∃ u' v', u.amended settings .path c' q g w = .ok u' ∧
      v.amended settings .path d' p f z = .ok v' ∧ u'.eqv v' = true := by
  refine amends_commute_of_answers hx hf.updates hg.updates hp hq hps hqs
    (fun old hold => ?_) (fun old hold => ?_) hu hv
  · exact hf.answersAs (everywhere_of_follow? hx hold) _ _
  · exact hg.answersAs (everywhere_of_follow? hx hold) _ _

end Commute

/-- One amend replaces a number inside of the first value of a dictionary by a text, the other one
replaces the second value as a whole. -/
theorem independent_amends_commute_dict :
    let keys : Arr Value := .strs (.ofList (.step 1) ["a", "b"])
    let numbers : Value := .array (.ints (.ofList (.step 2) [1, 2]))
    let x : Value := .dict (.step 0) ⟨keys, .list (.ofList (.step 3) [numbers, .int 5])⟩
    let p : Value := .array (.list (.ofList (.step 4) [.str "a", .int 0]))
    let q : Value := .str "b"
    let f : Value := .builtin .right
    let z : Option Value := some (.str "t")
    let w : Option Value := some (.int 7)
    let c : Scope := ⟨[], .step 5⟩
    WellFormed x ∧ Amends {} p f z ∧ Amends {} q f w ∧
      x.resolve? p.components = some [0, 0] ∧ x.resolve? q.components = some [1] ∧
      ∃ u v u' v', x.amended {} .path c p f z = .ok u ∧ x.amended {} .path c q f w = .ok v ∧
        u.amended {} .path c q f w = .ok u' ∧ v.amended {} .path c p f z = .ok v' ∧
          u'.eqv v' = true := by
  intro keys numbers x p q f z w c
  have hx : WellFormed x := by decide
  have hf : Amends {} p f z := ⟨by decide, by decide, by decide, rfl, isPure_right {}, by decide⟩
  have hg : Amends {} q f w := ⟨by decide, by decide, by decide, rfl, isPure_right {}, by decide⟩
  have hp : x.resolve? p.components = some [0, 0] := by decide
  have hq : x.resolve? q.components = some [1] := by decide
  obtain ⟨u, hu⟩ : ∃ u, x.amended {} .path c p f z = .ok u := ⟨_, rfl⟩
  obtain ⟨v, hv⟩ : ∃ v, x.amended {} .path c q f w = .ok v := ⟨_, rfl⟩
  obtain ⟨u', v', hu', hv', heqv⟩ :=
    independent_amends_commute hx hf hg hp hq (by decide) (by decide) c c c c hu hv
  exact ⟨hx, hf, hg, hp, hq, u, v, u', v', hu, hv, hu', hv', heqv⟩

end SharedArrays
