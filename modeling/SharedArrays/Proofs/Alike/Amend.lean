import SharedArrays.Proofs.Alike.Arrays
import SharedArrays.Proofs.FastPath.Agreement

/-!
# Amends do not see sharing

An amend by a function that does not see sharing does not see it either: alike containers,
indices and operands have alike outcomes, wherever new objects are made and whatever else is
alive. What the amend copies and what it writes in place cannot be told from its outcome.

## Main definitions

* `Callee.IsPure`, `Value.IsPure` — a function whose answers depend on bare arguments only
* `Callee.Blind` — a function of this kind that is safe to call

## Main results

* `alike_amendAt`, `same_amendFn`, `alike_dictAmend` — amends of arrays and of dictionaries
* `alike_amend` — amends of one container
-/

namespace SharedArrays

/-! ## Indices and operands -/

theorem ofIndex_congr (n : Nat) {y y' : Value} (h : Alike y y') :
    Selection.ofIndex n y = Selection.ofIndex n y' := by
  rcases alike_value_cases h with ⟨a, b, rfl, rfl, hab⟩ | ⟨_, _, _, _, rfl, rfl, -⟩ |
    ⟨_, _, _, _, rfl, rfl, -⟩ | ⟨-, rfl⟩
  · cases a with
    | bools v =>
      obtain ⟨w, rfl, hitems⟩ := hab.exists_bools
      simp only [Selection.ofIndex, hitems]
    | ints v =>
      obtain ⟨w, rfl, hitems⟩ := hab.exists_ints
      simp only [Selection.ofIndex, hitems]
    | _ =>
      have hkind := hab.kind_eq
      cases b <;> first | rfl | cases hkind
  · rfl
  · rfl
  · rfl

instance : HasBare Operands :=
  ⟨fun z => match z with
    | .absent => .absent
    | .whole z => .whole z.bare
    | .each a => .each a.bare⟩

theorem alike_at? {z z' : Operands} (h : Alike z z') (k : Nat) : Alike (z.at? k) (z'.at? k) := by
  cases z with
  | absent =>
    cases z' with
    | absent => exact .refl none
    | _ => cases h
  | whole z =>
    cases z' with
    | whole z' =>
      have hz : Alike z z' := Operands.whole.inj h
      exact alike_some.2 hz
    | _ => cases h
  | each a =>
    cases z' with
    | each b =>
      have hab : Alike a b := Operands.each.inj h
      exact hab.at? k
    | _ => cases h

section Operands

variable {z z' : Option Value}

theorem alike_forMany (count : Nat) (h : Alike z z') (hz : WellFormed z) (hz' : WellFormed z') :
    Alike (Operands.forMany count z) (Operands.forMany count z') := by
  rcases alike_option_cases h with ⟨rfl, rfl⟩ | ⟨v, w, rfl, rfl, hvw⟩
  · exact .refl _
  have hwhole (hleaf : v.array? = none) (hleaf' : w.array? = none) :
      Alike (Operands.forMany count (some v)) (Operands.forMany count (some w)) := by
    have hforMany {v : Value} (hleaf : v.array? = none) :
        Operands.forMany count (some v) = .ok (.whole v) := by
      cases v <;> first | rfl | cases hleaf
    rw [hforMany hleaf, hforMany hleaf']
    exact alike_ok.2 (congrArg Operands.whole hvw)
  rcases alike_value_cases hvw with ⟨a, b, rfl, rfl, hab⟩ | ⟨_, _, _, _, rfl, rfl, -⟩ |
    ⟨_, _, _, _, rfl, rfl, -⟩ | ⟨hleaf, rfl⟩
  · have hlen := hab.len_eq ((everywhere_array a).1 hz) ((everywhere_array b).1 hz')
    simp only [Operands.forMany, hlen]
    split
    · exact alike_ok.2 (congrArg Operands.each hab)
    · exact .refl _
  · exact hwhole rfl rfl
  · exact hwhole rfl rfl
  · exact .refl _

theorem alike_ofSelection (sel : Selection) (h : Alike z z') (hz : WellFormed z)
    (hz' : WellFormed z') :
    Alike (Operands.ofSelection z sel) (Operands.ofSelection z' sel) := by
  cases sel with
  | one i =>
    rcases alike_option_cases h with ⟨rfl, rfl⟩ | ⟨v, w, rfl, rfl, hvw⟩
    · exact .refl _
    · exact alike_ok.2 (congrArg Operands.whole hvw)
  | many ps => exact alike_forMany ps.length h hz hz'

theorem alike_operands (f : Callee) (sel : Selection) (h : Alike z z') (hz : WellFormed z)
    (hz' : WellFormed z') : Alike (f.operands z sel) (f.operands z' sel) := by
  unfold Callee.operands
  split
  · exact alike_ofSelection sel h hz hz'
  · exact .refl _

end Operands

/-- The number of arguments of an update function. -/
def updateArity (dyadic : Bool) : Nat := if dyadic then 2 else 1

/-- The operands say for each of `n` positions whether there is one. -/
def Operands.Dyadic (n : Nat) (dyadic : Bool) (z : Operands) : Prop :=
  ∀ k < n, (z.at? k).isSome = dyadic

theorem isSome_at?_of_forMany {count : Nat} {z : Option Value} {operands : Operands}
    (hz : WellFormed z) (h : Operands.forMany count z = .ok operands) :
    operands.Dyadic count z.isSome := by
  intro k hk
  unfold Operands.forMany at h
  split at h
  · cases h
    rfl
  · split at h
    · rename_i a hlen
      cases h
      have ha : WellFormed a := (everywhere_array a).1 hz
      have hk : k < a.values.length := by rw [ha.length_values, hlen]; exact hk
      simp [Operands.at?, Arr.at?, hk]
    · cases h
  · cases h
    rfl

theorem isSome_at?_of_ofSelection {z : Option Value} {sel : Selection} {operands : Operands}
    (hz : WellFormed z) (h : Operands.ofSelection z sel = .ok operands) :
    operands.Dyadic sel.positions.length z.isSome := by
  cases sel with
  | one i =>
    cases h
    cases z <;> exact fun _ _ => rfl
  | many ps => exact isSome_at?_of_forMany hz h

theorem isSome_at?_of_operands {f : Callee} {z : Option Value} {sel : Selection}
    {operands : Operands} (hz : WellFormed z) (h : f.operands z sel = .ok operands) :
    operands.Dyadic sel.positions.length z.isSome := by
  unfold Callee.operands at h
  split at h
  · exact isSome_at?_of_ofSelection hz h
  · cases h

/-- To `count` arguments, the function gives answers that depend on nothing but what the arguments
are when bare: neither on where the call makes its objects, nor on who shares the arguments. -/
def Callee.IsPure (count : Nat) (f : Callee) : Prop :=
  ∀ s s' args args', args.length = count → WellFormed args → WellFormed args' →
    Alike args args' → Alike (f.call s args) (f.call s' args')

/-- To `count` arguments, the function value gives answers that depend on bare arguments only. -/
def Value.IsPure (settings : Settings) (count : Nat) (f : Value) : Prop :=
  (Callee.ofValue settings f).IsPure count

theorem alike_settle {v w : Value} (h : Alike v w) : Alike v.settle w.settle := by
  rcases alike_value_cases h with ⟨a, b, rfl, rfl, hab⟩ | ⟨s, t, d, e, rfl, rfl, hde⟩ |
    ⟨s, t, u, u', rfl, rfl, huu⟩ | ⟨-, rfl⟩
  · exact alike_ok.2 h
  · exact alike_ok.2 h
  · refine alike_error.2 ?_
    show Failure.raised u.bare = Failure.raised u'.bare
    rw [show u.bare = u'.bare from huu]
  · exact .refl _

/-- The operator that answers its right operand does not see sharing. -/
theorem isPure_right (settings : Settings) : (Value.builtin .right).IsPure settings 2 := by
  intro s s' args args' hcount _ _ h
  have hpair {args : List Value} (hcount : args.length = 2) : ∃ x z, args = [x, z] := by
    match args, hcount with
    | [x, z], _ => exact ⟨x, z, rfl⟩
  obtain ⟨x, z, rfl⟩ := hpair hcount
  obtain ⟨x', z', rfl⟩ := hpair (h.length_eq.symm.trans hcount)
  exact alike_settle (alike_cons.1 (alike_cons.1 h).2).1

/-! ## Amends of arrays -/

theorem alike_runSteps {ε : Type} {es : List ε} {step step' : ε → Step} {c c' : Scope}
    (hpos : ∀ e ∈ es, (step e).position = (step' e).position)
    (hrun : ∀ e ∈ es, ∀ v v', WellFormed v → WellFormed v' → Alike v v' →
      Alike ((step e).run v) ((step' e).run v'))
    (hsafe : ∀ e ∈ es, ∀ v, WellFormed v →
      WellFormed ((step e).run v) ∧ WellFormed ((step' e).run v))
    {a a' : Arr Value} (ha : WellFormed a) (ha' : WellFormed a') (h : Alike a a') :
    Alike (a.runSteps c (es.map step)) (a'.runSteps c' (es.map step')) := by
  induction es generalizing a a' with
  | nil => exact alike_done h
  | cons e es ih =>
    obtain ⟨hpos, hposs⟩ := List.forall_mem_cons.1 hpos
    obtain ⟨hrun, hruns⟩ := List.forall_mem_cons.1 hrun
    obtain ⟨hsafe, hsafes⟩ := List.forall_mem_cons.1 hsafe
    simp only [List.map_cons, Arr.runSteps, ← hpos]
    rcases alike_option_cases (h.at? (step e).position) with
      ⟨hold, hold'⟩ | ⟨old, old', hold, hold', hsame⟩
    · rw [hold, hold', h.len_eq ha ha']
      exact alike_failed h (.refl _)
    · have hwf := everywhere_of_at? ha hold
      have hwf' := everywhere_of_at? ha' hold'
      simp only [hold, hold']
      rcases alike_result_cases (hrun old old' hwf hwf' hsame) with
        ⟨new, new', hnew, hnew', hsame⟩ | ⟨e₁, e₂, he₁, he₂, hsame⟩
      · have hwfnew : WellFormed new := everywhere_of_ok (hsafe old hwf).1 hnew
        have hwfnew' : WellFormed new' := everywhere_of_ok (hsafe old' hwf').2 hnew'
        simp only [hnew, hnew']
        exact ih hposs hruns hsafes (wellFormed_put ha hwfnew) (wellFormed_put ha' hwfnew')
          (alike_put h hsame _)
      · simp only [he₁, he₂]
        exact alike_failed h hsame

theorem alike_revise {c c' : Scope} {a a' : Arr Value} {steps steps' : List Step}
    (h : Alike (a.runSteps c steps) (a'.runSteps c' steps')) :
    Alike (a.revise c steps) (a'.revise c' steps') := by
  obtain ⟨hslot, hfailure⟩ := alike_outcome.1 h
  exact alike_outcome.2 ⟨alike_canonical hslot, hfailure⟩

/-- The function is a function value that is safe to call, and does not see sharing. -/
structure Callee.Blind (dyadic : Bool) (f : Callee) : Prop where
  isPure : f.IsPure (updateArity dyadic)
  safe : f.Safe
  real : f.Real

theorem blind_ofValue {settings : Settings} {f : Value} {dyadic : Bool} (hf : WellFormed f)
    (hpure : f.IsPure settings (updateArity dyadic)) :
    (Callee.ofValue settings f).Blind dyadic :=
  ⟨hpure, safe_ofValue hf, real_ofValue settings f⟩

section Blind

variable {settings : Settings} {f : Callee} {dyadic : Bool} (hf : f.Blind dyadic)
include hf

theorem alike_amendAt {c c' : Scope} {a a' : Arr Value} {sel : Selection} {z z' : Option Value}
    (ha : WellFormed a) (ha' : WellFormed a') (h : Alike a a') (hz : WellFormed z)
    (hz' : WellFormed z') (hzz : Alike z z') (hsome : z.isSome = dyadic)
    (hlt : ∀ p ∈ sel.positions, p < a.len) :
    Alike (a.amendAt settings c sel f z) (a'.amendAt settings c' sel f z') := by
  have hlt' : ∀ p ∈ sel.positions, p < a'.len := h.len_eq ha ha' ▸ hlt
  rw [amendAt_eq_revise settings hf.real ha hz hlt, amendAt_eq_revise settings hf.real ha' hz' hlt']
  have hsafe := everywhere_operands f sel hz
  have hsafe' := everywhere_operands f sel hz'
  rcases alike_result_cases (alike_operands f sel hzz hz hz') with
    ⟨ops, ops', hop, hop', hsame⟩ | ⟨e, e', he, he', hsame⟩
  · rw [hop] at hsafe
    rw [hop'] at hsafe'
    simp only [hop, hop']
    have hargs {k : Nat} {v : Value} (hv : WellFormed v) :
        WellFormed (v :: (ops.at? k).toList) ∧ WellFormed (v :: (ops'.at? k).toList) :=
      ⟨(everywhere_cons ..).2 ⟨hv, everywhere_toList.2 (Operands.everywhere_at? hsafe k)⟩,
        (everywhere_cons ..).2 ⟨hv, everywhere_toList.2 (Operands.everywhere_at? hsafe' k)⟩⟩
    refine alike_revise (alike_runSteps ?_ (fun e he v v' hv hv' hvv => ?_)
      (fun e _ v hv => ⟨hf.safe _ _ (hargs hv).1, hf.safe _ _ (hargs hv).2⟩) ha ha' h)
    · exact fun _ _ => rfl
    -- Both calls get as many arguments as the arity says, so the function sees no sharing.
    have hk := isSome_at?_of_operands hz hop e.2 (List.snd_lt_of_mem_zipIdx he)
    have hat := alike_at? hsame e.2
    refine hf.isPure _ _ _ _ ?_ (hargs hv).1 (hargs hv').2 (alike_cons.2 ⟨hvv, ?_⟩)
    · rw [← hsome, ← hk]
      cases ops.at? e.2 <;> rfl
    · rcases alike_option_cases hat with ⟨hnone, hnone'⟩ | ⟨u, u', hu, hu', huu⟩
      · rw [hnone, hnone']
        exact .refl _
      · rw [hu, hu']
        exact alike_cons.2 ⟨huu, .refl _⟩
  · simp only [he, he']
    exact alike_failed h hsame

theorem alike_amendAtIndex {y y' : Value} (hy : Alike y y') {c c' : Scope} {a a' : Arr Value}
    {z z' : Option Value} (ha : WellFormed a) (ha' : WellFormed a') (h : Alike a a')
    (hz : WellFormed z) (hz' : WellFormed z') (hzz : Alike z z') (hsome : z.isSome = dyadic) :
    Alike (amendAtIndex settings f y c a z) (amendAtIndex settings f y' c' a' z') := by
  unfold amendAtIndex
  rw [← h.len_eq ha ha', ← ofIndex_congr a.len hy]
  split
  · exact alike_failed h (.refl _)
  · rename_i sel hsel
    exact alike_amendAt hf ha ha' h hz hz' hzz hsome fun p hp => Selection.lt_of_ofIndex hsel hp

end Blind

/-- Two amends of arrays have alike outcomes for alike arrays and operands. -/
def ArrUpdate.Same (dyadic : Bool) (u u' : ArrUpdate) : Prop :=
  ∀ c c' a a' z z', WellFormed a → WellFormed a' → Alike a a' → WellFormed z → WellFormed z' →
    Alike z z' → z.isSome = dyadic → Alike (u c a z) (u' c' a' z')

theorem alike_amendInTurn {dyadic : Bool} {update : Value → ArrUpdate} {ops ops' : Operands}
    (hops : Alike ops ops') (hz : WellFormed ops) (hz' : WellFormed ops') {ys ys' : List Value}
    (hys : Alike ys ys') (hwf : WellFormed ys) (hwf' : WellFormed ys')
    (hsafe : ∀ y, WellFormed y → (update y).Safe)
    (hsame : ∀ y ∈ ys, ∀ y', WellFormed y' → Alike y y' →
      ArrUpdate.Same dyadic (update y) (update y'))
    {k n : Nat} (hdyadic : ops.Dyadic n dyadic) (hn : k + ys.length = n)
    {c c' : Scope} {a a' : Arr Value} (ha : WellFormed a) (ha' : WellFormed a')
    (h : Alike a a') :
    Alike (amendInTurn ops c k (ys.map update) a) (amendInTurn ops' c' k (ys'.map update) a') := by
  induction ys generalizing ys' k a a' with
  | nil =>
    rw [alike_nil.1 hys]
    exact alike_done h
  | cons y ys ih =>
    obtain ⟨y', ys', rfl, hyy, hys⟩ := hys.exists_cons
    obtain ⟨hy, hwf⟩ := (everywhere_cons ..).1 hwf
    obtain ⟨hy', hwf'⟩ := (everywhere_cons ..).1 hwf'
    obtain ⟨hhead, hsame⟩ := List.forall_mem_cons.1 hsame
    have hk : k < n := by rw [List.length_cons] at hn; omega
    have hat := Operands.everywhere_at? hz k
    have hat' := Operands.everywhere_at? hz' k
    have hleft := hsafe y hy (c.sub k) a a.len (ops.at? k) ⟨ha, rfl⟩ hat
    have hright := hsafe y' hy' (c'.sub k) a' a'.len (ops'.at? k) ⟨ha', rfl⟩ hat'
    have hfirst := hhead y' hy' hyy (c.sub k) (c'.sub k) a a' _ _ ha ha' h hat hat'
      (alike_at? hops k) (hdyadic k hk)
    simp only [List.map_cons, amendInTurn]
    -- Both go on, or both end with the failure of this update.
    generalize update y (c.sub k) a (ops.at? k) = o at hleft hfirst
    generalize update y' (c'.sub k) a' (ops'.at? k) = o' at hright hfirst
    obtain ⟨b, failure⟩ := o
    obtain ⟨b', failure'⟩ := o'
    obtain ⟨hslot, hfailure⟩ := alike_outcome.1 hfirst
    rcases alike_option_cases hfailure with ⟨hnone, hnone'⟩ | ⟨e, e', he, he', hee⟩
    · cases hnone
      cases hnone'
      refine ih hys hwf hwf' hsame ?_ hleft.1.1 hright.1.1 hslot
      rw [List.length_cons] at hn
      omega
    · cases he
      cases he'
      exact alike_failed hslot hee

section Blind

variable {settings : Settings} {f : Callee} {dyadic : Bool} (hf : f.Blind dyadic)
include hf

theorem same_amendFn {y y' : Value} (hwf : WellFormed y) (hwf' : WellFormed y')
    (hy : Alike y y') :
    ArrUpdate.Same dyadic (amendFn settings f y) (amendFn settings f y') := by
  -- Only lists are walked, and alike indices are both lists or both not.
  have atIndex {y y' : Value} (hleaf : ∀ w, y ≠ .array (.list w))
      (hleaf' : ∀ w, y' ≠ .array (.list w)) (hy : Alike y y') :
      ArrUpdate.Same dyadic (amendFn settings f y) (amendFn settings f y') := by
    rw [amendFn_of_not_list settings f hleaf, amendFn_of_not_list settings f hleaf']
    exact fun c c' a a' z z' ha ha' h hz hz' hzz hsome =>
      alike_amendAtIndex hf hy ha ha' h hz hz' hzz hsome
  induction y using Value.nest_induction generalizing y' with
  | leaf y hleaf =>
    have heq : y' = y := hy.eq_of_isLeaf hleaf
    subst heq
    exact atIndex (by rintro w rfl; cases hleaf) (by rintro w rfl; cases hleaf) hy
  | dict s keys vals _ _ => exact atIndex nofun (by rintro w rfl; cases hy) hy
  | error s v _ => exact atIndex nofun (by rintro w rfl; cases hy) hy
  | array b ih =>
    by_cases hkind : b.kind = .list
    · obtain ⟨w, rfl⟩ : ∃ w, b = .list w := by
        cases b <;> first | exact ⟨_, rfl⟩ | cases hkind
      obtain ⟨b', rfl, hbb⟩ : ∃ b', y' = .array b' ∧ Alike (.list w) b' := by
        cases y' <;> first | exact ⟨_, rfl, alike_array.1 hy⟩ | cases hy
      obtain ⟨w', rfl, hitems⟩ := hbb.exists_list
      have hcells := everywhere_values ((everywhere_array _).1 hwf)
      have hcells' := everywhere_values ((everywhere_array _).1 hwf')
      have hlen : w.len = w'.len :=
        hbb.len_eq ((everywhere_array _).1 hwf) ((everywhere_array _).1 hwf')
      intro c c' a a' z z' ha ha' h hz hz' hzz hsome
      have hops := everywhere_forMany w.len hz
      have hops' := everywhere_forMany w.len hz'
      rw [amendFn_list, amendFn_list, ← hlen]
      rcases alike_result_cases (alike_forMany w.len hzz hz hz') with
        ⟨ops, ops', hop, hop', hsame⟩ | ⟨e, e', he, he', hsame⟩
      · rw [hop] at hops
        rw [hop'] at hops'
        have hdyadic : ops.Dyadic w.len dyadic := hsome ▸ isSome_at?_of_forMany hz hop
        have hn : 0 + w.items.length = w.len := by
          rw [Nat.zero_add]
          exact WellFormed.length_values ((everywhere_array (.list w)).1 hwf)
        simp only [hop, hop']
        refine alike_amendInTurn hsame hops hops' hitems hcells hcells'
          (fun y hy => safe_amendFn hf.safe hy) (fun y hy y' hwf' hyy => ?_) hdyadic hn ha ha' h
        exact ih y (Window.mem_of_mem_items hy)
          (everywhere_iff_forall.1 hcells y hy) hwf' hyy
      · simp only [he, he']
        exact alike_failed h hsame
    · have hne : ∀ w, (Value.array b) ≠ .array (.list w) := by
        rintro w heq
        cases heq
        exact hkind rfl
      refine atIndex hne ?_ hy
      rintro w rfl
      exact hkind (alike_array.1 hy).kind_eq

/-! ## Amends of dictionaries and values -/

theorem alike_dictAmend {y y' : Value} (hwf : WellFormed y) (hwf' : WellFormed y')
    (hy : Alike y y') {c c' : Scope} {d d' : Dict Value} {z z' : Option Value} (hd : d.Paired)
    (hd' : d'.Paired) (h : Alike d d') (hz : WellFormed z) (hz' : WellFormed z')
    (hzz : Alike z z') (hsome : z.isSome = dyadic) :
    Alike (d.amend settings c y f z) (d'.amend settings c' y' f z') := by
  obtain ⟨hsel, hmissing⟩ := placement_congr settings h hd hd' hy hwf hwf'
  have hwfm := everywhere_missing settings d hwf
  have hwfm' := everywhere_missing settings d' hwf'
  have hgrown := paired_appendKeys (c := c.sub 0) hd hwfm
  have hgrown' := paired_appendKeys (c := c'.sub 0) hd' hwfm'
  obtain ⟨hkeys, hvals⟩ := alike_entries.1
    (alike_appendKeys (c.sub 0) (c'.sub 0) h hmissing)
  have hlt := @placement_lt_appendKeys d settings hd y hwf (c.sub 0)
  unfold Dict.amend
  simp only [← hsel]
  rcases alike_result_cases (alike_operands f (d.placement settings y).selection hzz hz hz') with
    ⟨ops, ops', hop, hop', -⟩ | ⟨e, e', he, he', hsame⟩
  · simp only [hop, hop']
    refine alike_map ?_ fun vals vals' h => alike_entries.2 ⟨hkeys, h⟩
    exact alike_amendAt hf hgrown.2.2 hgrown'.2.2 hvals hz hz' hzz hsome hlt
  · simp only [he, he']
    exact alike_failed h hsame

theorem alike_amend {y y' : Value} (hwf : WellFormed y) (hwf' : WellFormed y')
    (hy : Alike y y') {c c' : Scope} {x x' : Value} {z z' : Option Value} (hx : WellFormed x)
    (hx' : WellFormed x') (h : Alike x x') (hz : WellFormed z) (hz' : WellFormed z')
    (hzz : Alike z z') (hsome : z.isSome = dyadic) :
    Alike (x.amend settings c y f z) (x'.amend settings c' y' f z') := by
  rcases alike_value_cases h with ⟨a, b, rfl, rfl, hab⟩ | ⟨s, t, d, e, rfl, rfl, hde⟩ |
    ⟨s, t, u, u', rfl, rfl, -⟩ | ⟨hleaf, rfl⟩
  · have ha : WellFormed a := (everywhere_array a).1 hx
    have hb : WellFormed b := (everywhere_array b).1 hx'
    exact alike_map (same_amendFn hf hwf hwf' hy c c' a b z z' ha hb hab hz hz' hzz hsome)
      fun _ _ h => alike_array.2 h
  · have hd : d.Paired := wellFormed_dict.1 hx
    have he : e.Paired := wellFormed_dict.1 hx'
    exact alike_map (alike_dictAmend hf hwf hwf' hy hd he hde hz hz' hzz hsome)
      fun _ _ h => alike_dict.2 h
  · exact alike_failed h (.refl _)
  · cases x' <;> first | exact alike_failed (.refl _) (.refl _) | cases hleaf

end Blind

end SharedArrays
