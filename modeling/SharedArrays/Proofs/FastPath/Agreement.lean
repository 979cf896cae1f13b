import SharedArrays.Proofs.FastPath.Loops
import SharedArrays.Proofs.WellFormed.Placement
import SharedArrays.Proofs.WellFormed.Call

/-!
# Fast paths cannot be observed

Two settings that differ only in whether typed loops run lead to the same outcomes: the same
content of the slot down to sites and flags, and the same failure. An amend of an array at
resolved positions is where the settings are looked at, and there a loop leaves what the steps
leave. The function of the amend may itself amend values with the same settings, so the
agreement is carried through function values and bodies.

## Main definitions

* `Callee.Agrees` — two callees that answer alike under two settings

## Main results

* `amendAt_eq_revise` — an amend at resolved positions is a run of steps, loops or not
* `typedLoops_unobservable` — whether typed loops run cannot be observed
-/

namespace SharedArrays

/-- The callee runs the function value with some settings. -/
def Callee.Real (f : Callee) : Prop :=
  ∃ settings, ∀ s args, f.call s args = f.value.apply settings s args

theorem real_ofValue (settings : Settings) (f : Value) : (Callee.ofValue settings f).Real :=
  ⟨settings, fun _ _ => rfl⟩

theorem covers_of_operands {f : Callee} {z : Option Value} {sel : Selection} {operands : Operands}
    (hz : WellFormed z) (h : f.operands z sel = .ok operands) :
    operands.Covers sel.positions.length := by
  unfold Callee.operands at h
  split at h
  · exact covers_ofSelection hz h
  · cases h

/-- An amend at resolved positions is a run of steps, whether or not typed loops are used. -/
theorem amendAt_eq_revise (settings : Settings) {f : Callee} (hf : f.Real) {c : Scope}
    {a : Arr Value} {sel : Selection} {z : Option Value} (ha : WellFormed a) (hz : WellFormed z)
    (hlt : ∀ p ∈ sel.positions, p < a.len) :
    a.amendAt settings c sel f z =
      match f.operands z sel with
      | .error e => .failed a e
      | .ok operands => a.revise (c.sub 0) (Arr.steps c f operands sel) := by
  obtain ⟨settings', hf⟩ := hf
  rw [Arr.amendAt]
  cases hop : f.operands z sel with
  | error e => rfl
  | ok operands =>
    have hcovers := covers_of_operands hz hop
    simp only
    split
    · rename_i b hb
      split at hb
      · exact (revise_eq_of_loop? hf ha hlt hcovers hb).symm
      · cases hb
    · rfl

/-! ## Arrays -/

theorem runSteps_congr {ε : Type} {es : List ε} {step step' : ε → Step} {c : Scope}
    {a : Arr Value} (ha : WellFormed a)
    (hpos : ∀ e ∈ es, (step e).position = (step' e).position)
    (hrun : ∀ e ∈ es, ∀ v, WellFormed v → (step e).run v = (step' e).run v)
    (hsafe : ∀ e ∈ es, ∀ v, WellFormed v → WellFormed ((step e).run v)) :
    a.runSteps c (es.map step) = a.runSteps c (es.map step') := by
  induction es generalizing a with
  | nil => rfl
  | cons e es ih =>
    obtain ⟨hpos, hposs⟩ := List.forall_mem_cons.1 hpos
    obtain ⟨hrun, hruns⟩ := List.forall_mem_cons.1 hrun
    obtain ⟨hsafe, hsafes⟩ := List.forall_mem_cons.1 hsafe
    simp only [List.map_cons, Arr.runSteps, ← hpos]
    cases hold : a.at? (step e).position with
    | none => rfl
    | some old =>
      have hwf := everywhere_of_at? ha hold
      have hnew := hsafe old hwf
      simp only [← hrun old hwf]
      cases hres : (step e).run old with
      | error e => rfl
      | ok new =>
        rw [hres] at hnew
        exact ih (wellFormed_put ha hnew) hposs hruns hsafes

/-- The callees stand for one function value, run under settings that may differ, and answer
alike. -/
structure Callee.Agrees (f g : Callee) : Prop where
  value : f.value = g.value
  call : ∀ s args, WellFormed args → f.call s args = g.call s args
  safe : f.Safe
  realLeft : f.Real
  realRight : g.Real

section Agrees

variable {settings : Settings} {loops : Bool} {f g : Callee}

theorem operands_congr (h : f.Agrees g) (z : Option Value) (sel : Selection) :
    f.operands z sel = g.operands z sel := by
  rw [Callee.operands, Callee.operands, h.value]

theorem amendAt_agrees (settings settings' : Settings) (h : f.Agrees g) {c : Scope}
    {a : Arr Value} {sel : Selection} {z : Option Value} (ha : WellFormed a) (hz : WellFormed z)
    (hlt : ∀ p ∈ sel.positions, p < a.len) :
    a.amendAt settings c sel f z = a.amendAt settings' c sel g z := by
  rw [amendAt_eq_revise settings h.realLeft ha hz hlt,
    amendAt_eq_revise settings' h.realRight ha hz hlt, ← operands_congr h]
  have hoperands := everywhere_operands f sel hz
  cases hop : f.operands z sel with
  | error e => rfl
  | ok operands =>
    rw [hop] at hoperands
    have hargs {e : Nat × Nat} {v : Value} (hv : WellFormed v) :
        WellFormed (v :: (operands.at? e.2).toList) :=
      (everywhere_cons ..).2 ⟨hv, everywhere_toList.2 (Operands.everywhere_at? hoperands e.2)⟩
    have hruns : a.runSteps (c.sub 0) (Arr.steps c f operands sel) =
        a.runSteps (c.sub 0) (Arr.steps c g operands sel) :=
      runSteps_congr ha (fun _ _ => rfl) (fun e _ v hv => h.call _ _ (hargs hv))
        (fun e _ v hv => h.safe _ _ (hargs hv))
    simp only [Arr.revise, hruns]

theorem amendAtIndex_agrees (settings settings' : Settings) (h : f.Agrees g) {c : Scope}
    {a : Arr Value} (y : Value) {z : Option Value} (ha : WellFormed a) (hz : WellFormed z) :
    amendAtIndex settings f y c a z = amendAtIndex settings' g y c a z := by
  unfold amendAtIndex
  split
  · rfl
  · rename_i sel hsel
    exact amendAt_agrees settings settings' h ha hz fun p hp => Selection.lt_of_ofIndex hsel hp

theorem amendInTurn_congr {ε : Type} {es : List ε} {u u' : ε → ArrUpdate} {z : Operands}
    (hz : WellFormed z) (hsafe : ∀ e ∈ es, (u e).Safe)
    (hu : ∀ e ∈ es, ∀ c a z, WellFormed a → WellFormed z → u e c a z = u' e c a z)
    {c : Scope} {k : Nat} {a : Arr Value} (ha : WellFormed a) :
    amendInTurn z c k (es.map u) a = amendInTurn z c k (es.map u') a := by
  induction es generalizing k a with
  | nil => rfl
  | cons e es ih =>
    obtain ⟨hsafe, hsafes⟩ := List.forall_mem_cons.1 hsafe
    obtain ⟨hu, hus⟩ := List.forall_mem_cons.1 hu
    have hleft := hsafe (c.sub k) a a.len (z.at? k) ⟨ha, rfl⟩ (Operands.everywhere_at? hz k)
    simp only [List.map_cons, amendInTurn,
      ← hu (c.sub k) a (z.at? k) ha (Operands.everywhere_at? hz k)]
    split
    · rfl
    · rename_i b hb
      rw [hb] at hleft
      exact ih hsafes hus hleft.1.1

theorem amendFn_agrees (settings settings' : Settings) (h : f.Agrees g) {y : Value}
    (hy : WellFormed y) : ∀ c a z, WellFormed a → WellFormed z →
      amendFn settings f y c a z = amendFn settings' g y c a z := by
  -- Only a list of indices recurs; every other index selects positions at once.
  have atIndex {y : Value} (hy : ∀ w, y ≠ .array (.list w)) : ∀ c a z, WellFormed a →
      WellFormed z → amendFn settings f y c a z = amendFn settings' g y c a z := by
    intro c a z ha hz
    rw [amendFn_of_not_list settings f hy, amendFn_of_not_list settings' g hy]
    exact amendAtIndex_agrees settings settings' h y ha hz
  induction y using Value.nest_induction with
  | leaf y hleaf => exact atIndex (by rintro w rfl; cases hleaf)
  | dict s keys vals _ _ => exact atIndex nofun
  | error s v _ => exact atIndex nofun
  | array y ih =>
    cases y with
    | list w =>
      have hcells := everywhere_iff_forall.1 (wellFormed_arr.1 ((everywhere_array _).1 hy)).2
      intro c a z ha hz
      have hoperands := everywhere_forMany w.len hz
      rw [amendFn_list, amendFn_list]
      split
      · rfl
      · rename_i operands hop
        rw [hop] at hoperands
        refine amendInTurn_congr hoperands (fun v hv => ?_) (fun v hv => ?_) ha
        · exact safe_amendFn h.safe (hcells v (Window.mem_of_mem_items hv))
        · have hmem := Window.mem_of_mem_items hv
          exact ih v hmem (hcells v hmem)
    | _ => exact atIndex nofun

/-! ## Dictionaries and paths -/

theorem dictAmend_agrees (h : f.Agrees g) {c : Scope} {d : Dict Value} {y : Value}
    {z : Option Value} (hd : d.Paired) (hy : WellFormed y) (hz : WellFormed z) :
    d.amend { settings with typedLoops := loops } c y f z = d.amend settings c y g z := by
  -- The switch for the loops takes no part in finding keys.
  have hplan : d.placement { settings with typedLoops := loops } y = d.placement settings y := rfl
  have hgrown := paired_appendKeys (c := c.sub 0) hd (everywhere_missing settings d hy)
  unfold Dict.amend
  simp only [hplan, operands_congr h]
  split
  · rfl
  · rw [amendAt_agrees _ settings h hgrown.2.2 hz (placement_lt_appendKeys hd hy (c.sub 0))]

theorem amend_agrees (h : f.Agrees g) {c : Scope} {x y : Value} {z : Option Value}
    (hx : WellFormed x) (hy : WellFormed y) (hz : WellFormed z) :
    x.amend { settings with typedLoops := loops } c y f z = x.amend settings c y g z := by
  cases x with
  | array a =>
    have ha : WellFormed a := (everywhere_array a).1 hx
    exact congrArg (·.map Value.array) (amendFn_agrees _ settings h hy c a z ha hz)
  | dict s d =>
    have hd : d.Paired := wellFormed_dict.1 hx
    exact congrArg (·.map (Value.dict (c.own s))) (dictAmend_agrees h hd hy hz)
  | _ => rfl

theorem amendElements_congr {u u' : ValueUpdate} (hsafe : u.Safe)
    (hu : ∀ c x z, WellFormed x → WellFormed z → u c x z = u' c x z) {z : Operands}
    (hz : WellFormed z) {c : Scope} {k : Nat} {ps : List Nat} {w : Window Value}
    (hw : WellFormed (Arr.list w)) :
    amendElements u z c k ps w = amendElements u' z c k ps w := by
  induction ps generalizing k w with
  | nil => rfl
  | cons i rest ih =>
    simp only [amendElements]
    split
    · rfl
    · rename_i slot hslot
      have hwf : WellFormed slot :=
        everywhere_iff_forall.1 (everywhere_values hw) slot (List.mem_of_getElem? hslot)
      rw [← hu _ slot (z.at? k) hwf (Operands.everywhere_at? hz k)]
      have ho := hsafe ((c.sub (k + 1)).beside (w.buf.eraseIdx (w.off + i))) slot (z.at? k) hwf
        (Operands.everywhere_at? hz k)
      split
      · rfl
      · exact ih (wellFormed_setCell hw _ (everywhere_outcome.1 ho).1)

theorem arrAmendElements_congr {u u' : ValueUpdate} (hsafe : u.Safe)
    (hu : ∀ c x z, WellFormed x → WellFormed z → u c x z = u' c x z) {z : Operands}
    (hz : WellFormed z) {c : Scope} {ps : List Nat} {a : Arr Value} (ha : WellFormed a) :
    a.amendElements u z c ps = a.amendElements u' z c ps := by
  cases a with
  | list w =>
    have hprivate : WellFormed (Arr.list (w.makePrivate (c.sub 0))) :=
      wellFormed_update (fun w hw _ => hw.makePrivate _) (fun _ _ h => Window.mem_makePrivate h) ha
    exact congrArg (·.map Arr.list) (amendElements_congr hsafe hu hz hprivate)
  | _ => rfl

theorem arrOpenLevel_congr (h : f.Agrees g) (s : Site) (a : Arr Value) (y : Value)
    (z : Option Value) : a.openLevel s y f z = a.openLevel s y g z := by
  simp only [Arr.openLevel, operands_congr h]

theorem dictOpenLevel_congr (h : f.Agrees g) (s : Site) (d : Dict Value) (plan : Placement)
    (z : Option Value) : d.openLevel s plan f z = d.openLevel s plan g z := by
  simp only [Dict.openLevel, operands_congr h]

theorem amendAlong_agrees (h : f.Agrees g) {path : List Value} (hpath : WellFormed path) :
    ∀ c x z, WellFormed x → WellFormed z →
      Value.amendAlong { settings with typedLoops := loops } f path c x z =
        Value.amendAlong settings g path c x z := by
  induction path with
  | nil =>
    intro c x z hx hz
    have hargs : WellFormed (x :: z.toList) := (everywhere_cons ..).2 ⟨hx, everywhere_toList.2 hz⟩
    simp only [Value.amendAlong, h.call _ _ hargs]
  | cons y rest ih =>
    obtain ⟨hy, hrest⟩ := (everywhere_cons ..).1 hpath
    cases rest with
    | nil => exact fun c x z hx hz => amend_agrees h hx hy hz
    | cons next rest =>
      -- Agreement is known for well-formed values only: each update has to leave one to the next.
      have hsafe : ValueUpdate.Safe
          (Value.amendAlong { settings with typedLoops := loops } f (next :: rest)) :=
        safe_amendAlong h.safe hrest
      intro c x z hx hz
      cases x with
      | array a =>
        have ha : WellFormed a := (everywhere_array a).1 hx
        have hlevel : WellFormed (a.openLevel c.site y g z) := everywhere_arrOpenLevel g hz
        simp only [Value.amendAlong, arrOpenLevel_congr h]
        split
        · rfl
        · rename_i sel operands hok
          rw [hok] at hlevel
          rw [arrAmendElements_congr hsafe (ih hrest) hlevel ha]
      | dict s d =>
        have hd : d.Paired := wellFormed_dict.1 hx
        have hlevel : WellFormed (d.openLevel c.site (d.placement settings y) g z) :=
          everywhere_dictOpenLevel g hz
        have hplan : d.placement { settings with typedLoops := loops } y =
          d.placement settings y := rfl
        have hgrown := paired_appendKeys (c := c.sub 0) hd (everywhere_missing settings d hy)
        simp only [Value.amendAlong, dictOpenLevel_congr h, hplan]
        split
        · rfl
        · rename_i operands hok
          rw [hok] at hlevel
          rw [arrAmendElements_congr hsafe (ih hrest) hlevel hgrown.2.2]
      | _ => rfl

theorem amendPath_agrees (h : f.Agrees g) {c : Scope} {x path : Value} {z : Option Value}
    (hx : WellFormed x) (hpath : WellFormed path) (hz : WellFormed z) :
    x.amendPath { settings with typedLoops := loops } c path f z =
      x.amendPath settings c path g z := by
  simp only [Value.amendPath, amendAlong_agrees h (everywhere_components hpath) c x z hx hz]

theorem amendBy_agrees (h : f.Agrees g) {form : Form} {c : Scope} {x y : Value}
    {z : Option Value} (hx : WellFormed x) (hy : WellFormed y) (hz : WellFormed z) :
    x.amendBy { settings with typedLoops := loops } form c y f z =
      x.amendBy settings form c y g z := by
  cases form with
  | flat => simp only [Value.amendBy, amend_agrees h hx hy hz, h.value]
  | path => simp only [Value.amendBy, amendPath_agrees h hx hy hz, h.value]

/-! ## Calls -/

theorem bind_congr_of_wellFormed {α β : Type} [HasNodes α] {r r' : Result α}
    {k k' : α → Result β} (hr : r = r') (hwf : WellFormed r)
    (hk : ∀ a, WellFormed a → k a = k' a) : (r >>= k) = (r' >>= k') := by
  subst hr
  cases r with
  | error e => rfl
  | ok a => exact hk a hwf

theorem evalAll_congr {held : List Value} {bs : List (Body Value)} {args : List Value}
    (hbs : ∀ b ∈ bs, ∀ s, b.eval { settings with typedLoops := loops } held s args =
      b.eval settings held s args) {s : Site} {i : Nat} :
    evalAll { settings with typedLoops := loops } held bs s i args =
      evalAll settings held bs s i args := by
  induction bs generalizing i with
  | nil => rfl
  | cons b bs ih =>
    obtain ⟨hb, hbs⟩ := List.forall_mem_cons.1 hbs
    simp only [evalAll, hb, ih hbs]

theorem agrees_of_apply {f : Value} (hf : WellFormed f)
    (h : ∀ s args, WellFormed args →
      f.apply { settings with typedLoops := loops } s args = f.apply settings s args) :
    Callee.Agrees ⟨f, f.apply { settings with typedLoops := loops }⟩ ⟨f, f.apply settings⟩ where
  value := rfl
  call := h
  safe := safe_ofValue hf
  realLeft := real_ofValue _ f
  realRight := real_ofValue _ f

/-- Function values answer alike, and so do the bodies of user functions. -/
theorem call_cases_typedLoops (settings : Settings) (loops : Bool) : CallCases
    (fun f => WellFormed f → ∀ s args, WellFormed args →
      f.apply { settings with typedLoops := loops } s args = f.apply settings s args)
    (fun b => WellFormed b → ∀ held s args, WellFormed args →
      b.eval { settings with typedLoops := loops } held s args = b.eval settings held s args) where
  other f hf _ s args _ := by
    rw [apply_of_not_function _ hf, apply_of_not_function _ hf]
  builtin b _ s args _ := rfl
  lambda t name arity body ih hf s args hargs := by
    simp only [Value.apply, ih ((everywhere_lambda ..).1 hf).2 _ s args hargs]
  compose t outer inner iho ihi hf s args hargs := by
    obtain ⟨-, ho, hi⟩ := (everywhere_compose ..).1 hf
    simp only [Value.apply]
    refine bind_congr_of_wellFormed (ihi hi _ args hargs) (safe_ofValue hi _ _ hargs) fun v hv => ?_
    exact iho ho _ [v] ((everywhere_cons ..).2 ⟨hv, everywhere_empty⟩)
  project t g bound ih hf s args hargs := by
    obtain ⟨-, hg, hbound⟩ := (everywhere_project ..).1 hf
    have hfilled := everywhere_filterMap_id (everywhere_fillHoles hbound hargs)
    simp only [Value.apply, ih hg s _ hfilled]
  arg k _ held s args _ := rfl
  const v _ held s args _ := rfl
  call f bs ihf ihbs hb held s args hargs := by
    obtain ⟨hf, hbs⟩ := (everywhere_body_call ..).1 hb
    have hwf := everywhere_iff_forall.1 hbs
    simp only [Body.eval]
    refine bind_congr_of_wellFormed (evalAll_congr fun b hmem s => ?_)
      (everywhere_evalAll (fun b hmem s args hargs => wellFormed_eval (hwf b hmem) hargs) hargs)
      fun vs hvs => ihf hf _ vs hvs
    exact ihbs b hmem (hwf b hmem) held s args hargs
  raise b ih hb held s args hargs := by
    simp only [Body.eval, ih ((everywhere_body_raise b).1 hb) held _ args hargs]
  fail e _ held s args _ := rfl
  branch c t e ihc iht ihe hb held s args hargs := by
    obtain ⟨⟨hc, ht⟩, he⟩ := (everywhere_body_branch ..).1 hb
    simp only [Body.eval, ihc hc held _ args hargs, iht ht held _ args hargs,
      ihe he held _ args hargs]
  amend form x y f ihx ihy ihf hb held s args hargs := by
    obtain ⟨⟨hx, hy⟩, hf⟩ := (everywhere_body_amend ..).1 hb
    simp only [Body.eval]
    refine bind_congr_of_wellFormed (ihx hx held _ args hargs) (wellFormed_eval hx hargs)
      fun vx hvx => ?_
    refine bind_congr_of_wellFormed (ihy hy held _ args hargs) (wellFormed_eval hy hargs)
      fun vy hvy => ?_
    -- Amends are the only ones to read the setting.
    rw [amendBy_agrees (agrees_of_apply hf (ihf hf)) hvx hvy everywhere_none]
  amendWith form x y f z ihx ihy ihf ihz hb held s args hargs := by
    obtain ⟨⟨⟨hx, hy⟩, hf⟩, hz⟩ := (everywhere_body_amendWith ..).1 hb
    simp only [Body.eval]
    refine bind_congr_of_wellFormed (ihx hx held _ args hargs) (wellFormed_eval hx hargs)
      fun vx hvx => ?_
    refine bind_congr_of_wellFormed (ihy hy held _ args hargs) (wellFormed_eval hy hargs)
      fun vy hvy => ?_
    refine bind_congr_of_wellFormed (ihz hz held _ args hargs) (wellFormed_eval hz hargs)
      fun vz hvz => ?_
    rw [amendBy_agrees (agrees_of_apply hf (ihf hf)) hvx hvy ((everywhere_some vz).2 hvz)]

theorem ofValue_agrees (settings : Settings) (loops : Bool) {f : Value} (hf : WellFormed f) :
    (Callee.ofValue { settings with typedLoops := loops } f).Agrees (.ofValue settings f) :=
  agrees_of_apply hf ((call_cases_typedLoops settings loops).value f hf)

/-! ## The interface -/

theorem mergePlan_common_lt {l r : Dict Value} (hl : l.Paired) (threshold : Nat) :
    ∀ p ∈ (l.mergePlan threshold r).common.map (·.1), p < l.vals.len := by
  intro p hp
  obtain ⟨⟨p, j⟩, hcommon, rfl⟩ := List.mem_map.1 hp
  obtain ⟨⟨q, k⟩, hmem, hq⟩ := List.mem_filterMap.1 hcommon
  obtain ⟨p', rfl, hpair⟩ := Option.map_eq_some_iff.1 hq
  cases hpair
  rw [← hl.1]
  exact Dict.positions_lt hl.2.1 (List.fst_mem_of_mem_zipIdx hmem)

/-- On the right, the plan has no positions but those of entries. -/
theorem mergePlan_lt {l r : Dict Value} (hr : r.Paired) (threshold : Nat) :
    (∀ p ∈ (l.mergePlan threshold r).common.map (·.2), p < r.len) ∧
      ∀ p ∈ (l.mergePlan threshold r).fresh, p < r.len := by
  have hlen : (l.positions r.keys threshold).length = r.len := by
    have hvalues : r.keys.values.length = r.len := hr.2.1.length_values
    unfold Dict.positions
    split <;> rw [List.length_map, hvalues]
  have hnumber {e : Option Nat × Nat} (he : e ∈ (l.positions r.keys threshold).zipIdx) :
      e.2 < r.len := hlen ▸ List.snd_lt_of_mem_zipIdx he
  refine ⟨fun p hp => ?_, fun p hp => ?_⟩
  · obtain ⟨q, hq, rfl⟩ := List.mem_map.1 hp
    obtain ⟨e, he, hfound⟩ := List.mem_filterMap.1 hq
    obtain ⟨_, -, rfl⟩ := Option.map_eq_some_iff.1 hfound
    exact hnumber he
  · obtain ⟨e, he, hnew⟩ := List.mem_filterMap.1 hp
    obtain ⟨-, hsome⟩ := Option.ite_none_right_eq_some.1 hnew
    exact Option.some.inj hsome ▸ hnumber he

theorem mergeWith_congr {s : Site} {threshold : Nat}
    {combine combine' : List (Nat × Nat) → Arr Value → Result (Arr Value)} {l r : Dict Value}
    (h : combine (l.mergePlan threshold r).common l.vals =
      combine' (l.mergePlan threshold r).common l.vals) :
    l.mergeWith s threshold combine r = l.mergeWith s threshold combine' r := by
  simp only [Dict.mergeWith, h]

theorem merge_agrees (settings : Settings) (loops : Bool) {c : Scope} {l r : Dict Value}
    {f : Value} (hl : l.Paired) (hr : r.Paired) (hf : WellFormed f) :
    l.merge { settings with typedLoops := loops } c r f = l.merge settings c r f := by
  have hagrees := ofValue_agrees settings loops hf
  refine mergeWith_congr ?_
  refine bind_congr_of_wellFormed rfl (wellFormed_select_result hr.2.2) fun z hz => ?_
  have hlt := mergePlan_common_lt (r := r) hl settings.indexThreshold
  exact congrArg Outcome.toResult
    (amendAt_agrees _ settings hagrees hl.2.2 ((everywhere_array z).2 hz) hlt)

/-- Whether typed loops run cannot be observed: amends in place and by value, along paths or not,
and merging have the same outcome, failures and what they leave in the slot included. A loop that
applies leaves what the steps and the move to canonical storage leave; where none applies, the
steps start from the array as it was. -/
theorem typedLoops_unobservable (settings : Settings) (loops : Bool) :
    (∀ form c (x y f : Value) z, WellFormed x → WellFormed y → WellFormed f → WellFormed z →
      x.amendSlot { settings with typedLoops := loops } form c y f z =
          x.amendSlot settings form c y f z ∧
        x.amended { settings with typedLoops := loops } form c y f z =
          x.amended settings form c y f z) ∧
    (∀ c (l r : Dict Value) f, l.Paired → r.Paired → WellFormed f →
      l.merge { settings with typedLoops := loops } c r f = l.merge settings c r f) ∧
    (∀ c (a : Arr Value) y sel (f : Value) z operands, WellFormed a → WellFormed f →
      WellFormed z → Selection.ofIndex a.len y = .ok sel →
      (Callee.ofValue settings f).operands z sel = .ok operands →
      let steps := Arr.steps c (.ofValue settings f) operands sel
      (∀ b, a.loop? (c.sub 0) f sel.positions operands = some b →
        a.revise (c.sub 0) steps = .done b) ∧
      (a.loop? (c.sub 0) f sel.positions operands = none →
        a.amendAt { settings with typedLoops := true } c sel (.ofValue settings f) z =
          a.revise (c.sub 0) steps)) := by
  refine ⟨fun form c x y f z hx hy hf hz => ?_, fun c l r f hl hr hf => ?_,
    fun c a y sel f z operands ha hf hz hsel hop => ?_⟩
  · have hslot : x.amendSlot { settings with typedLoops := loops } form c y f z =
        x.amendSlot settings form c y f z :=
      amendBy_agrees (ofValue_agrees settings loops hf) hx hy hz
    exact ⟨hslot, by rw [Value.amended, Value.amended, hslot]⟩
  · exact merge_agrees settings loops hl hr hf
  · have hlt : ∀ p ∈ sel.positions, p < a.len := fun p hp => Selection.lt_of_ofIndex hsel hp
    refine ⟨fun b hb => ?_, fun _ => ?_⟩
    · have hreal : ∀ s args, (Callee.ofValue settings f).call s args =
        (Callee.ofValue settings f).value.apply settings s args := fun _ _ => rfl
      exact revise_eq_of_loop? hreal ha hlt (covers_of_operands hz hop) hb
    · rw [amendAt_eq_revise _ (real_ofValue settings f) ha hz hlt, hop]

/-- Additions at a repeated position, a merge, and the loop that the additions run. -/
theorem typedLoops_unobservable_add :
    let a : Arr Value := .ints (.ofList ⟨[1]⟩ [1, 2, 3])
    let y : Value := .array (.ints (.ofList ⟨[2]⟩ [0, 0]))
    let d : Dict Value := ⟨.ints (.ofList ⟨[3]⟩ [7, 8]), .ints (.ofList ⟨[4]⟩ [10, 20])⟩
    let f : Value := .builtin .add
    let z : Option Value := some (.int 5)
    let c : Scope := ⟨[], ⟨[0]⟩⟩
    let slow : Settings := { typedLoops := false }
    let sel : Selection := .many [0, 0]
    (WellFormed (Value.array a) ∧ WellFormed y ∧ WellFormed f ∧ WellFormed z ∧ d.Paired) ∧
      (∃ w, (Value.array a).amendSlot {} .flat c y f z = .done (.array (.ints w)) ∧
        w.items = [11, 2, 3]) ∧
      (Value.array a).amendSlot slow .flat c y f z = (Value.array a).amendSlot {} .flat c y f z ∧
      d.merge slow c d f = d.merge {} c d f ∧
      Selection.ofIndex a.len y = .ok sel ∧
      (Callee.ofValue {} f).operands z sel = .ok (.whole (.int 5)) ∧
      ∃ b, a.loop? (c.sub 0) f sel.positions (.whole (.int 5)) = some b ∧
        a.revise (c.sub 0) (Arr.steps c (.ofValue {} f) (.whole (.int 5)) sel) = .done b := by
  intro a y d f z c slow sel
  have hwf : WellFormed (Value.array a) ∧ WellFormed y ∧ WellFormed f ∧ WellFormed z ∧ d.Paired :=
    ⟨by decide, by decide, by decide, by decide, rfl, by decide, by decide⟩
  obtain ⟨ha, hy, hf, hz, hd⟩ := hwf
  obtain ⟨hamend, hmerge, hloop⟩ := typedLoops_unobservable {} false
  have hloops := hloop c a y sel f z _ ha hf hz rfl rfl
  exact ⟨⟨ha, hy, hf, hz, hd⟩, ⟨_, rfl, by decide⟩, (hamend .flat c _ y f z ha hy hf hz).1,
    hmerge c d d f hd hd hf, rfl, rfl, _, rfl, hloops.1 _ rfl⟩

end Agrees

end SharedArrays
