import SharedArrays.Proofs.Alike.Amend

/-!
# Amends along paths do not see sharing

Along a path, the outer containers are changed in place or copied, depending on who else refers
to them. Which of the two happened cannot be told from the outcome, so that the two forms of an
amend give alike outcomes for alike values.

## Main results

* `same_amendAlong` — amends along the components of a path
* `alike_amendBy` — amends of either form
-/

namespace SharedArrays

/-- Two updates of values have alike outcomes for alike values and operands. -/
def ValueUpdate.Same (dyadic : Bool) (u u' : ValueUpdate) : Prop :=
  ∀ c c' x x' z z', WellFormed x → WellFormed x' → Alike x x' → WellFormed z → WellFormed z' →
    Alike z z' → z.isSome = dyadic → Alike (u c x z) (u' c' x' z')

/-! ## One level of a path -/

theorem ensureContainers_congr (s s' : Site) {a a' : Arr Value} (h : Alike a a')
    (ps : List Nat) : a.ensureContainers s ps = a'.ensureContainers s' ps := by
  have hslots : Alike (ps.map fun i => (a.at? i).getD (a.padding s))
      (ps.map fun i => (a'.at? i).getD (a'.padding s')) := by
    rw [alike_list, List.map_map, List.map_map]
    refine List.map_congr_left fun i _ => ?_
    rcases alike_option_cases (h.at? i) with ⟨hnone, hnone'⟩ | ⟨v, v', hv, hv', hvv⟩
    · simp only [Function.comp_apply, hnone, hnone', Option.getD_none]
      exact alike_padding h
    · simp only [Function.comp_apply, hv, hv', Option.getD_some]
      exact hvv
  have hbad := hslots.find? (p := (!·.isContainer)) (q := (!·.isContainer)) fun v w hvw =>
    congrArg (!·) hvw.isContainer_eq
  have hkind := h.kind_eq
  by_cases hlist : a.kind = .list
  · obtain ⟨v, rfl⟩ : ∃ v, a = .list v := by cases a <;> first | exact ⟨_, rfl⟩ | cases hlist
    obtain ⟨w, rfl, -⟩ := h.exists_list
    rcases alike_option_cases hbad with ⟨hnone, hnone'⟩ | ⟨u, u', hu, hu', huu⟩
    · simp only [Arr.ensureContainers, hnone, hnone']
    · simp only [Arr.ensureContainers, hu, hu', huu.typeName_eq]
  · have hopen {a : Arr Value} (s : Site) (hlist : a.kind ≠ .list) : a.ensureContainers s ps =
        .error (.depth ((a.at? 0).elim a.kind.name Value.typeName)) := by
      cases a <;> first | rfl | exact absurd rfl hlist
    rw [hopen s hlist, hopen s' (hkind ▸ hlist), hkind]
    rcases alike_option_cases (h.at? 0) with ⟨hnone, hnone'⟩ | ⟨u, u', hu, hu', huu⟩
    · rw [hnone, hnone']
    · simp only [hu, hu', Option.elim_some, huu.typeName_eq]

instance : HasBare (Selection × Operands) := ⟨fun level => (level.1, bare level.2)⟩

theorem alike_arrOpenLevel (f : Callee) (s s' : Site) {a a' : Arr Value} (ha : WellFormed a)
    (ha' : WellFormed a') (h : Alike a a') {y y' : Value} (hy : Alike y y') {z z' : Option Value}
    (hz : WellFormed z) (hz' : WellFormed z') (hzz : Alike z z') :
    Alike (a.openLevel s y f z) (a'.openLevel s' y' f z') := by
  simp only [Arr.openLevel, ← h.len_eq ha ha', ← ofIndex_congr a.len hy,
    ensureContainers_congr s s' h]
  cases Selection.ofIndex a.len y with
  | error e => exact .refl _
  | ok sel =>
    rcases alike_result_cases (alike_operands f sel hzz hz hz') with
      ⟨ops, ops', hop, hop', hsame⟩ | ⟨e, e', he, he', hsame⟩
    · simp only [hop, hop', bind, Except.bind]
      split
      · cases a'.ensureContainers s' sel.positions with
        | error e => exact .refl _
        | ok _ => exact alike_ok.2 (congrArg (Prod.mk sel) hsame)
      · exact alike_ok.2 (congrArg (Prod.mk sel) hsame)
    · simp only [he, he', bind, Except.bind]
      exact alike_error.2 hsame

theorem alike_dictOpenLevel (f : Callee) (s s' : Site) {d d' : Dict Value} (h : Alike d d')
    {plan plan' : Placement} (hplan : plan.selection = plan'.selection) {z z' : Option Value}
    (hz : WellFormed z) (hz' : WellFormed z') (hzz : Alike z z') :
    Alike (d.openLevel s plan f z) (d'.openLevel s' plan' f z') := by
  simp only [Dict.openLevel, ← hplan,
    ensureContainers_congr s s' (alike_entries.1 h).2]
  rcases alike_result_cases (alike_operands f plan.selection hzz hz hz') with
    ⟨ops, ops', hop, hop', hsame⟩ | ⟨e, e', he, he', hsame⟩
  · simp only [hop, hop', bind, Except.bind]
    split
    · cases d'.vals.ensureContainers s' plan.selection.positions with
      | error e => exact .refl _
      | ok _ => exact alike_ok.2 hsame
    · exact alike_ok.2 hsame
  · simp only [he, he', bind, Except.bind]
    exact alike_error.2 hsame

/-! ## Elements -/

theorem alike_amendElements {dyadic : Bool} {update update' : ValueUpdate}
    (hu : ValueUpdate.Same dyadic update update') (hsafe : update.Safe) (hsafe' : update'.Safe)
    {ops ops' : Operands} (hops : Alike ops ops') (hz : WellFormed ops) (hz' : WellFormed ops')
    {ps : List Nat} {k n : Nat} (hdyadic : ops.Dyadic n dyadic) (hn : k + ps.length = n)
    {c c' : Scope} {w w' : Window Value} (hw : WellFormed (Arr.list w))
    (hw' : WellFormed (Arr.list w')) (h : Alike (Arr.list w) (Arr.list w')) :
    Alike ((amendElements update ops c k ps w).map Arr.list)
      ((amendElements update' ops' c' k ps w').map Arr.list) := by
  induction ps generalizing k w w' with
  | nil => exact alike_done h
  | cons i rest ih =>
    have hk : k < n := by rw [List.length_cons] at hn; omega
    simp only [amendElements]
    rcases alike_option_cases (h.at? i) with
      ⟨hold, hold'⟩ | ⟨old, old', hold, hold', hsame⟩
    · have hold : w.items[i]? = none := hold
      have hold' : w'.items[i]? = none := hold'
      have hlen : w.len = w'.len := h.len_eq hw hw'
      simp only [hold, hold', hlen]
      exact alike_failed h (.refl _)
    · have hwf := everywhere_of_at? hw hold
      have hwf' := everywhere_of_at? hw' hold'
      have hold : w.items[i]? = some old := hold
      have hold' : w'.items[i]? = some old' := hold'
      simp only [hold, hold']
      -- The updates run in surroundings that hold the other elements, and what they hold differs.
      generalize (c.sub (k + 1)).beside (w.buf.eraseIdx (w.off + i)) = s
      generalize (c'.sub (k + 1)).beside (w'.buf.eraseIdx (w'.off + i)) = s'
      have hat := Operands.everywhere_at? hz k
      have hat' := Operands.everywhere_at? hz' k
      have ho := everywhere_outcome.1 (hsafe s old (ops.at? k) hwf hat)
      have ho' := everywhere_outcome.1 (hsafe' s' old' (ops'.at? k) hwf' hat')
      obtain ⟨hslot, hfailure⟩ := alike_outcome.1 <|
        hu s s' old old' _ _ hwf hwf' hsame hat hat' (alike_at? hops k) (hdyadic k hk)
      generalize update s old (ops.at? k) = o at ho hslot hfailure
      generalize update' s' old' (ops'.at? k) = o' at ho' hslot hfailure
      have hnext : Alike (Arr.list { w with buf := w.buf.set (w.off + i) o.slot })
          (Arr.list { w' with buf := w'.buf.set (w'.off + i) o'.slot }) := by
        obtain ⟨hkind, hfacts, hvalues⟩ := alike_arr_iff.1 h
        refine alike_arr_iff.2 ⟨hkind, hfacts, ?_⟩
        simp only [Arr.values, Window.items, stretch_set]
        exact hvalues.set hslot i
      rcases alike_option_cases hfailure with ⟨hnone, hnone'⟩ | ⟨e, e', he, he', hee⟩
      · simp only [hnone, hnone']
        refine ih ?_ (wellFormed_setCell hw _ ho.1) (wellFormed_setCell hw' _ ho'.1) hnext
        rw [List.length_cons] at hn
        omega
      · simp only [he, he']
        exact alike_failed hnext hee

theorem alike_arrAmendElements {dyadic : Bool} {update update' : ValueUpdate}
    (hu : ValueUpdate.Same dyadic update update') (hsafe : update.Safe) (hsafe' : update'.Safe)
    {ops ops' : Operands} (hops : Alike ops ops') (hz : WellFormed ops) (hz' : WellFormed ops')
    {ps : List Nat} (hdyadic : ops.Dyadic ps.length dyadic) {c c' : Scope} {a a' : Arr Value}
    (ha : WellFormed a) (ha' : WellFormed a') (h : Alike a a') :
    Alike (a.amendElements update ops c ps) (a'.amendElements update' ops' c' ps) := by
  have hprivate {w : Window Value} (c : Scope) (hw : WellFormed (Arr.list w)) :
      WellFormed (Arr.list (w.makePrivate c)) :=
    wellFormed_update (fun w hw _ => hw.makePrivate _) (fun _ _ h => Window.mem_makePrivate h) hw
  by_cases hlist : a.kind = .list
  · obtain ⟨v, rfl⟩ : ∃ v, a = .list v := by cases a <;> first | exact ⟨_, rfl⟩ | cases hlist
    obtain ⟨w, rfl, hitems⟩ := h.exists_list
    refine alike_amendElements hu hsafe hsafe' hops hz hz' hdyadic (Nat.zero_add _)
      (hprivate _ ha) (hprivate _ ha') (alike_arr_iff.2 ⟨rfl, ?_, ?_⟩)
    · simp [Arr.flags, Arr.read]
    · simpa [Arr.values] using hitems
  · have hkind := h.kind_eq
    cases a <;> cases a' <;> first | exact alike_done h | exact absurd rfl hlist | cases hkind

/-! ## Paths -/

theorem alike_components {path path' : Value} (h : Alike path path') :
    Alike path.components path'.components := by
  rcases alike_value_cases h with ⟨a, b, rfl, rfl, hab⟩ | ⟨_, _, _, _, rfl, rfl, -⟩ |
    ⟨_, _, _, _, rfl, rfl, -⟩ | ⟨hleaf, rfl⟩
  · exact hab.values
  · exact alike_cons.2 ⟨h, .refl _⟩
  · exact alike_cons.2 ⟨h, .refl _⟩
  · exact .refl _

section Level

variable {settings : Settings} {f : Callee} {dyadic : Bool} {next next' : Value}
  {rest rest' : List Value}
  (hsame : ValueUpdate.Same dyadic (Value.amendAlong settings f (next :: rest))
    (Value.amendAlong settings f (next' :: rest')))
  (hsafe : ValueUpdate.Safe (Value.amendAlong settings f (next :: rest)))
  (hsafe' : ValueUpdate.Safe (Value.amendAlong settings f (next' :: rest')))
  {c c' : Scope} {y y' : Value} (hyy : Alike y y') {z z' : Option Value} (hz : WellFormed z)
  (hz' : WellFormed z') (hzz : Alike z z') (hsome : z.isSome = dyadic)
include hsame hsafe hsafe' hyy hz hz' hzz hsome

/-- Two levels open at the same positions of two arrays, or both are refused. -/
theorem alike_amendAlong_array {a b : Arr Value} (ha : WellFormed a) (hb : WellFormed b)
    (hab : Alike a b) :
    Alike (Value.amendAlong settings f (y :: next :: rest) c (.array a) z)
      (Value.amendAlong settings f (y' :: next' :: rest') c' (.array b) z') := by
  have hopen := alike_arrOpenLevel f c.site c'.site ha hb hab hyy hz hz' hzz
  have hlevel : WellFormed (a.openLevel c.site y f z) := everywhere_arrOpenLevel f hz
  have hlevel' : WellFormed (b.openLevel c'.site y' f z') := everywhere_arrOpenLevel f hz'
  simp only [Value.amendAlong]
  rcases alike_result_cases hopen with
    ⟨⟨sel, ops⟩, ⟨sel', ops'⟩, hok, hok', hlevels⟩ | ⟨e, e', he, he', hee⟩
  · obtain ⟨hsel, hops⟩ := Prod.mk.inj hlevels
    have hsel : sel = sel' := hsel
    subst hsel
    rw [hok] at hlevel
    rw [hok'] at hlevel'
    have hops₁ : WellFormed ops := ((everywhere_pair ..).1 hlevel).2
    have hops₂ : WellFormed ops' := ((everywhere_pair ..).1 hlevel').2
    have hop := (Arr.openLevel_eq_ok.1 hok).2.1
    have hdyadic : ops.Dyadic sel.positions.length dyadic := hsome ▸ isSome_at?_of_operands hz hop
    simp only [hok, hok']
    split
    · exact alike_done (alike_array.2 hab)
    · exact alike_map (alike_arrAmendElements hsame hsafe hsafe' hops hops₁ hops₂
        hdyadic ha hb hab) fun _ _ h => alike_array.2 h
  · simp only [he, he']
    exact alike_failed (alike_array.2 hab) hee

/-- Two levels append the same missing keys to two dictionaries, or both are refused. -/
theorem alike_amendAlong_dict (hy : WellFormed y) (hy' : WellFormed y') {s t : Site}
    {d e : Dict Value} (hd : d.Paired) (he : e.Paired) (hde : Alike d e) :
    Alike (Value.amendAlong settings f (y :: next :: rest) c (.dict s d) z)
      (Value.amendAlong settings f (y' :: next' :: rest') c' (.dict t e) z') := by
  obtain ⟨hplan, hmissing⟩ := placement_congr settings hde hd he hyy hy hy'
  have hopen := alike_dictOpenLevel f c.site c'.site hde hplan hz hz' hzz
  have hlevel : WellFormed (d.openLevel c.site (d.placement settings y) f z) :=
    everywhere_dictOpenLevel f hz
  have hlevel' : WellFormed (e.openLevel c'.site (e.placement settings y') f z') :=
    everywhere_dictOpenLevel f hz'
  have hgrown := paired_appendKeys (c := c.sub 0) hd (everywhere_missing settings d hy)
  have hgrown' := paired_appendKeys (c := c'.sub 0) he (everywhere_missing settings e hy')
  obtain ⟨hkeys, hvals⟩ := alike_entries.1 (alike_appendKeys (c.sub 0) (c'.sub 0) hde hmissing)
  simp only [Value.amendAlong]
  rcases alike_result_cases hopen with ⟨ops, ops', hok, hok', hops⟩ | ⟨e₁, e₂, he₁, he₂, hee⟩
  · rw [hok] at hlevel
    rw [hok'] at hlevel'
    have hop := (Dict.openLevel_eq_ok.1 hok).1
    have hdyadic : ops.Dyadic (d.placement settings y).selection.positions.length dyadic :=
      hsome ▸ isSome_at?_of_operands hz hop
    simp only [hok, hok', ← hplan]
    split
    · exact alike_done (alike_dict.2 hde)
    · exact alike_map (alike_arrAmendElements hsame hsafe hsafe' hops hlevel hlevel' hdyadic
        hgrown.2.2 hgrown'.2.2 hvals) fun _ _ h => alike_dict.2 (alike_entries.2 ⟨hkeys, h⟩)
  · simp only [he₁, he₂]
    exact alike_failed (alike_dict.2 hde) hee

end Level

section Blind

variable {settings : Settings} {f : Callee} {dyadic : Bool} (hf : f.Blind dyadic)
include hf

theorem same_amendAlong {path path' : List Value} (hwf : WellFormed path)
    (hwf' : WellFormed path') (hpath : Alike path path') :
    ValueUpdate.Same dyadic (Value.amendAlong settings f path)
      (Value.amendAlong settings f path') := by
  induction path generalizing path' with
  | nil =>
    obtain rfl := alike_nil.1 hpath
    intro c c' x x' z z' hx hx' h hz hz' hzz hsome
    have hargs : Alike (x :: z.toList) (x' :: z'.toList) := by
      refine alike_cons.2 ⟨h, ?_⟩
      rcases alike_option_cases hzz with ⟨rfl, rfl⟩ | ⟨u, u', rfl, rfl, huu⟩
      · exact .refl _
      · exact alike_cons.2 ⟨huu, .refl _⟩
    have hcount : (x :: z.toList).length = updateArity dyadic := by
      rw [← hsome]
      cases z <;> rfl
    have hcall := hf.isPure c.site c'.site _ _ hcount
      ((everywhere_cons ..).2 ⟨hx, everywhere_toList.2 hz⟩)
      ((everywhere_cons ..).2 ⟨hx', everywhere_toList.2 hz'⟩) hargs
    simp only [Value.amendAlong]
    rcases alike_result_cases hcall with ⟨v, v', hv, hv', hvv⟩ | ⟨e, e', he, he', hee⟩
    · simp only [hv, hv']
      exact alike_done hvv
    · simp only [he, he']
      exact alike_failed h hee
  | cons y rest ih =>
    obtain ⟨y', rest', rfl, hyy, hrest⟩ := hpath.exists_cons
    obtain ⟨hy, hwf⟩ := (everywhere_cons ..).1 hwf
    obtain ⟨hy', hwf'⟩ := (everywhere_cons ..).1 hwf'
    cases rest with
    | nil =>
      obtain rfl := alike_nil.1 hrest
      exact fun c c' x x' z z' hx hx' h hz hz' hzz hsome =>
        alike_amend hf hy hy' hyy hx hx' h hz hz' hzz hsome
    | cons next rest =>
      obtain ⟨next', rest', rfl, -, -⟩ := hrest.exists_cons
      have hsame := ih hwf hwf' hrest
      have hsafe : ValueUpdate.Safe (Value.amendAlong settings f (next :: rest)) :=
        safe_amendAlong hf.safe hwf
      have hsafe' : ValueUpdate.Safe (Value.amendAlong settings f (next' :: rest')) :=
        safe_amendAlong hf.safe hwf'
      intro c c' x x' z z' hx hx' h hz hz' hzz hsome
      rcases alike_value_cases h with ⟨a, b, rfl, rfl, hab⟩ | ⟨s, t, d, e, rfl, rfl, hde⟩ |
        ⟨s, t, u, u', rfl, rfl, -⟩ | ⟨hleaf, rfl⟩
      · exact alike_amendAlong_array hsame hsafe hsafe' hyy hz hz' hzz hsome
          ((everywhere_array a).1 hx) ((everywhere_array b).1 hx') hab
      · exact alike_amendAlong_dict hsame hsafe hsafe' hyy hz hz' hzz hsome hy hy'
          (wellFormed_dict.1 hx) (wellFormed_dict.1 hx') hde
      -- Nothing else can be entered.
      · exact alike_failed h (.refl _)
      · cases x' <;> first | exact alike_failed (.refl _) (.refl _) | cases hleaf

theorem alike_amendPath {path path' : Value} (hwf : WellFormed path) (hwf' : WellFormed path')
    (hpath : Alike path path') {c c' : Scope} {x x' : Value} {z z' : Option Value}
    (hx : WellFormed x) (hx' : WellFormed x') (h : Alike x x') (hz : WellFormed z)
    (hz' : WellFormed z') (hzz : Alike z z') (hsome : z.isSome = dyadic) :
    Alike (x.amendPath settings c path f z) (x'.amendPath settings c' path' f z') := by
  have hcomponents := alike_components hpath
  simp only [Value.amendPath, hcomponents.length_eq]
  split
  · exact alike_failed h (.refl _)
  · exact same_amendAlong hf (everywhere_components hwf) (everywhere_components hwf') hcomponents
      c c' x x' z z' hx hx' h hz hz' hzz hsome

theorem alike_amendBy (form : Form) {y y' : Value} (hwf : WellFormed y) (hwf' : WellFormed y')
    (hy : Alike y y') {c c' : Scope} {x x' : Value} {z z' : Option Value}
    (hx : WellFormed x) (hx' : WellFormed x') (h : Alike x x') (hz : WellFormed z)
    (hz' : WellFormed z') (hzz : Alike z z') (hsome : z.isSome = dyadic) :
    Alike (x.amendBy settings form c y f z) (x'.amendBy settings form c' y' f z') := by
  have hdyadic : z'.isSome = z.isSome := by
    rcases alike_option_cases hzz with ⟨rfl, rfl⟩ | ⟨u, u', rfl, rfl, -⟩ <;> rfl
  have during {o o' : Outcome Value} (ho : Alike o o') (op : String) :
      Alike (⟨o.slot, o.failure.map (·.during op)⟩ : Outcome Value)
        ⟨o'.slot, o'.failure.map (·.during op)⟩ := by
    obtain ⟨hslot, hfailure⟩ := alike_outcome.1 ho
    exact alike_outcome.2 ⟨hslot, alike_map_during hfailure op⟩
  simp only [Value.amendBy, hdyadic]
  cases form with
  | flat => exact during (alike_amend hf hwf hwf' hy hx hx' h hz hz' hzz hsome) _
  | path => exact during (alike_amendPath hf hwf hwf' hy hx hx' h hz hz' hzz hsome) _

end Blind

end SharedArrays
