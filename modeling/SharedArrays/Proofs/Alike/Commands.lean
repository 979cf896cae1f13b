import SharedArrays.Proofs.Alike.Path
import SharedArrays.Proofs.Session

/-!
# Changes of independent lists

A change of a register comes out the same, but for names, surroundings and pins, when it works on
the bare value and nothing else is alive: on lists of which each handle has its own. What is shared
decides only where a change is written.

## Main definitions

* `Change.IsPure` — a change whose function does not see sharing
* `Change.Agrees` — a change that comes out the same on another value

## Main results

* `alike_bare` — a value is like its bare form, which is well-formed if the value is
* `alike_amended` — amends by value
* `alike_change` — changes in place
-/

namespace SharedArrays

/-! ## Bare values -/

theorem window_bare_bare {α : Type} (w : Window α) : w.bare.bare = w.bare := by
  rw [Window.bare, Window.bare, Window.items_ofList]
  rfl

theorem bare_bare (v : Value) : v.bare.bare = v.bare := by
  induction v using Value.nest_induction with
  | leaf v hleaf => cases v <;> first | rfl | cases hleaf
  | error s v ih => simp only [Value.bare, ih]
  | dict s keys vals ihk ihv =>
    have hk := Value.array.inj ihk
    have hv := Value.array.inj ihv
    simp only [Value.bare, hk, hv]
  | array a ih =>
    refine congrArg Value.array ?_
    cases a with
    | list w =>
      have hitems : (w.items.map Value.bare).map Value.bare = w.items.map Value.bare := by
        rw [List.map_map]
        exact List.map_congr_left fun v hv => ih v (Window.mem_of_mem_items hv)
      rw [Arr.bare_list, Arr.bare_list, Window.items_ofList, hitems]
      rfl
    | bools w => exact congrArg Arr.bools (window_bare_bare w)
    | ints w => exact congrArg Arr.ints (window_bare_bare w)
    | floats w => exact congrArg Arr.floats (window_bare_bare w)
    | strs w => exact congrArg Arr.strs (window_bare_bare w)

theorem alike_bare (v : Value) : Alike v v.bare := (bare_bare v).symm

theorem Arr.len_bare {a : Arr Value} (h : WellFormed a) : a.bare.len = a.len := by
  have hbounds : a.bare.InBounds := by
    cases a with
    | list w => exact Arr.bare_list w ▸ Window.inBounds_ofList ..
    | _ w => exact Window.inBounds_ofList ..
  rw [← Arr.length_values hbounds, Arr.values_bare, List.length_map, h.length_values]

theorem wellFormed_bare {v : Value} (h : WellFormed v) : WellFormed v.bare := by
  induction v using Value.nest_induction with
  | leaf v hleaf => cases v <;> first | exact h | cases hleaf
  | error s v ih =>
    exact (everywhere_errorValue ..).2 ⟨trivial, ih ((everywhere_errorValue ..).1 h).2⟩
  | dict s keys vals ihk ihv =>
    obtain ⟨hlen, hk, hv⟩ := wellFormed_dict.1 h
    refine wellFormed_dict.2 ⟨?_, (everywhere_array _).1 (ihk ((everywhere_array _).2 hk)),
      (everywhere_array _).1 (ihv ((everywhere_array _).2 hv))⟩
    exact (Arr.len_bare hk).trans (hlen.trans (Arr.len_bare hv).symm)
  | array a ih =>
    refine (everywhere_array _).2 ?_
    cases a with
    | list w =>
      have hitems : WellFormed w.items := everywhere_values ((everywhere_array _).1 h)
      rw [Arr.bare_list]
      refine (everywhere_list _).2
        ⟨Window.inBounds_ofList .., everywhere_iff_forall.2 fun u hu => ?_⟩
      obtain ⟨v, hv, rfl⟩ := List.mem_map.1 hu
      exact ih v (Window.mem_of_mem_items hv) (everywhere_iff_forall.1 hitems v hv)
    | _ w => exact wellFormed_arr.2 ⟨Window.inBounds_ofList .., everywhere_empty⟩

/-! ## Writes -/

section Writes

variable {a a' b b' : Arr Value} {c c' : Scope} {v : Value}

theorem alike_set (h : Alike a a') (i : Nat) :
    (∃ e e', a.set c i v = .ok e ∧ a'.set c' i v = .ok e' ∧ Alike e e') ∨
      a.set c i v = .error v ∧ a'.set c' i v = .error v := by
  have hsame := canStore_congr h (.refl v)
  have hput : Alike (a.put c i v) (a'.put c' i v) := alike_put h (.refl v) i
  rcases a.store_cases (fun w x => w.write c i x) v with ⟨hcan, e, he⟩ | ⟨hcan, he⟩
  · rcases a'.store_cases (fun w x => w.write c' i x) v with ⟨-, e', he'⟩ | ⟨hcan', -⟩
    · have he : a.set c i v = .ok e := he
      have he' : a'.set c' i v = .ok e' := he'
      rw [Arr.put, Arr.put, he, he'] at hput
      exact .inl ⟨e, e', he, he', hput⟩
    · rw [hsame, hcan'] at hcan
      cases hcan
  · rcases a'.store_cases (fun w x => w.write c' i x) v with ⟨hcan', -⟩ | ⟨-, he'⟩
    · rw [hsame, hcan'] at hcan
      cases hcan
    · exact .inr ⟨he, he'⟩

theorem alike_extend? (h : Alike a a') (b : Arr Value) :
    Alike (a.extend? c b) (a'.extend? c' b) := by
  have hvalues {e e' : Arr Value} (he : a.extend? c b = some e)
      (he' : a'.extend? c' b = some e') : Alike e.values e'.values := by
    rw [Arr.values_extend? he, Arr.values_extend? he']
    exact h.values.append (.refl _)
  have hkind := h.kind_eq
  cases a <;> cases a' <;> cases hkind <;> cases b
  all_goals first
    | exact .refl none
    | exact alike_some.2 (alike_arr_iff.2 ⟨rfl, rfl, hvalues rfl rfl⟩)

theorem alike_asList (s s' : Site) (h : Alike a a') : Alike (a.asList s) (a'.asList s') := by
  have hvalues : Alike (a.asList s).values (a'.asList s').values := by
    rw [Arr.values_asList, Arr.values_asList]
    exact h.values
  have hkind := h.kind_eq
  cases a <;> cases a' <;> cases hkind
  case list.list.refl => exact h
  all_goals exact alike_arr_iff.2 ⟨rfl, rfl, hvalues⟩

theorem alike_setFlags (h : Alike a a') (flags : Flags) :
    Alike (a.setFlags flags) (a'.setFlags flags) := by
  have hvalues (a : Arr Value) : (a.setFlags flags).values = a.values := by cases a <;> rfl
  have hkind (a : Arr Value) : (a.setFlags flags).kind = a.kind := a.kind_update _
  rw [alike_arr_iff, Arr.flags_setFlags, Arr.flags_setFlags, hvalues, hvalues, hkind, hkind]
  exact ⟨h.kind_eq, rfl, h.values⟩

/-- A pin is not seen. -/
theorem alike_pin (a : Arr Value) : Alike a.pin a := by
  cases a with
  | list w =>
    show (Arr.list w).pin.bare = (Arr.list w).bare
    rw [Arr.bare_list, Arr.pin]
    exact Arr.bare_list _
  | _ w => rfl

theorem alike_makePrivate (h : Alike a a') : Alike (a.makePrivate c) (a'.makePrivate c') := by
  have hvalues (c : Scope) (a : Arr Value) : (a.makePrivate c).values = a.values := by
    cases a <;> simp [Arr.makePrivate, Arr.update, Arr.values]
  have hkind (c : Scope) (a : Arr Value) : (a.makePrivate c).kind = a.kind := a.kind_update _
  have hflags (c : Scope) (a : Arr Value) : (a.makePrivate c).flags = {} := by
    cases a <;> exact Window.flags_makePrivate ..
  rw [alike_arr_iff, hvalues, hvalues, hkind, hkind, hflags, hflags]
  exact ⟨h.kind_eq, rfl, h.values⟩

theorem alike_concat (s s' : Site) (ha : Alike a a') (hlen : a.len = a'.len) (hb : Alike b b')
    (hlen' : b.len = b'.len) : Alike (a.concat s b) (a'.concat s' b') := by
  have hvalues : Alike (a.concat s b).values (a'.concat s' b').values := by
    rw [Arr.values_concat, Arr.values_concat]
    exact ha.values.append hb.values
  -- Unless both sides have one untagged variant, an empty side gives way.
  have hmixed (hc : a.concat s b =
        if b.len = 0 then a else if a.len = 0 then b else .ofValues s (a.values ++ b.values))
      (hc' : a'.concat s' b' =
        if b'.len = 0 then a' else if a'.len = 0 then b' else
          .ofValues s' (a'.values ++ b'.values)) :
      Alike (a.concat s b) (a'.concat s' b') := by
    rw [hc, hc', hlen, hlen']
    split
    · exact ha
    split
    · exact hb
    · exact alike_ofValues (ha.values.append hb.values)
  have hkind := ha.kind_eq
  have hkind' := hb.kind_eq
  cases a <;> cases a' <;> cases hkind <;> cases b <;> cases b' <;> cases hkind'
  all_goals first
    | exact hmixed rfl rfl
    | exact alike_arr_iff.2 ⟨rfl, rfl, hvalues⟩

end Writes

/-! ## Amends -/

section Amends

variable {settings : Settings} {form : Form} {c c' : Scope} {x x' y f : Value} {z : Option Value}

/-- An amend in place of alike values. -/
theorem alike_amendSlot (hx : WellFormed x) (hx' : WellFormed x') (h : Alike x x')
    (hy : WellFormed y) (hf : WellFormed f) (hz : WellFormed z)
    (hpure : f.IsPure settings (updateArity z.isSome)) :
    Alike (x.amendSlot settings form c y f z) (x'.amendSlot settings form c' y f z) :=
  alike_amendBy (blind_ofValue hf hpure) form hy hy (.refl y) hx hx' h hz hz (.refl z) rfl

/-- An amend by value of alike values. -/
theorem alike_amended (hx : WellFormed x) (hx' : WellFormed x') (h : Alike x x')
    (hy : WellFormed y) (hf : WellFormed f) (hz : WellFormed z)
    (hpure : f.IsPure settings (updateArity z.isSome)) :
    Alike (x.amended settings form c y f z) (x'.amended settings form c' y f z) :=
  alike_toResult (alike_amendSlot hx hx' h hy hf hz hpure)

end Amends

/-! ## Changes -/

theorem Alike.exists_array {a : Arr Value} {x : Value} (h : Alike (Value.array a) x) :
    ∃ b, x = .array b ∧ Alike a b := by
  rcases alike_value_cases h with ⟨_, b, hv, rfl, hab⟩ | ⟨_, _, _, _, hv, -⟩ |
    ⟨_, _, _, _, hv, -⟩ | ⟨-, rfl⟩
  · cases hv
    exact ⟨b, rfl, hab⟩
  · cases hv
  · cases hv
  · exact ⟨a, rfl, .refl a⟩

theorem Alike.exists_dict {s : Site} {d : Dict Value} {x : Value} (h : Alike (Value.dict s d) x) :
    ∃ t e, x = .dict t e ∧ Alike d e := by
  rcases alike_value_cases h with ⟨_, _, hv, -⟩ | ⟨_, t, _, e, hv, rfl, hde⟩ |
    ⟨_, _, _, _, hv, -⟩ | ⟨-, rfl⟩
  · cases hv
  · cases hv
    exact ⟨t, e, rfl, hde⟩
  · cases hv
  · exact ⟨s, d, rfl, .refl d⟩

instance : HasBare Answer :=
  ⟨fun a => match a with
    | .value v => .value v.bare
    | .refused v => .refused v.bare
    | a => a⟩

/-- An amend by a function that does not see sharing, or any other change. -/
def Change.IsPure (settings : Settings) : Change Value → Prop
  | .amend _ _ f z => f.IsPure settings (updateArity z.isSome)
  | _ => True

/-- The change comes out as `x'` and `answer` for the value `y` too, whatever its surroundings.
Only the answer whether a copy had to be made may be another. -/
def Change.Agrees (settings : Settings) (change : Change Value) (y x' : Value)
    (answer : Result Answer) : Prop :=
  ∀ c, ∃ y' answer', change.run settings c y = .ok (y', answer') ∧ Alike x' y' ∧
    (change ≠ .makePrivate → Alike answer answer')

section Changes

variable {settings : Settings} {c : Scope} {change : Change Value} {x x' y : Value}
  {answer : Result Answer}

theorem agrees_amend {form : Form} {i f : Value} {z : Option Value} (hx : WellFormed x)
    (hy : WellFormed y) (hxy : Alike x y) (hi : WellFormed i) (hf : WellFormed f)
    (hz : WellFormed z) (hpure : f.IsPure settings (updateArity z.isSome))
    (h : (Change.amend form i f z).run settings c x = .ok (x', answer)) :
    (Change.amend form i f z).Agrees settings y x' answer := by
  intro c'
  cases h
  have hamend : Alike (x.amendSlot settings form c i f z) (y.amendSlot settings form c' i f z) :=
    alike_amendSlot hx hy hxy hi hf hz hpure
  refine ⟨_, _, rfl, (alike_outcome.1 hamend).1, fun _ => ?_⟩
  rcases alike_result_cases (alike_toResult hamend) with ⟨v, w, hv, hw, -⟩ | ⟨e, e', he, he', hee⟩
  · rw [hv, hw]
    exact .refl _
  · rw [he, he']
    exact alike_error.2 hee

theorem agrees_setAt {i : Nat} {v : Value} (hxy : Alike x y)
    (h : (Change.setAt i v).run settings c x = .ok (x', answer)) :
    (Change.setAt i v).Agrees settings y x' answer := by
  intro c'
  obtain ⟨a, rfl, hrun⟩ := toArr_bind_eq_ok h
  obtain ⟨b, rfl, hab⟩ := hxy.exists_array
  have hset : (∃ e e', a.set c i v = .ok e ∧ b.set c' i v = .ok e' ∧ Alike e e') ∨
      a.set c i v = .error v ∧ b.set c' i v = .error v := alike_set hab i
  rcases hset with ⟨e, e', he, he', hee⟩ | ⟨he, he'⟩
  · rw [he] at hrun
    cases hrun
    have hrun' : (Change.setAt i v).run settings c' (.array b) =
        .ok (changed (.array e') .nothing) := by
      simp only [Change.run, Value.toArr, bind, Except.bind, he']
      rfl
    exact ⟨_, _, hrun', alike_array.2 hee, fun _ => .refl _⟩
  · rw [he] at hrun
    cases hrun
    have hrun' : (Change.setAt i v).run settings c' (.array b) =
        .ok (changed (.array b) (.refused v)) := by
      simp only [Change.run, Value.toArr, bind, Except.bind, he']
      rfl
    exact ⟨_, _, hrun', hxy, fun _ => .refl _⟩

theorem agrees_extend {w : Value} (hxy : Alike x y)
    (h : (Change.extend w).run settings c x = .ok (x', answer)) :
    (Change.extend w).Agrees settings y x' answer := by
  intro c'
  obtain ⟨a, rfl, hrun⟩ := toArr_bind_eq_ok h
  obtain ⟨b, rfl, hextend⟩ := toArr_bind_eq_ok hrun
  obtain ⟨a', rfl, hab⟩ := hxy.exists_array
  have hsame : Alike (a.extend? c b) (a'.extend? c' b) := alike_extend? hab b
  rcases alike_option_cases hsame with ⟨he, -⟩ | ⟨e, e', he, he', hee⟩
  · rw [he] at hextend
    cases hextend
  · rw [he] at hextend
    cases hextend
    have hrun' : (Change.extend (.array b)).run settings c' (.array a') =
        .ok (changed (.array e') .nothing) := by
      simp only [Change.run, Value.toArr, bind, Except.bind, he']
      rfl
    exact ⟨_, _, hrun', alike_array.2 hee, fun _ => .refl _⟩

theorem agrees_appendEntries {keys vals : Value} (hx : WellFormed x) (hy : WellFormed y)
    (hxy : Alike x y) (h : (Change.appendEntries keys vals).run settings c x = .ok (x', answer)) :
    (Change.appendEntries keys vals).Agrees settings y x' answer := by
  intro c'
  cases x with
  | dict s d =>
    obtain ⟨t, e, rfl, hde⟩ := hxy.exists_dict
    obtain ⟨k, rfl, hrun⟩ := toArr_bind_eq_ok h
    obtain ⟨v, rfl, hentries⟩ := toArr_bind_eq_ok hrun
    obtain ⟨hkeys, hvals⟩ := alike_entries.1 hde
    obtain ⟨-, hdk, hdv⟩ := wellFormed_dict.1 hx
    obtain ⟨-, hek, hev⟩ := wellFormed_dict.1 hy
    have hrun' (r : Result (Dict Value)) (hr : e.append? (c'.site.sub 0) k v = r) :
        (Change.appendEntries (.array k) (.array v)).run settings c' (.dict t e) =
          .ok (.dict (c'.own t) (r.toOption.getD e), r.map fun _ => .nothing) := by
      simp only [Change.run, Value.toArr, bind, Except.bind, hr]
      cases r <;> rfl
    unfold Dict.append? at hentries hrun'
    by_cases hlen : k.len = v.len
    · rw [if_pos hlen] at hentries hrun'
      cases hentries
      refine ⟨_, _, hrun' _ rfl, alike_dict.2 (alike_entries.2 ⟨?_, ?_⟩), fun _ => .refl _⟩
      · exact alike_concat _ _ hkeys (hkeys.len_eq hdk hek) (.refl k) rfl
      · exact alike_concat _ _ hvals (hvals.len_eq hdv hev) (.refl v) rfl
    · rw [if_neg hlen] at hentries hrun'
      cases hentries
      exact ⟨_, _, hrun' _ rfl, alike_dict.2 hde, fun _ => .refl _⟩
  | _ => cases h

/-- A change comes out the same on alike values, whatever else is alive. -/
theorem alike_change (hx : WellFormed x) (hy : WellFormed y) (hxy : Alike x y)
    (hchange : WellFormed change) (hpure : change.IsPure settings)
    (h : change.run settings c x = .ok (x', answer)) : change.Agrees settings y x' answer := by
  have hops : WellFormed change.operands := hchange
  -- What remains after the changes above goes through for every array, or for every dictionary.
  cases change with
  | amend form i f z =>
    simp only [Change.operands, everywhere_cons] at hops
    exact agrees_amend hx hy hxy hops.1 hops.2.1 (everywhere_toList.1 hops.2.2) hpure h
  | setAt i v => exact agrees_setAt hxy h
  | extend w => exact agrees_extend hxy h
  | appendEntries keys vals => exact agrees_appendEntries hx hy hxy h
  | put i v =>
    obtain ⟨a, rfl, hrun⟩ := toArr_bind_eq_ok h
    obtain ⟨b, rfl, hab⟩ := hxy.exists_array
    cases hrun
    exact fun c' => ⟨_, _, rfl, alike_array.2 (alike_put hab (.refl v) i), fun _ => .refl _⟩
  | push v =>
    obtain ⟨a, rfl, hrun⟩ := toArr_bind_eq_ok h
    obtain ⟨b, rfl, hab⟩ := hxy.exists_array
    cases hrun
    exact fun c' => ⟨_, _, rfl, alike_array.2 (alike_push hab (.refl v)), fun _ => .refl _⟩
  | asList =>
    obtain ⟨a, rfl, hrun⟩ := toArr_bind_eq_ok h
    obtain ⟨b, rfl, hab⟩ := hxy.exists_array
    cases hrun
    exact fun c' => ⟨_, _, rfl, alike_array.2 (alike_asList _ _ hab), fun _ => .refl _⟩
  | setFlags flags =>
    obtain ⟨a, rfl, hrun⟩ := toArr_bind_eq_ok h
    obtain ⟨b, rfl, hab⟩ := hxy.exists_array
    cases hrun
    exact fun c' => ⟨_, _, rfl, alike_array.2 (alike_setFlags hab flags), fun _ => .refl _⟩
  | pin =>
    obtain ⟨a, rfl, hrun⟩ := toArr_bind_eq_ok h
    obtain ⟨b, rfl, hab⟩ := hxy.exists_array
    cases hrun
    have hpin : Alike a.pin b.pin := (alike_pin a).trans (hab.trans (alike_pin b).symm)
    exact fun c' => ⟨_, _, rfl, alike_array.2 hpin, fun _ => .refl _⟩
  | makePrivate =>
    obtain ⟨a, rfl, hrun⟩ := toArr_bind_eq_ok h
    obtain ⟨b, rfl, hab⟩ := hxy.exists_array
    cases hrun
    exact fun c' => ⟨_, _, rfl, alike_array.2 (alike_makePrivate hab), fun hne => absurd rfl hne⟩
  | freeze =>
    cases h
    have hfreeze (c' : Scope) : Alike (x.freeze c) (y.freeze c') :=
      (alike_freeze c x).trans (hxy.trans (alike_freeze c' y).symm)
    exact fun c' => ⟨_, _, rfl, hfreeze c', fun _ => .refl _⟩
  | appendKey k =>
    cases x with
    | dict s d =>
      obtain ⟨t, e, rfl, hde⟩ := hxy.exists_dict
      cases h
      have hlen : d.len = e.len :=
        (alike_entries.1 hde).1.len_eq (wellFormed_dict.1 hx).2.1 (wellFormed_dict.1 hy).2.1
      refine fun c' => ⟨_, _, rfl, alike_dict.2 (alike_appendKey hde (.refl k)), fun _ => ?_⟩
      rw [hlen]
      exact .refl _
    | _ => cases h

end Changes

end SharedArrays
