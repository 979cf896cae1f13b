import SharedArrays.Proofs.Places
import SharedArrays.Proofs.Renaming.Sites

/-!
# Level by level, at other sites

An amend along a path, and an amend at its first component by the function that goes on along the
rest of the path, call the function at different sites. A function that makes new functions makes
them under other names. So along a path of single components the two have the same results for any
function at all, if what has been made is renamed.

## Main results

* `replaced_rename` — renaming what has been put at a place
* `amended_path_rename_flat` — an amend along a path is an amend with the rest of the path
-/

namespace SharedArrays

/-! ## Sites of calls -/

theorem covers_partSite (s : Site) (x : Value) : s.Covers (x.partSite s) := by
  cases x with
  | dict t d => exact (s.covers_sub 1).trans ((s.sub 1).covers_sub 1)
  | _ => exact s.covers_sub 1

/-- A call for a part is made below the site of the amend. -/
theorem covers_callSite (s : Site) (ps : List Nat) (x : Value) : s.Covers (x.callSite s ps) := by
  induction ps generalizing s x with
  | nil => exact s.covers_refl
  | cons p ps ih => exact (covers_partSite s x).trans (ih _ _)

/-! ## Renaming what has been put -/

section Rename

variable {ρ : Site → Site} {x x' v : Value}

theorem parts_rename (x : Value) : (rename ρ x).parts = rename ρ x.parts := by
  cases x with
  | array a => exact values_rename a
  | dict s d => exact values_rename d.vals
  | _ => rfl

theorem sameFrame_rename (h : x.SameFrame x') : (rename ρ x).SameFrame (rename ρ x') := by
  cases x with
  | dict s d =>
    cases x' with
    | dict t e => exact congrArg (rename ρ) (show d.keys = e.keys from h)
    | _ => cases h
  | array a => cases x' <;> trivial
  | _ => cases h

theorem replaced_rename {ps : List Nat} (h : v.Replaced ps x x') :
    (rename ρ v).Replaced ps (rename ρ x) (rename ρ x') := by
  induction ps generalizing x x' with
  | nil => exact congrArg (rename ρ) h
  | cons p ps ih =>
    obtain ⟨hframe, old, new, hold, hnew, hparts⟩ := h
    refine ⟨sameFrame_rename hframe, rename ρ old, rename ρ new, ?_, ih hnew, ?_⟩
    · rw [parts_rename, rename_list_eq_map, List.getElem?_map, hold]
      rfl
    · rw [parts_rename, parts_rename, hparts, rename_list_eq_map, rename_list_eq_map, List.map_set]

end Rename

/-! ## Two ways -/

section Ways

variable {settings : Settings} {x f head : Value} {z : Option Value} {ps : List Nat}

/-- What stands at a place is part of the value, so that it is free of a site if the value is. -/
theorem Site.Unused.arguments {s : Site} {old : Value} (h : s.Unused (x, f, z))
    (hold : x.follow? ps = some old) : s.Unused (f, old :: z.toList) := by
  simp only [everywhere_pair] at h
  obtain ⟨hx, hf, hz⟩ := h
  exact (everywhere_pair ..).2
    ⟨hf, (everywhere_cons ..).2 ⟨everywhere_of_follow? hx hold, everywhere_toList.2 hz⟩⟩

/-- An amend at a single component, by the function that goes on along the rest of the path. -/
theorem amended_descent {q old : Value} (s : Site) (name : String) (hx : WellFormed x)
    (hz : WellFormed z) (hfun : f.isFunction = true) (hrest : q.components ≠ [])
    (hlimit : q.components.length ≤ settings.pathLimit)
    (hpath : x.resolve? (head :: q.components) = some ps) (hold : x.follow? ps = some old)
    (c : Scope) :
    ∃ t, c.site.Covers t ∧
      ((∃ v w, f.apply settings t (old :: z.toList) = .ok v ∧
        x.amended settings .flat c head (.descent s name f q z.isSome) z = .ok w ∧
          v.Replaced ps x w) ∨
      ∃ e e', f.apply settings t (old :: z.toList) = .error e ∧
        x.amended settings .flat c head (.descent s name f q z.isSome) z = .error e') := by
  obtain ⟨p, u, qs, hchild, hu, hresolve, rfl⟩ := resolve?_cons_eq_some.1 hpath
  have hold : u.follow? qs = some old := by rwa [Value.follow?, hu] at hold
  obtain ⟨held, happly⟩ := apply_descent settings s name f q (x.partSite c.site) u z
  let inner : Scope := ⟨held, (x.partSite c.site).sub 3⟩
  refine ⟨u.callSite inner.site qs, ?_, ?_⟩
  · exact ((covers_partSite c.site x).trans (Site.covers_sub _ 3)).trans (covers_callSite _ qs u)
  -- The call of the outer amend is an amend of the part, at a site of its own.
  have houter := amend_child settings (real_ofValue settings (.descent s name f q z.isSome)) rfl c
    hx hz hchild hu
  have hcall : (Callee.ofValue settings (.descent s name f q z.isSome)).call (x.partSite c.site)
      (u :: z.toList) = u.amended settings .path inner q f z >>= Value.settle := happly
  rw [hcall, amended_path hlimit] at houter
  rw [amended_flat]
  have hcontainer := @isContainer_of_amendAlong settings (.ofValue settings f) q.components hrest
    inner u z
  rcases amendAlong_resolved settings (real_ofValue settings f) hfun
    (everywhere_of_parts hx hu) hz hresolve hold inner with
    ⟨v, u', hv, hu', hreplaced⟩ | ⟨e, u', he, hu'⟩
  · rw [hu'] at houter hcontainer
    have hsettle : u'.settle = .ok u' := settle_of_isContainer (hcontainer rfl).2
    rcases houter with ⟨w, x', hw, hx', hframe, old', new, hold', hnew, hparts⟩ | ⟨_, _, he, -⟩
    · cases hsettle.symm.trans hw
      cases hu.symm.trans hold'
      cases hnew
      rw [hx']
      exact .inl ⟨v, x', hv, rfl, hframe, u, u', hu, hreplaced, hparts⟩
    · cases hsettle.symm.trans he
  · rw [hu'] at houter
    rcases houter with ⟨_, _, hw, -⟩ | ⟨e', x', -, hx'⟩
    · cases hw
    · rw [hx']
      exact .inr ⟨e, _, he, rfl⟩

/-- An amend along a path of at least two single components is an amend at the first of them, by
the function that amends an element along the other components, for any function: the one goes
through if the other does, and then the values are equal up to a renaming of what has been made. -/
theorem amended_path_rename_flat (settings : Settings) (c c' : Scope) {path q : Value} (s : Site)
    (name : String) (hx : WellFormed x) (hz : WellFormed z) (hfun : f.isFunction = true)
    (hcomponents : path.components = head :: q.components) (hrest : q.components ≠ [])
    (hlimit : path.components.length ≤ settings.pathLimit)
    (hpath : x.resolve? path.components = some ps) (hapart : c.site.Apart c'.site)
    (hunused : c.site.Unused (x, f, z)) (hunused' : c'.site.Unused (x, f, z)) :
    let deep := x.amended settings .path c path f z
    let flat := x.amended settings .flat c' head (Value.descent s name f q z.isSome) z
    ((∃ v, deep = .ok v) ↔ ∃ w, flat = .ok w) ∧
      ∃ ρ : Site → Site, Function.Injective ρ ∧ rename ρ x = x ∧
        ∀ v w, deep = .ok v → flat = .ok w → (rename ρ v).eqv w = true := by
  intro deep flat
  obtain ⟨old, hold⟩ := exists_follow?_of_resolve? hpath
  have hshorter : q.components.length ≤ settings.pathLimit := by
    rw [hcomponents, List.length_cons] at hlimit
    omega
  have hdeep := amendAlong_resolved settings (real_ofValue settings f) hfun hx hz hpath hold c
  obtain ⟨t', ht', hflat⟩ := amended_descent s name hx hz hfun hrest hshorter
    (hcomponents ▸ hpath) hold c'
  let t := x.callSite c.site ps
  have ht : c.site.Covers t := covers_callSite c.site ps x
  have htt' : t.Apart t' := hapart.of_covers ht ht'
  have hcall : f.apply settings t' (old :: z.toList) =
      rename (t.exchange t') (f.apply settings t (old :: z.toList)) :=
    apply_exchange htt' settings ((hunused.arguments hold).of_covers ht)
      ((hunused'.arguments hold).of_covers ht')
  have hx₁ : c.site.Unused x := ((everywhere_pair ..).1 hunused).1
  have hx₂ : c'.site.Unused x := ((everywhere_pair ..).1 hunused').1
  have hkeep : rename (t.exchange t') x = x :=
    rename_exchange (hx₁.of_covers ht) (hx₂.of_covers ht')
  have hinj := Site.exchange_injective htt'
  rw [show deep = _ from amended_path hlimit c x f z]
  rw [hcall] at hflat
  rcases hdeep with ⟨a, v, ha, hv, hreplaced⟩ | ⟨e, v, he, hv⟩
  · have ha : f.apply settings t (old :: z.toList) = .ok a := ha
    rw [ha] at hflat
    rcases hflat with ⟨b, w, hb, hw, hreplaced'⟩ | ⟨_, _, hb, -⟩
    · cases hb
      rw [show flat = _ from hw, hv]
      refine ⟨⟨fun _ => ⟨w, rfl⟩, fun _ => ⟨v, rfl⟩⟩, t.exchange t', hinj, hkeep, ?_⟩
      rintro _ _ ⟨⟩ ⟨⟩
      have hleft := (replaced_rename (ρ := t.exchange t') hreplaced).eqv
      rw [hkeep] at hleft
      exact eqv_trans (eqv_symm hleft) hreplaced'.eqv
    · cases hb
  · have he : f.apply settings t (old :: z.toList) = .error e := he
    rw [he] at hflat
    rcases hflat with ⟨_, _, hb, -⟩ | ⟨_, e', -, hw⟩
    · cases hb
    · rw [show flat = _ from hw, hv]
      exact ⟨⟨nofun, nofun⟩, t.exchange t', hinj, hkeep, nofun⟩

end Ways

end SharedArrays
