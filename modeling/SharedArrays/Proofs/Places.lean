import SharedArrays.Proofs.Equality
import SharedArrays.Proofs.Descent
import SharedArrays.Proofs.Fold

/-!
# Amends at one place

A path of single indices and keys leads to one place of a nested value. An amend along it calls the
function once, with what stands at the place, and puts the answer there. All parts of the value that
do not lie on the way to the place stay the same, whatever is copied, widened or moved to canonical
storage. This holds for any function: at which site it is called depends on the place, and on
nothing else.

## Main definitions

* `Value.resolve?` — the place to which a path leads, as a list of positions
* `Value.follow?` — what stands at a place
* `Value.callSite` — the site of the call for what stands at a place
* `Value.putAt` — the value with something else at a place
* `Value.Replaced` — the same up to storage, where the other parts stay the same

## Main results

* `putAt_comm` — putting at independent places commutes
* `amendAlong_resolved` — an amend along a resolved path replaces what stands at the place
-/

namespace SharedArrays

/-! ## Places -/

namespace Value

/-- The position at which a single component of a path enters a container: an index in the range
of an array, or a key that a dictionary has. Nil and arrays stand for several positions. -/
def child? : Value → Value → Option Nat
  | array a, int i => if 0 ≤ i.toInt ∧ i.toInt < a.len then some i.toInt.toNat else none
  | dict .., nil => none
  | dict .., array _ => none
  | dict _ d, y => d.find? y
  | _, _ => none

/-- The elements of an array, or the values of a dictionary. -/
def parts : Value → List Value
  | array a => a.values
  | dict _ d => d.vals.values
  | _ => []

/-- The place to which a path of single components leads. -/
def resolve? (x : Value) : List Value → Option (List Nat)
  | [] => some []
  | y :: rest =>
    (x.child? y).bind fun p => x.parts[p]?.bind fun v => (v.resolve? rest).map (p :: ·)

/-- What stands at a place. -/
def follow? (x : Value) : List Nat → Option Value
  | [] => some x
  | p :: ps => x.parts[p]?.bind (·.follow? ps)

/-- A container with other elements or values. -/
def withParts (vs : List Value) : Value → Value
  | array _ => array (.list (.ofList ⟨[]⟩ vs))
  | dict s d => dict s ⟨d.keys, .list (.ofList ⟨[]⟩ vs)⟩
  | x => x

/-- The value with `v` at a place. -/
def putAt (v : Value) : List Nat → Value → Value
  | [], _ => v
  | p :: ps, x => x.withParts (x.parts.modify p (v.putAt ps))

/-- Two arrays, or two dictionaries with the same keys. -/
def SameFrame : Value → Value → Prop
  | array _, array _ => True
  | dict _ d, dict _ e => d.keys = e.keys
  | _, _ => False

/-- The second value is the first one with `v` at a place: the parts that do not lie on the way to
the place are the same. -/
def Replaced (v : Value) : List Nat → Value → Value → Prop
  | [], _, x' => v = x'
  | p :: ps, x, x' =>
    x.SameFrame x' ∧ ∃ old new, x.parts[p]? = some old ∧ v.Replaced ps old new ∧
      x'.parts = x.parts.set p new

/-- The site at which an amend at `s` works on a single part. -/
def partSite (s : Site) : Value → Site
  | dict .. => (s.sub 1).sub 1
  | _ => s.sub 1

/-- The site at which an amend at `s` calls its function for what stands at a place. -/
def callSite (s : Site) : List Nat → Value → Site
  | [], _ => s
  | p :: ps, x => callSite (x.partSite s) ps (x.parts[p]?.getD .nil)

end Value

/-! ## Putting -/

section PutAt

variable {x y v w : Value}

theorem pointwise_parts (h : x.eqv y = true) :
    Pointwise (fun u v => u.eqv v = true) x.parts y.parts := by
  cases x with
  | array a =>
    cases y with
    | array b => exact Arr.eqv_iff.1 h
    | _ => cases h
  | dict s d =>
    cases y with
    | dict t e => exact Arr.eqv_iff.1 (dictEqv_iff.1 h).2
    | _ => cases h
  | _ => cases y <;> first | exact pointwise_of_forall nofun | cases h

theorem listEqv_of_pointwise {us vs : List Value}
    (h : Pointwise (fun u v => u.eqv v = true) us vs) :
    (Arr.list (.ofList ⟨[]⟩ us)).eqv (.list (.ofList ⟨[]⟩ vs)) = true := by
  refine Arr.eqv_iff.2 ?_
  simpa only [Arr.values, Window.items_ofList] using h

theorem eqv_withParts (h : x.eqv y = true) {us vs : List Value}
    (hparts : Pointwise (fun u v => u.eqv v = true) us vs) :
    (x.withParts us).eqv (y.withParts vs) = true := by
  cases x with
  | array a =>
    cases y with
    | array b => exact listEqv_of_pointwise hparts
    | _ => cases h
  | dict s d =>
    cases y with
    | dict t e => exact dictEqv_iff.2 ⟨(dictEqv_iff.1 h).1, listEqv_of_pointwise hparts⟩
    | _ => cases h
  | _ => cases y <;> exact h

theorem Pointwise.modify {α : Type} {R : α → α → Prop} {us vs : List α} (h : Pointwise R us vs)
    {f g : α → α} (hfg : ∀ u v, R u v → R (f u) (g v)) (p : Nat) :
    Pointwise R (us.modify p f) (vs.modify p g) := by
  refine ⟨by rw [List.length_modify, List.length_modify, h.1], fun i u v hu hv => ?_⟩
  rw [List.getElem?_modify] at hu hv
  obtain ⟨u', hu', rfl⟩ := Option.map_eq_some_iff.1 hu
  obtain ⟨v', hv', rfl⟩ := Option.map_eq_some_iff.1 hv
  have huv : R u' v' := h.2 i u' v' hu' hv'
  by_cases hp : p = i
  · rw [if_pos hp, if_pos hp]
    exact hfg u' v' huv
  · rw [if_neg hp, if_neg hp]
    exact huv

/-- Equal values, with equal ones put at one place, are equal. -/
theorem putAt_congr (hv : v.eqv w = true) (ps : List Nat) (hx : x.eqv y = true) :
    (v.putAt ps x).eqv (w.putAt ps y) = true := by
  induction ps generalizing x y with
  | nil => exact hv
  | cons p ps ih =>
    exact eqv_withParts hx ((pointwise_parts hx).modify (fun _ _ h => ih h) p)

theorem withParts_withParts (us vs : List Value) (x : Value) :
    (x.withParts us).withParts vs = x.withParts vs := by
  cases x <;> rfl

theorem parts_withParts (hx : x.isContainer = true) (us : List Value) :
    (x.withParts us).parts = us := by
  cases x with
  | array a => exact Window.items_ofList ..
  | dict s d => exact Window.items_ofList ..
  | _ => cases hx

theorem putAt_of_not_container (hx : x.isContainer = false) (v : Value) (p : Nat)
    (ps : List Nat) : v.putAt (p :: ps) x = x := by
  cases x <;> first | rfl | cases hx

/-- What is put at two places of which neither lies inside the other can be put in either
order. -/
theorem putAt_comm (v w : Value) {ps qs : List Nat} (hps : ¬ps <+: qs) (hqs : ¬qs <+: ps)
    (x : Value) : w.putAt qs (v.putAt ps x) = v.putAt ps (w.putAt qs x) := by
  induction ps generalizing qs x with
  | nil => exact absurd List.nil_prefix hps
  | cons p ps ih =>
    cases qs with
    | nil => exact absurd List.nil_prefix hqs
    | cons q qs =>
      by_cases hx : x.isContainer = true
      · simp only [Value.putAt, withParts_withParts, parts_withParts hx]
        congr 1
        by_cases hpq : p = q
        · -- The places part further inside, in what stands at the position they share.
          subst hpq
          have hps : ¬ps <+: qs := fun h => hps (List.cons_prefix_cons.2 ⟨rfl, h⟩)
          have hqs : ¬qs <+: ps := fun h => hqs (List.cons_prefix_cons.2 ⟨rfl, h⟩)
          rw [List.modify_modify_eq, List.modify_modify_eq]
          exact congrArg (List.modify x.parts p) (funext fun u => ih hps hqs u)
        · exact List.modify_modify_ne _ _ _ hpq
      · have hx : x.isContainer = false := Bool.eq_false_iff.2 hx
        rw [putAt_of_not_container hx, putAt_of_not_container hx, putAt_of_not_container hx]

end PutAt
/-! ## Replacing -/

section Replaced

variable {x x' v : Value}

theorem Value.SameFrame.eqv (h : x.SameFrame x') {us : List Value}
    (hparts : Pointwise (fun u v => u.eqv v = true) us x'.parts) :
    (x.withParts us).eqv x' = true := by
  have hlist : (Arr.list (.ofList ⟨[]⟩ us)).values = us := Window.items_ofList ..
  cases x with
  | array a =>
    cases x' with
    | array b => exact Arr.eqv_iff.2 (hlist.symm ▸ hparts)
    | _ => cases h
  | dict s d =>
    cases x' with
    | dict t e =>
      have hkeys : d.keys = e.keys := h
      exact dictEqv_iff.2 ⟨hkeys ▸ arrEqv_of_values (.refl _), Arr.eqv_iff.2 (hlist.symm ▸ hparts)⟩
    | _ => cases h
  | _ => cases h

/-- Up to storage, replacing is putting. -/
theorem Value.Replaced.eqv {ps : List Nat} (h : v.Replaced ps x x') :
    (v.putAt ps x).eqv x' = true := by
  induction ps generalizing x x' with
  | nil =>
    cases h
    exact eqv_refl _
  | cons p ps ih =>
    obtain ⟨hframe, old, new, hold, hnew, hparts⟩ := h
    refine hframe.eqv ?_
    have hget := List.getElem?_set_self (a := v.putAt ps old) (List.getElem?_eq_some_iff.1 hold).1
    have hset := pointwise_set (R := fun u v => u.eqv v = true) eqv_refl hget (ih hnew)
    rwa [List.set_set, ← modify_eq_set_of_getElem? hold, ← hparts] at hset

theorem Value.SameFrame.partSite_eq (h : x.SameFrame x') (s : Site) :
    x'.partSite s = x.partSite s := by
  cases x <;> cases x' <;> first | rfl | cases h

/-- Where a component of a path leads depends on the frame, and on the number of parts. -/
theorem Value.SameFrame.child?_eq (h : x.SameFrame x')
    (hlen : x.parts.length = x'.parts.length) (hx : WellFormed x) (hx' : WellFormed x')
    (y : Value) : x.child? y = x'.child? y := by
  cases x with
  | array a =>
    cases x' with
    | array b =>
      have hlen : a.len = b.len := by
        rw [← WellFormed.length_values hx, ← WellFormed.length_values hx']
        exact hlen
      cases y with
      | int i => simp only [Value.child?, hlen]
      | _ => rfl
    | _ => cases h
  | dict s d =>
    cases x' with
    | dict t e =>
      have hkeys : d.keys = e.keys := h
      have hfind : d.find? y = e.find? y := congrArg (·.find? y) hkeys
      cases y <;> first | rfl | exact hfind
    | _ => cases h
  | _ => cases h

theorem resolve?_cons_eq_some {k : Value} {rest : List Value} {ps : List Nat} :
    x.resolve? (k :: rest) = some ps ↔ ∃ p u qs, x.child? k = some p ∧ x.parts[p]? = some u ∧
      u.resolve? rest = some qs ∧ ps = p :: qs := by
  simp only [Value.resolve?, Option.bind_eq_some_iff, Option.map_eq_some_iff]
  constructor
  · rintro ⟨p, hp, u, hu, qs, hqs, rfl⟩
    exact ⟨p, u, qs, hp, hu, hqs, rfl⟩
  · rintro ⟨p, u, qs, hp, hu, hqs, rfl⟩
    exact ⟨p, hp, u, hu, qs, hqs, rfl⟩

theorem everywhere_of_parts {P : Value → Prop} (hx : Everywhere P x) {p : Nat} {u : Value}
    (hu : x.parts[p]? = some u) : Everywhere P u := by
  cases x with
  | array a => exact everywhere_of_at? ((everywhere_array a).1 hx) hu
  | dict s d => exact everywhere_of_at? ((everywhere_dict s d).1 hx).2.2 hu
  | _ => cases hu

/-- Replacing what stands at one place keeps where a path leads whose place is independent of it,
and what stands there, and the site of the call for it. -/
theorem Value.Replaced.resolve? {ps qs : List Nat} (h : v.Replaced ps x x') (hx : WellFormed x)
    (hx' : WellFormed x') (hps : ¬ps <+: qs) (hqs : ¬qs <+: ps) {path : List Value}
    (hpath : x.resolve? path = some qs) (s : Site) :
    x'.resolve? path = some qs ∧ x'.follow? qs = x.follow? qs ∧
      callSite s qs x' = callSite s qs x := by
  induction ps generalizing x x' qs path s with
  | nil => exact absurd List.nil_prefix hps
  | cons p ps ih =>
    obtain ⟨hframe, old, new, hold, hnew, hparts⟩ := h
    cases path with
    | nil =>
      cases hpath
      exact absurd List.nil_prefix hqs
    | cons k rest =>
      obtain ⟨q, u, qs', hchild, hu, hrest, rfl⟩ := resolve?_cons_eq_some.1 hpath
      have hlen : x.parts.length = x'.parts.length := by rw [hparts, List.length_set]
      have hchild' : x'.child? k = some q := by
        rw [← hframe.child?_eq hlen hx hx', hchild]
      simp only [Value.follow?, Value.callSite, hu, Option.bind_some, Option.getD_some,
        hframe.partSite_eq]
      -- The path enters the part that was changed, or one that stayed as it was.
      by_cases hpq : p = q
      · subst hpq
        cases hold.symm.trans hu
        have hget : x'.parts[p]? = some new := by
          rw [hparts]
          exact List.getElem?_set_self (List.getElem?_eq_some_iff.1 hold).1
        have hps : ¬ps <+: qs' := fun h => hps (List.cons_prefix_cons.2 ⟨rfl, h⟩)
        have hqs : ¬qs' <+: ps := fun h => hqs (List.cons_prefix_cons.2 ⟨rfl, h⟩)
        obtain ⟨hresolve, hfollow, hsite⟩ :=
          ih hnew (everywhere_of_parts hx hu) (everywhere_of_parts hx' hget) hps hqs hrest
            (x.partSite s)
        rw [hget]
        exact ⟨resolve?_cons_eq_some.2 ⟨p, new, qs', hchild', hget, hresolve, rfl⟩, hfollow, hsite⟩
      · have hget : x'.parts[q]? = some u := by rw [hparts, List.getElem?_set_ne hpq, hu]
        rw [hget]
        exact ⟨resolve?_cons_eq_some.2 ⟨q, u, qs', hchild', hget, hrest, rfl⟩, rfl, rfl⟩

end Replaced

/-! ## One level of an amend -/

section Level

variable {settings : Settings} {f : Callee} {x old : Value} {y : Value} {p : Nat}
  {z : Option Value}

variable (settings) in
/-- An amend at one position replaces the element by the answer of the function, or fails with
it. -/
theorem amendAt_one (hf : f.Real) (hfun : f.value.isFunction = true) (c : Scope) {a : Arr Value}
    (ha : WellFormed a) (hz : WellFormed z) (hold : a.at? p = some old) :
    (∃ v b, f.call (c.site.sub 1) (old :: z.toList) = .ok v ∧
        a.amendAt settings c (.one p) f z = .done b ∧ b.values = a.values.set p v) ∨
      ∃ e b, f.call (c.site.sub 1) (old :: z.toList) = .error e ∧
        a.amendAt settings c (.one p) f z = .failed b e := by
  have hlt : p < a.len := ha.length_values ▸ (List.getElem?_eq_some_iff.1 hold).1
  have hoperands : f.operands z (.one p) = .ok (z.elim .absent .whole) := if_pos hfun
  have hoperand : ((z.elim .absent .whole : Operands).at? 0).toList = z.toList := by
    cases z <;> rfl
  have hamend : a.amendAt settings c (.one p) f z =
      a.revise (c.sub 0) (Arr.steps c f (z.elim .absent .whole) (.one p)) := by
    rw [amendAt_eq_revise settings hf ha hz (by simpa [Selection.positions] using hlt), hoperands]
  rw [hamend]
  simp only [Arr.steps, Selection.positions, List.zipIdx_cons, List.zipIdx_nil, List.map_cons,
    List.map_nil, Arr.revise, Arr.runSteps, hold, hoperand]
  cases f.call (c.site.sub (0 + 1)) (old :: z.toList) with
  | error e => exact .inr ⟨e, _, rfl, rfl⟩
  | ok v =>
    refine .inl ⟨v, _, rfl, rfl, ?_⟩
    -- What has been written is not pinned, so canonical storage freezes nothing.
    have hpinned : (a.put (c.sub 0) p v).flags.pinned = false := by rw [Arr.flags_put]
    exact (values_canonical_of_not_pinned hpinned _).trans (Arr.values_put ..)

theorem exists_of_arrayChild? {a : Arr Value} (h : (Value.array a).child? y = some p) :
    ∃ i, y = .int i ∧ Selection.ofIndex a.len (.int i) = .ok (.one p) := by
  cases y with
  | int i =>
    refine ⟨i, rfl, ?_⟩
    obtain ⟨hrange, hp⟩ := (Option.ite_none_right_eq_some ..).1 h
    rw [Selection.ofIndex, position, if_pos hrange, Option.some.inj hp]
    rfl
  | _ => cases h

theorem placement_of_dictChild? (settings : Settings) {s : Site} {d : Dict Value}
    (h : (Value.dict s d).child? y = some p) : d.placement settings y = ⟨.one p, []⟩ := by
  have hone (hfind : d.find? y = some p) : d.placeOne y = ⟨.one p, []⟩ := by
    rw [Dict.placeOne, hfind]
  cases y <;> first | cases h | exact hone h

variable (settings) in
/-- The same for the last component of a path, if it is an index or a key of the container. -/
theorem amend_child (hf : f.Real) (hfun : f.value.isFunction = true) (c : Scope)
    (hx : WellFormed x) (hz : WellFormed z) (hchild : x.child? y = some p)
    (hold : x.parts[p]? = some old) :
    (∃ v x', f.call (x.partSite c.site) (old :: z.toList) = .ok v ∧
        x.amend settings c y f z = .done x' ∧ v.Replaced [p] x x') ∨
      ∃ e x', f.call (x.partSite c.site) (old :: z.toList) = .error e ∧
        x.amend settings c y f z = .failed x' e := by
  cases x with
  | array a =>
    obtain ⟨i, rfl, hsel⟩ := exists_of_arrayChild? hchild
    have ha : WellFormed a := (everywhere_array a).1 hx
    have hamend : (Value.array a).amend settings c (.int i) f z =
        (a.amendAt settings c (.one p) f z).map .array := by
      show (amendFn settings f (.int i) c a z).map Value.array = _
      have hindex : ∀ w, Value.int i ≠ .array (.list w) := fun w h => by cases h
      rw [amendFn_of_not_list settings f hindex, amendAtIndex, hsel]
    rw [hamend]
    rcases amendAt_one settings hf hfun c ha hz hold with ⟨v, b, hv, hb, hvalues⟩ | ⟨e, b, he, hb⟩
    · exact .inl ⟨v, .array b, hv, by rw [hb]; rfl, trivial, old, v, hold, rfl, hvalues⟩
    · exact .inr ⟨e, .array b, he, by rw [hb]; rfl⟩
  | dict t d =>
    have hplan := placement_of_dictChild? settings hchild
    have hvals := (wellFormed_dict.1 hx).2.2
    have hamend : (Value.dict t d).amend settings c y f z =
        ((d.vals.amendAt settings ((c.sub 1).beside [.array d.keys]) (.one p) f z).map
          fun vals => .dict (c.own t) ⟨d.keys, vals⟩) := by
      have hoperands : f.operands z (.one p) = .ok (z.elim .absent .whole) := if_pos hfun
      simp only [Value.amend, Dict.amend, hplan, hoperands]
      rfl
    rw [hamend]
    rcases amendAt_one settings hf hfun ((c.sub 1).beside [.array d.keys]) hvals hz hold with
      ⟨v, b, hv, hb, hvalues⟩ | ⟨e, b, he, hb⟩
    · exact .inl ⟨v, .dict (c.own t) ⟨d.keys, b⟩, hv, by rw [hb]; rfl, rfl, old, v, hold, rfl,
        hvalues⟩
    · exact .inr ⟨e, .dict (c.own t) ⟨d.keys, b⟩, he, by rw [hb]; rfl⟩
  | _ => cases hold

/-- Amending one element of an array that is a container: the element is amended, and nothing else
changes. -/
theorem arrAmendElements_one (update : ValueUpdate) (operands : Operands) (c : Scope)
    {a : Arr Value} (hold : a.at? p = some old) (hcontainer : old.isContainer = true) :
    ∃ c' b, c'.site = c.site.sub 1 ∧ a.amendElements update operands c [p] =
        ⟨b, (update c' old (operands.at? 0)).failure⟩ ∧
      b.values = a.values.set p (update c' old (operands.at? 0)).slot := by
  have hslot : a.slotAt c.site p = old := by rw [Arr.slotAt, hold]; rfl
  -- Containers are stored in lists only.
  have hkind : a.kind = .list := kind_of_isContainer (hslot ▸ hcontainer)
  cases a with
  | list w =>
    have hitem : (w.makePrivate (c.sub 0)).items[p]? = some old := by
      rw [Window.items_makePrivate]
      exact hold
    simp only [Arr.amendElements, amendElements, hitem]
    generalize hc' : (c.sub (0 + 1)).beside _ = c'
    have hvalues (u : Value) : (Arr.list { w.makePrivate (c.sub 0) with
        buf := (w.makePrivate (c.sub 0)).buf.set ((w.makePrivate (c.sub 0)).off + p) u }).values =
          (Arr.list w).values.set p u := by
      simp only [Arr.values, Window.items, stretch_set]
      congr 1
      exact w.items_makePrivate _
    refine ⟨c', _, hc' ▸ rfl, ?_, hvalues _⟩
    generalize update c' old (operands.at? 0) = o
    obtain ⟨slot, failure⟩ := o
    cases failure <;> rfl
  | _ => cases hkind

/-- A component of a path that is followed by others enters a container below. -/
theorem isContainer_of_resolve? {u next : Value} {rest : List Value} {ps : List Nat}
    (h : u.resolve? (next :: rest) = some ps) : u.isContainer = true := by
  obtain ⟨q, v, -, -, hv, -⟩ := resolve?_cons_eq_some.1 h
  cases u <;> first | rfl | cases hv

variable (settings z) in
/-- A level of a path at a single component amends the element along the rest of the path. -/
theorem amendAlong_child (hfun : f.value.isFunction = true) (c : Scope)
    (hchild : x.child? y = some p) (hold : x.parts[p]? = some old)
    (hcontainer : old.isContainer = true) (next : Value) (rest : List Value) :
    ∃ c' x', c'.site = x.partSite c.site ∧ Value.amendAlong settings f (y :: next :: rest) c x z =
        ⟨x', (Value.amendAlong settings f (next :: rest) c' old z).failure⟩ ∧
      x.SameFrame x' ∧
      x'.parts = x.parts.set p (Value.amendAlong settings f (next :: rest) c' old z).slot := by
  have hoperands : f.operands z (.one p) = .ok (z.elim .absent .whole) := if_pos hfun
  have hoperand : (z.elim .absent .whole : Operands).at? 0 = z := by cases z <;> rfl
  -- The one element on the way is a container, so that the level opens.
  have hopen {s : Site} {a : Arr Value} (hold : a.at? p = some old) :
      a.ensureContainers s [p] = .ok () := by
    refine (ensureContainers_eq_ok (List.cons_ne_nil p [])).2 fun q hq => ?_
    rw [List.mem_singleton.1 hq, Arr.slotAt, hold]
    exact hcontainer
  cases x with
  | array a =>
    obtain ⟨i, rfl, hsel⟩ := exists_of_arrayChild? hchild
    have hlevel : a.openLevel c.site (.int i) f z = .ok (.one p, z.elim .absent .whole) :=
      Arr.openLevel_eq_ok.2 ⟨hsel, hoperands, fun _ => hopen hold⟩
    obtain ⟨c', b, hc', hb, hvalues⟩ :=
      arrAmendElements_one (Value.amendAlong settings f (next :: rest)) (z.elim .absent .whole) c
        hold hcontainer
    rw [hoperand] at hb hvalues
    refine ⟨c', .array b, hc', ?_, trivial, hvalues⟩
    simp only [Value.amendAlong, hlevel, Selection.positions, List.isEmpty_cons,
      Bool.false_eq_true, if_false, hb]
    rfl
  | dict s d =>
    have hplan := placement_of_dictChild? settings hchild
    have hlevel : d.openLevel c.site ⟨.one p, []⟩ f z = .ok (z.elim .absent .whole) :=
      Dict.openLevel_eq_ok.2 ⟨hoperands, fun _ => hopen hold⟩
    obtain ⟨c', b, hc', hb, hvalues⟩ :=
      arrAmendElements_one (Value.amendAlong settings f (next :: rest)) (z.elim .absent .whole)
        ((c.sub 1).beside [.array d.keys]) hold hcontainer
    rw [hoperand] at hb hvalues
    refine ⟨c', .dict (c.own s) ⟨d.keys, b⟩, hc', ?_, rfl, hvalues⟩
    have hsame : d.appendKeys (c.sub 0) [] = d := rfl
    simp only [Value.amendAlong, hplan, hlevel, Selection.positions, List.isEmpty_cons,
      Bool.false_eq_true, if_false, hsame, hb]
    rfl
  | _ => cases hold

end Level

/-! ## Whole paths -/

section Path

variable {settings : Settings} {f : Callee} {z : Option Value}

theorem everywhere_of_follow? {P : Value → Prop} {x old : Value} {ps : List Nat}
    (hx : Everywhere P x) (hold : x.follow? ps = some old) : Everywhere P old := by
  induction ps generalizing x with
  | nil => exact Option.some.inj hold ▸ hx
  | cons p ps ih =>
    obtain ⟨u, hu, hrest⟩ := Option.bind_eq_some_iff.1 hold
    exact ih (everywhere_of_parts hx hu) hrest

variable (settings) in
/-- An amend along a path of single components replaces what stands at its place by the answer of
the function, or fails with the function. -/
theorem amendAlong_resolved (hf : f.Real) (hfun : f.value.isFunction = true)
    {path : List Value} {ps : List Nat} {x old : Value} (hx : WellFormed x) (hz : WellFormed z)
    (hpath : x.resolve? path = some ps) (hold : x.follow? ps = some old) (c : Scope) :
    (∃ v x', f.call (x.callSite c.site ps) (old :: z.toList) = .ok v ∧
        Value.amendAlong settings f path c x z = .done x' ∧ v.Replaced ps x x') ∨
      ∃ e x', f.call (x.callSite c.site ps) (old :: z.toList) = .error e ∧
        Value.amendAlong settings f path c x z = .failed x' e := by
  -- The last component amends one position; every component before it passes the amend on.
  induction path generalizing x ps c with
  | nil =>
    cases hpath
    cases hold
    simp only [Value.amendAlong, Value.callSite]
    cases f.call c.site (old :: z.toList) with
    | ok v => exact .inl ⟨v, v, rfl, rfl, rfl⟩
    | error e => exact .inr ⟨e, old, rfl, rfl⟩
  | cons y rest ih =>
    obtain ⟨p, u, qs, hchild, hu, hrest, rfl⟩ := resolve?_cons_eq_some.1 hpath
    have hold : u.follow? qs = some old := by rwa [Value.follow?, hu] at hold
    have hsite : x.callSite c.site (p :: qs) = u.callSite (x.partSite c.site) qs := by
      rw [Value.callSite, hu, Option.getD_some]
    rw [hsite]
    cases rest with
    | nil =>
      cases hrest
      cases hold
      exact amend_child settings hf hfun c hx hz hchild hu
    | cons next rest =>
      obtain ⟨c', x', hc', hx', hframe, hparts⟩ := amendAlong_child settings z hfun c hchild hu
        (isContainer_of_resolve? hrest) next rest
      rw [← hc']
      rcases ih (everywhere_of_parts hx hu) hrest hold c' with
        ⟨v, u', hv, hu', hreplaced⟩ | ⟨e, u', he, hu'⟩
      · rw [hu'] at hx' hparts
        exact .inl ⟨v, x', hv, hx', hframe, u, u', hu, hreplaced, hparts⟩
      · rw [hu'] at hx'
        exact .inr ⟨e, x', he, hx'⟩

/-- A path that resolves leads to something. -/
theorem exists_follow?_of_resolve? {x : Value} {path : List Value} {ps : List Nat}
    (h : x.resolve? path = some ps) : ∃ old, x.follow? ps = some old := by
  induction path generalizing x ps with
  | nil =>
    cases h
    exact ⟨x, rfl⟩
  | cons y rest ih =>
    obtain ⟨p, u, qs, -, hu, hrest, rfl⟩ := resolve?_cons_eq_some.1 h
    obtain ⟨old, hold⟩ := ih hrest
    exact ⟨old, by rw [Value.follow?, hu, Option.bind_some, hold]⟩

end Path

end SharedArrays
