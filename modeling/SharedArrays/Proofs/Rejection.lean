import SharedArrays.Proofs.Keys

/-!
# What a rejected update leaves

An update that is rejected before its function is called leaves its slot as it was, but for one
thing. A path that leads through a dictionary appends a missing key as soon as it goes on below
it, and the key stays if the path is rejected further down. This file says what an update leaves
that never calls its function: equal values, and at most such keys.

An update calls its function just if it ends with the failure of a function of which every call
fails. So it is enough to look at functions of that kind.

## Main definitions

* `Value.CallsNothing` — an amend that makes no call of its function
* `Value.Padded` — a value whose dictionaries have gained entries behind their own
* `KeysPresent` — a path that goes on below no missing key

## Main results

* `endsOr_amend` — an amend of one container
* `endsOr_amendAlong` — an amend along a path
* `slot_of_callsNothing` — what an amend leaves that never calls its function
-/

namespace SharedArrays

/-- A function value of which every call fails with `e`. -/
def Callee.failing (f : Value) (e : Failure Value) : Callee := ⟨f, fun _ _ => .error e⟩

theorem safe_failing (f : Value) {e : Failure Value} (he : WellFormed e) :
    (Callee.failing f e).Safe := fun _ _ _ => he

/-- The update ends with `e`, or what it leaves satisfies `Q`. -/
def Outcome.EndsOr {α : Type} (e : Failure Value) (Q : α → Prop) (o : Outcome α) : Prop :=
  o.failure = some e ∨ Q o.slot

theorem Outcome.EndsOr.map {α β : Type} {e : Failure Value} {Q : α → Prop} {R : β → Prop}
    {o : Outcome α} (h : o.EndsOr e Q) {g : α → β} (hg : Q o.slot → R (g o.slot)) :
    (o.map g).EndsOr e R :=
  h.imp_right hg

section Flat

variable {settings : Settings} (hslow : settings.typedLoops = false) {f : Value}
  {e : Failure Value}
include hslow

/-- An amend that gets to an element calls its function. -/
theorem failure_amendAt_failing {c : Scope} {a : Arr Value} {sel : Selection} {z : Option Value}
    {operands : Operands} (hop : (Callee.failing f e).operands z sel = .ok operands) {p : Nat}
    {ps : List Nat} (hsel : sel.positions = p :: ps) {old : Value} (hold : a.at? p = some old) :
    (a.amendAt settings c sel (.failing f e) z).failure = some e := by
  simp only [Arr.amendAt, hop, hslow, Bool.false_eq_true, if_false, Arr.revise,
    Outcome.failure_map, Arr.steps, hsel, List.zipIdx_cons, List.map_cons, Arr.runSteps, hold]
  rfl

theorem endsOr_amendAt (c : Scope) (a : Arr Value) (sel : Selection) (z : Option Value) :
    (a.amendAt settings c sel (.failing f e) z).EndsOr e fun b => Alike b.values a.values := by
  cases hop : (Callee.failing f e).operands z sel with
  | error e' =>
    simp only [Arr.amendAt, hop]
    exact .inr (.refl _)
  | ok operands =>
    -- With no position, or one that the array lacks, there is no call, and nothing is written.
    cases hsel : sel.positions with
    | nil =>
      simp only [Arr.amendAt, hop, hslow, Bool.false_eq_true, if_false, Arr.revise, Arr.steps,
        hsel]
      exact .inr (alike_values_canonical _ a)
    | cons p ps =>
      cases hold : a.at? p with
      | some old => exact .inl (failure_amendAt_failing hslow hop hsel hold)
      | none =>
        simp only [Arr.amendAt, hop, hslow, Bool.false_eq_true, if_false, Arr.revise, Arr.steps,
          hsel, List.zipIdx_cons, List.map_cons, Arr.runSteps, hold]
        exact .inr (alike_values_canonical _ a)

theorem endsOr_amendAtIndex (y : Value) (c : Scope) (a : Arr Value) (z : Option Value) :
    (amendAtIndex settings (.failing f e) y c a z).EndsOr e fun b =>
      Alike b.values a.values := by
  unfold amendAtIndex
  split
  · exact .inr (.refl _)
  · exact endsOr_amendAt hslow c a _ z

omit hslow in
/-- Each amend in turn leaves the elements that the one before it left. -/
theorem endsOr_amendInTurn {us : List ArrUpdate} (hus : ∀ u ∈ us, ∀ c a z,
      Outcome.EndsOr e (fun b : Arr Value => Alike b.values a.values) (u c a z))
    (operands : Operands) (c : Scope) (k : Nat) (a : Arr Value) :
    (amendInTurn operands c k us a).EndsOr e fun b => Alike b.values a.values := by
  induction us generalizing k a with
  | nil => exact .inr (.refl _)
  | cons u us ih =>
    obtain ⟨hu, hus⟩ := List.forall_mem_cons.1 hus
    have hfirst := hu (c.sub k) a (operands.at? k)
    rw [amendInTurn]
    generalize u (c.sub k) a (operands.at? k) = o at hfirst ⊢
    obtain ⟨b, failure⟩ := o
    cases failure with
    | some e' => exact hfirst
    | none =>
      rcases hfirst with hfail | hsame
      · cases hfail
      · exact (ih hus (k + 1) b).imp_right fun hrest => hrest.trans hsame

theorem endsOr_amendFn (y : Value) : ∀ c a z,
    (amendFn settings (.failing f e) y c a z).EndsOr e fun b => Alike b.values a.values := by
  induction y using Value.nest_induction with
  | leaf y hleaf =>
    rw [amendFn_of_not_list settings _ (by rintro w rfl; cases hleaf)]
    exact endsOr_amendAtIndex hslow y
  | dict s keys vals _ _ => exact endsOr_amendAtIndex hslow _
  | error s v _ => exact endsOr_amendAtIndex hslow _
  | array y ih =>
    cases y with
    | list w =>
      intro c a z
      rw [amendFn_list]
      split
      · exact .inr (.refl _)
      · refine endsOr_amendInTurn (fun u hu => ?_) _ c 0 a
        obtain ⟨v, hv, rfl⟩ := List.mem_map.1 hu
        exact ih v (Window.mem_of_mem_items hv)
    | _ => exact endsOr_amendAtIndex hslow _

/-- An amend of a dictionary appends keys only if it then calls its function. -/
theorem endsOr_dictAmend (c : Scope) {d : Dict Value} (hd : d.Paired) {y : Value}
    (hy : WellFormed y) (z : Option Value) :
    (d.amend settings c y (.failing f e) z).EndsOr e fun d' =>
      Alike d'.keys.values d.keys.values ∧ Alike d'.vals.values d.vals.values := by
  have hmissing := everywhere_missing settings d hy
  have hplaces := @placement_lt_appendKeys d settings hd y hy (c.sub 0)
  rw [Dict.amend]
  cases hop : (Callee.failing f e).operands z (d.placement settings y).selection with
  | error e' => exact .inr ⟨.refl _, .refl _⟩
  | ok operands =>
    cases hsel : (d.placement settings y).selection.positions with
    | nil =>
      -- What is missing takes a position, so no key is missing.
      have hnone := missing_eq_nil settings d hsel
      simp only [hnone]
      exact (endsOr_amendAt hslow _ d.vals _ z).map fun hvals => ⟨.refl _, hvals⟩
    | cons p ps =>
      -- The first position lies in the dictionary that has the missing keys.
      have hgrown := paired_appendKeys (c := c.sub 0) hd hmissing
      have hp :
          p < (d.appendKeys (c.sub 0) (d.placement settings y).missing).vals.values.length := by
        rw [hgrown.2.2.length_values]
        exact hplaces p (hsel ▸ List.mem_cons_self)
      have hold := List.getElem?_eq_getElem hp
      exact .inl (failure_amendAt_failing hslow hop hsel hold)

theorem endsOr_amend (c : Scope) {x y : Value} (hx : WellFormed x) (hy : WellFormed y)
    (z : Option Value) :
    (x.amend settings c y (.failing f e) z).EndsOr e fun v => x.eqv v = true := by
  cases x with
  | array a =>
    exact (endsOr_amendFn hslow y c a z).map fun hvalues => arrEqv_of_values hvalues.symm
  | dict s d =>
    exact (endsOr_dictAmend hslow c (wellFormed_dict.1 hx) hy z).map fun hentries =>
      dictEqv_of_values hentries.1.symm hentries.2.symm
  | _ => exact .inr (eqv_refl _)

end Flat

/-! ## Padded values -/

/-- The second list starts with one that is related to the first place by place. -/
def Extends {α : Type} (R : α → α → Prop) (us vs : List α) : Prop :=
  us.length ≤ vs.length ∧
    ∀ (i : Nat) (u v : α), us[i]? = some u → vs[i]? = some v → R u v

section Extends

variable {α : Type} {R S T : α → α → Prop} {us vs ws : List α}

theorem Pointwise.extends_append (h : Pointwise R us vs) (ws : List α) :
    Extends R us (vs ++ ws) := by
  refine ⟨by rw [List.length_append, h.1]; exact Nat.le_add_right .., fun i u v hu hv => ?_⟩
  have hi : i < vs.length := h.1 ▸ (List.getElem?_eq_some_iff.1 hu).1
  exact h.2 i u v hu (by rwa [List.getElem?_append_left hi] at hv)

theorem Pointwise.extends (h : Pointwise R us vs) : Extends R us vs :=
  List.append_nil vs ▸ h.extends_append []

theorem Extends.trans (h : Extends R us vs) (h' : Extends S vs ws)
    (hRST : ∀ (i : Nat) (u v w : α), us[i]? = some u → vs[i]? = some v → R u v → S v w → T u w) :
    Extends T us ws := by
  refine ⟨Nat.le_trans h.1 h'.1, fun i u w hu hw => ?_⟩
  have hi : i < vs.length := Nat.lt_of_lt_of_le (List.getElem?_eq_some_iff.1 hu).1 h.1
  have hv : vs[i]? = some vs[i] := List.getElem?_eq_getElem hi
  exact hRST i u _ w hu hv (h.2 i u _ hu hv) (h'.2 i _ w hv hw)

end Extends

/-- The second value is the first one up to entries that its dictionaries, at any depth, have
gained behind their own. -/
inductive Value.Padded : Value → Value → Prop
  | same {u v : Value} (h : u.eqv v = true) : Padded u v
  | array {a b : Arr Value} (hlen : a.values.length = b.values.length)
      (h : ∀ (i : Nat) (u v : Value), a.values[i]? = some u → b.values[i]? = some v →
        Padded u v) : Padded (.array a) (.array b)
  | dict {s t : Site} {d e : Dict Value}
      (hkeys : Extends (fun k l => k.eqv l = true) d.keys.values e.keys.values)
      (hlen : d.vals.values.length ≤ e.vals.values.length)
      (hvals : ∀ (i : Nat) (u v : Value), d.vals.values[i]? = some u →
        e.vals.values[i]? = some v → Padded u v) : Padded (.dict s d) (.dict t e)

namespace Value.Padded

theorem refl (v : Value) : v.Padded v := .same (eqv_refl v)

theorem array_iff {a : Arr Value} {w : Value} : (Value.array a).Padded w ↔
    ∃ b, w = .array b ∧ Pointwise Padded a.values b.values := by
  constructor
  · intro h
    cases h with
    | same h =>
      cases w with
      | array b =>
        exact ⟨b, rfl, (Arr.eqv_iff.1 h).imp_of_mem fun u _ v huv => .same huv⟩
      | _ => cases h
    | array hlen h => exact ⟨_, rfl, hlen, h⟩
  · rintro ⟨b, rfl, hlen, h⟩
    exact .array hlen h

theorem dict_iff {s : Site} {d : Dict Value} {w : Value} : (Value.dict s d).Padded w ↔
    ∃ t e, w = .dict t e ∧ Extends (fun k l => k.eqv l = true) d.keys.values e.keys.values ∧
      Extends Padded d.vals.values e.vals.values := by
  constructor
  · intro h
    cases h with
    | same h =>
      cases w with
      | dict t e =>
        obtain ⟨hkeys, hvals⟩ := dictEqv_iff.1 h
        refine ⟨t, e, rfl, (Arr.eqv_iff.1 hkeys).extends, ?_⟩
        exact ((Arr.eqv_iff.1 hvals).imp_of_mem fun u _ v huv => .same huv).extends
      | _ => cases h
    | dict hkeys hlen hvals => exact ⟨_, _, rfl, hkeys, hlen, hvals⟩
  · rintro ⟨t, e, rfl, hkeys, hlen, hvals⟩
    exact .dict hkeys hlen hvals

theorem of_eqv_left {u v w : Value} (h : v.Padded w) (huv : u.eqv v = true) : u.Padded w := by
  induction h generalizing u with
  | same h => exact .same (eqv_trans huv h)
  | array hlen h ih =>
    cases u with
    | array c =>
      have huv := Arr.eqv_iff.1 huv
      refine .array (huv.1.trans hlen) fun i x y hx hy => ?_
      obtain ⟨z, hz, hxz⟩ := huv.exists_right hx
      exact ih i z y hz hy hxz
    | _ => cases huv
  | dict hkeys hlen hvals ih =>
    cases u with
    | dict t e =>
      obtain ⟨hkeys', hvals'⟩ := dictEqv_iff.1 huv
      have hvals' := Arr.eqv_iff.1 hvals'
      refine .dict ?_ (Nat.le_trans (Nat.le_of_eq hvals'.1) hlen) fun i x y hx hy => ?_
      · exact (Arr.eqv_iff.1 hkeys').extends.trans hkeys fun _ _ _ _ _ _ => eqv_trans
      · obtain ⟨z, hz, hxz⟩ := hvals'.exists_right hx
        exact ih i z y hz hy hxz
    | _ => cases huv

theorem trans {u v w : Value} (h : u.Padded v) (h' : v.Padded w) : u.Padded w := by
  induction h generalizing w with
  | same huv => exact h'.of_eqv_left huv
  | array hlen h ih =>
    obtain ⟨b, rfl, hpoint⟩ := array_iff.1 h'
    have hpoint' : Pointwise Padded _ _ := ⟨hlen, h⟩
    refine .array (hlen.trans hpoint.1) fun i x y hx hy => ?_
    obtain ⟨z, hz, -⟩ := hpoint'.exists_right hx
    exact ih i x z hx hz (hpoint.2 i z y hz hy)
  | dict hkeys hlen hvals ih =>
    obtain ⟨t, e, rfl, hkeys', hvals'⟩ := dict_iff.1 h'
    have hextends := hkeys.trans hkeys' fun _ _ _ _ _ _ => eqv_trans
    refine .dict hextends (Nat.le_trans hlen hvals'.1) fun i x y hx hy => ?_
    have hi := Nat.lt_of_lt_of_le (List.getElem?_eq_some_iff.1 hx).1 hlen
    have hz := List.getElem?_eq_getElem hi
    exact ih i x _ hx hz (hvals'.2 i _ y hz hy)

end Value.Padded

/-! ## Elements -/

section Elements

variable {e : Failure Value} {update : ValueUpdate} {P : Value → Option Value → Prop}
  {S T : Value → Value → Prop}

/-- `P` holds of each element at one of the places together with its operand. The first operand is
the `k`-th. -/
def HoldsAt (P : Value → Option Value → Prop) (operands : Operands) (k : Nat) (ps : List Nat)
    (xs : List Value) : Prop :=
  ∀ (j i : Nat) (v : Value), ps[j]? = some i → xs[i]? = some v → P v (operands.at? (k + j))

/-- What holds at all places holds at the places to come, once the element at the first place has
been updated in a way that preserves it. That element may be met again. -/
theorem HoldsAt.tail {operands : Operands} {k i : Nat} {ps : List Nat} {xs : List Value}
    {slot new : Value} (h : HoldsAt P operands k (i :: ps) xs) (hslot : xs[i]? = some slot)
    (hnew : ∀ z, P slot z → P new z) : HoldsAt P operands (k + 1) ps (xs.set i new) := by
  intro j i' v hj hv
  have hplace : k + 1 + j = k + (j + 1) := by omega
  rw [hplace]
  by_cases hii : i = i'
  · subst hii
    rw [List.getElem?_set_self (List.getElem?_eq_some_iff.1 hslot).1] at hv
    cases hv
    exact hnew _ (h (j + 1) i slot hj hslot)
  · rw [List.getElem?_set_ne hii] at hv
    exact h (j + 1) i' v hj hv

section Update

variable (hsafe : update.Safe)
  (hupdate : ∀ c x z, WellFormed x → WellFormed z →
    (update c x z).EndsOr e fun v => S x v ∧ (P x z → T x v))
  (hS : ∀ x, S x x) (hSS : ∀ {x y z}, S x y → S y z → S x z)
  (hT : ∀ x, T x x) (hTT : ∀ {x y z}, T x y → T y z → T x z)
  (hPT : ∀ {x v}, T x v → ∀ z, P x z → P v z)
include hsafe hupdate hS hSS hT hTT hPT

/-- An update of elements relates each of them to what it leaves in its place, if the update of one
element does. What `P` says about an element and the operands that are still to come must not be
lost when the element is met again, so `T` preserves it. -/
theorem endsOr_amendElements {operands : Operands} (hoperands : WellFormed operands) (c : Scope)
    (k : Nat) (ps : List Nat) {w : Window Value} (hw : WellFormed w.items) :
    (amendElements update operands c k ps w).EndsOr e fun w' =>
      Pointwise S w.items w'.items ∧
        (HoldsAt P operands k ps w.items → Pointwise T w.items w'.items) := by
  have hrefl {R : Value → Value → Prop} (h : ∀ x, R x x) (xs : List Value) :
      Pointwise R xs xs := pointwise_of_forall fun x _ => h x
  induction ps generalizing k w with
  | nil => exact .inr ⟨hrefl hS _, fun _ => hrefl hT _⟩
  | cons i ps ih =>
    rw [amendElements]
    cases hslot : w.items[i]? with
    | none => exact .inr ⟨hrefl hS _, fun _ => hrefl hT _⟩
    | some slot =>
      have hwfslot : WellFormed slot := everywhere_iff_forall.1 hw slot (List.mem_of_getElem? hslot)
      have hwfz := Operands.everywhere_at? hoperands k
      have hfirst := hupdate ((c.sub (k + 1)).beside (w.buf.eraseIdx (w.off + i))) slot
        (operands.at? k) hwfslot hwfz
      have hwfnew := hsafe ((c.sub (k + 1)).beside (w.buf.eraseIdx (w.off + i))) slot
        (operands.at? k) hwfslot hwfz
      simp only
      generalize update _ slot (operands.at? k) = o at hfirst hwfnew ⊢
      obtain ⟨new, failure⟩ := o
      have hitems : ({ w with buf := w.buf.set (w.off + i) new } : Window Value).items =
        w.items.set i new := stretch_set ..
      generalize ({ w with buf := w.buf.set (w.off + i) new } : Window Value) = w₁ at hitems ⊢
      rcases hfirst with hfail | ⟨hSnew, hTnew⟩
      · -- A failure ends the walk, with what was written so far.
        cases hfail
        exact .inl rfl
      · have hS₁ : Pointwise S w.items w₁.items := hitems ▸ pointwise_set hS hslot hSnew
        have hslotT (hP : HoldsAt P operands k (i :: ps) w.items) : T slot new :=
          hTnew (hP 0 i slot rfl hslot)
        have hT₁ (hP : HoldsAt P operands k (i :: ps) w.items) : Pointwise T w.items w₁.items :=
          hitems ▸ pointwise_set hT hslot (hslotT hP)
        cases failure with
        | some e' => exact .inr ⟨hS₁, hT₁⟩
        | none =>
          have hw₁ : WellFormed w₁.items :=
            hitems ▸ wellFormed_set hw (everywhere_outcome.1 hwfnew).1
          -- The rest starts from the updated elements.
          refine (ih (k + 1) hw₁).imp_right fun hrest => ⟨?_, fun hP => ?_⟩
          · exact hS₁.trans hrest.1 fun _ _ _ _ => hSS
          · have hnext : HoldsAt P operands (k + 1) ps w₁.items :=
              hitems ▸ hP.tail hslot (hPT (hslotT hP))
            exact (hT₁ hP).trans (hrest.2 hnext) fun _ _ _ _ => hTT

theorem endsOr_arrAmendElements {operands : Operands} (hoperands : WellFormed operands)
    (c : Scope) (ps : List Nat) {a : Arr Value} (ha : WellFormed a) :
    (a.amendElements update operands c ps).EndsOr e fun b =>
      b.len = a.len ∧ b.kind = a.kind ∧ Pointwise S a.values b.values ∧
        (HoldsAt P operands 0 ps a.values → Pointwise T a.values b.values) := by
  have hsound : (a.amendElements update operands c ps).Leaves (Arr.Sound a.len) :=
    leaves_arrAmendElements hsafe hoperands ⟨ha, rfl⟩
  refine Or.imp_right (fun h => ⟨hsound.1.2, h⟩) ?_
  cases a with
  | list w =>
    have hw : WellFormed (w.makePrivate (c.sub 0)).items := by
      rw [Window.items_makePrivate]
      exact everywhere_values ha
    have h := endsOr_amendElements hsafe hupdate hS hSS hT hTT hPT hoperands c 0 ps hw
    rw [Window.items_makePrivate] at h
    exact h.imp_right fun hw' => ⟨rfl, hw'⟩
  | _ =>
    exact .inr ⟨rfl, pointwise_of_forall fun x _ => hS x,
      fun _ => pointwise_of_forall fun x _ => hT x⟩

end Update

end Elements

/-! ## Keys on the way -/

/-- Wherever the path goes on below the values of a dictionary, the keys that it names there are
present. -/
def KeysPresent (settings : Settings) (f : Value) :
    List Value → Value → Option Value → Prop
  | y :: next :: rest, .array a, z =>
    ∀ s sel operands, a.openLevel s y (.ofValue settings f) z = .ok (sel, operands) →
      HoldsAt (KeysPresent settings f (next :: rest)) operands 0 sel.positions a.values
  | y :: next :: rest, .dict _ d, z =>
    ∀ s operands,
      d.openLevel s (d.placement settings y) (.ofValue settings f) z = .ok operands →
      (d.placement settings y).missing = [] ∧
        HoldsAt (KeysPresent settings f (next :: rest)) operands 0
          (d.placement settings y).selection.positions d.vals.values
  | _, _, _ => True

/-- The second value equals the first, and the path meets no missing key in it if it meets none in
the first. -/
def KeepsKeys (settings : Settings) (f : Value) (path : List Value) (u v : Value) : Prop :=
  u.eqv v = true ∧ ∀ z, KeysPresent settings f path u z → KeysPresent settings f path v z

section KeepsKeys

variable {settings : Settings} {f : Value} {path : List Value}

theorem KeepsKeys.refl (v : Value) : KeepsKeys settings f path v v := ⟨eqv_refl v, fun _ h => h⟩

theorem KeepsKeys.trans {u v w : Value} (h : KeepsKeys settings f path u v)
    (h' : KeepsKeys settings f path v w) : KeepsKeys settings f path u w :=
  ⟨eqv_trans h.1 h'.1, fun z hz => h'.2 z (h.2 z hz)⟩

theorem isContainer_of_eqv {u v : Value} (h : u.eqv v = true) : u.isContainer = v.isContainer := by
  cases u <;> cases v <;> first | rfl | cases h

theorem isContainer_neutral (s : Site) (v : Value) : (v.neutral s).isContainer = v.isContainer := by
  cases v <;> rfl

/-- Equal lists have containers at the same places, also where they have not grown to yet. -/
theorem isContainer_slotAt {v w : Window Value}
    (h : Pointwise (fun x y => x.eqv y = true) v.items w.items) (s : Site) (p : Nat) :
    ((Arr.list v).slotAt s p).isContainer = ((Arr.list w).slotAt s p).isContainer := by
  simp only [Arr.slotAt, Arr.at?, Arr.values, Arr.padding]
  cases hv : v.items[p]? with
  | some x =>
    obtain ⟨y, hy, hxy⟩ := h.exists_right hv
    rw [hy]
    exact isContainer_of_eqv hxy
  | none =>
    have hw : w.items[p]? = none :=
      List.getElem?_eq_none (h.1 ▸ List.getElem?_eq_none_iff.1 hv)
    rw [hw]
    revert h
    cases v.items with
    | nil =>
      intro h
      rw [pointwise_nil_left.1 h]
    | cons x xs =>
      intro h
      obtain ⟨y, hy, hxy⟩ := h.exists_right (i := 0) rfl
      rw [List.head?_eq_getElem?, List.head?_eq_getElem?, hy]
      show (Value.neutral s x).isContainer = (Value.neutral s y).isContainer
      rw [isContainer_neutral, isContainer_neutral, isContainer_of_eqv hxy]

theorem ensureContainers_of_pointwise {a b : Arr Value} (hkind : b.kind = a.kind)
    (h : Pointwise (fun x y => x.eqv y = true) a.values b.values) {s : Site} {ps : List Nat}
    (hps : ps ≠ []) (hb : b.ensureContainers s ps = .ok ()) : a.ensureContainers s ps = .ok () := by
  cases b with
  | list w =>
    obtain ⟨v, rfl⟩ : ∃ v, a = .list v := by
      cases a <;> first | exact ⟨_, rfl⟩ | cases hkind
    refine (ensureContainers_eq_ok hps).2 fun p hp => ?_
    rw [isContainer_slotAt h]
    exact (ensureContainers_eq_ok hps).1 hb p hp
  | _ => cases hb

theorem keepsKeys_array {y next : Value} {rest : List Value} {a b : Arr Value}
    (hlen : b.len = a.len) (hkind : b.kind = a.kind)
    (h : Pointwise (KeepsKeys settings f (next :: rest)) a.values b.values) :
    KeepsKeys settings f (y :: next :: rest) (.array a) (.array b) := by
  have heqv := h.imp_of_mem fun _ _ _ huv => huv.1
  refine ⟨Arr.eqv_iff.2 heqv, fun z hkeys s sel operands hopen k i v hk hv => ?_⟩
  obtain ⟨hsel, hop, hcontainers⟩ := Arr.openLevel_eq_ok.1 hopen
  have hopen' := Arr.openLevel_eq_ok.2 ⟨hlen ▸ hsel, hop, fun hne =>
    ensureContainers_of_pointwise hkind heqv hne (hcontainers hne)⟩
  have hi := h.1 ▸ (List.getElem?_eq_some_iff.1 hv).1
  have hu := List.getElem?_eq_getElem hi
  exact (h.2 i _ v hu hv).2 _ (hkeys s sel operands hopen' k i _ hk hu)

theorem keepsKeys_dict {y next : Value} {rest : List Value} {s t : Site} {d : Dict Value}
    {vals : Arr Value} (hkind : vals.kind = d.vals.kind)
    (h : Pointwise (KeepsKeys settings f (next :: rest)) d.vals.values vals.values) :
    KeepsKeys settings f (y :: next :: rest) (.dict s d) (.dict t ⟨d.keys, vals⟩) := by
  have heqv := h.imp_of_mem fun _ _ _ huv => huv.1
  have hkeysEqv : d.keys.eqv d.keys = true := arrEqv_of_values (.refl _)
  refine ⟨dictEqv_iff.2 ⟨hkeysEqv, Arr.eqv_iff.2 heqv⟩, fun z hkeys s operands hopen => ?_⟩
  -- The positions depend on the keys alone.
  have hplan : (⟨d.keys, vals⟩ : Dict Value).placement settings y = d.placement settings y := rfl
  rw [hplan] at hopen ⊢
  obtain ⟨hop, hcontainers⟩ := Dict.openLevel_eq_ok.1 hopen
  obtain ⟨hmissing, hbelow⟩ := hkeys s operands (Dict.openLevel_eq_ok.2 ⟨hop, fun hne =>
    ensureContainers_of_pointwise hkind heqv hne (hcontainers hne)⟩)
  refine ⟨hmissing, fun k i v hk hv => ?_⟩
  have hi := h.1 ▸ (List.getElem?_eq_some_iff.1 hv).1
  have hu := List.getElem?_eq_getElem hi
  exact (h.2 i _ v hu hv).2 _ (hbelow k i _ hk hu)

end KeepsKeys

/-! ## Paths -/

section Path

variable (settings : Settings) (f : Value) {e : Failure Value}

/-- Appended keys pad the dictionary. -/
theorem padded_appendKeys (c : Scope) (s t : Site) (d : Dict Value) (ks : List Value)
    {vals : Arr Value}
    (h : Pointwise Value.Padded (d.appendKeys c ks).vals.values vals.values) :
    (Value.dict s d).Padded (.dict t ⟨(d.appendKeys c ks).keys, vals⟩) := by
  obtain ⟨pads, hpads, -⟩ := exists_pads ⟨[]⟩ c d ks
  have hkeys : Pointwise (fun k l => k.eqv l = true) (d.keys.values ++ ks)
      (d.appendKeys c ks).keys.values := by
    refine ⟨(alike_keys_appendKeys c d ks).length_eq.symm, fun i k l hk hl => ?_⟩
    have halike := (alike_keys_appendKeys c d ks).symm.getElem? i
    rw [hk, hl] at halike
    exact (alike_some.1 halike).eqv
  have hold {us vs : List Value} : Extends (fun k l => k.eqv l = true) us (us ++ vs) :=
    (pointwise_of_forall fun k _ => eqv_refl k).extends_append vs
  have hvals : Extends Value.Padded d.vals.values vals.values := by
    rw [hpads] at h
    exact hold.trans h.extends fun _ _ _ _ _ _ huv hvw => hvw.of_eqv_left huv
  refine .dict ?_ hvals.1 hvals.2
  exact hold.trans hkeys.extends fun _ _ _ _ _ _ => eqv_trans

/-- An amend along a path that never calls its function pads the value, and leaves an equal one if
the path goes on below no missing key. The induction is on the path: what is proved about the rest
of the path holds of each element that a level selects. -/
theorem endsOr_amendAlong (he : WellFormed e) {path : List Value} (hpath : WellFormed path) :
    ∀ c x z, WellFormed x → WellFormed z →
      (Value.amendAlong { settings with typedLoops := false } (.failing f e) path c x z).EndsOr e
        fun v => x.Padded v ∧
          (KeysPresent settings f path x z → KeepsKeys settings f path x v) := by
  have hstay {path : List Value} (x : Value) {z : Option Value} :
      x.Padded x ∧ (KeysPresent settings f path x z → KeepsKeys settings f path x x) :=
    ⟨.refl x, fun _ => .refl x⟩
  induction path with
  | nil =>
    intro c x z _ _
    exact .inl rfl
  | cons y rest ih =>
    obtain ⟨hy, hrest⟩ := (everywhere_cons ..).1 hpath
    intro c x z hx hz
    cases rest with
    | nil =>
      refine (endsOr_amend rfl c hx hy z).imp_right fun heqv => ?_
      exact ⟨.same heqv, fun _ => ⟨heqv, fun _ _ => trivial⟩⟩
    | cons next rest =>
      have hsafe : ValueUpdate.Safe (Value.amendAlong { settings with typedLoops := false }
          (.failing f e) (next :: rest)) := safe_amendAlong (safe_failing f he) hrest
      have hbelow {operands : Operands} (hoperands : WellFormed operands) (c : Scope)
          (ps : List Nat) {a : Arr Value} (ha : WellFormed a) :=
        endsOr_arrAmendElements hsafe (ih hrest) Value.Padded.refl Value.Padded.trans
          KeepsKeys.refl KeepsKeys.trans (fun h => h.2) hoperands c ps ha
      have hlevel := level_amendAlong { settings with typedLoops := false } (.failing f e) y next
        rest c x z
      generalize Value.amendAlong { settings with typedLoops := false } (.failing f e)
        (y :: next :: rest) c x z = o at hlevel ⊢
      cases hlevel with
      | refused x | idle x => exact .inr (hstay _)
      | @array a sel operands opens selects holds =>
        have ha : WellFormed a := (everywhere_array a).1 hx
        refine (hbelow (holds _ hz) c sel.positions ha).map fun hafter => ?_
        obtain ⟨hlen, hkind, hpad, hkeep⟩ := hafter
        refine ⟨Value.Padded.array_iff.2 ⟨_, rfl, hpad⟩, fun hkeys => ?_⟩
        exact keepsKeys_array hlen hkind (hkeep (hkeys c.site sel operands opens))
      | @dict s d operands opens selects holds =>
        have hd : d.Paired := wellFormed_dict.1 hx
        -- Where keys are placed does not depend on the loops.
        have hplan : d.placement { settings with typedLoops := false } y =
          d.placement settings y := rfl
        simp only [hplan] at opens ⊢
        have hgrown := paired_appendKeys (c := c.sub 0) hd (everywhere_missing settings d hy)
        refine (hbelow (holds _ hz) _ _ hgrown.2.2).map fun hafter => ?_
        obtain ⟨_, hkind, hpad, hkeep⟩ := hafter
        refine ⟨padded_appendKeys _ _ _ _ _ hpad, fun hkeys => ?_⟩
        obtain ⟨hmissing, hpresent⟩ := hkeys c.site operands opens
        have hsame : d.appendKeys (c.sub 0) (d.placement settings y).missing = d := by
          rw [hmissing]
          rfl
        rw [hsame] at hkind hkeep ⊢
        exact keepsKeys_dict hkind (hkeep hpresent)

end Path

/-! ## The interface -/

/-- The amend calls its function not even once: whatever calls would answer, the outcome is the
same. (A call that fails ends an amend with its failure.) The loops that stand for the calls of a
built-in function are left out. -/
def Value.CallsNothing (settings : Settings) (form : Form) (c : Scope) (x y f : Value)
    (z : Option Value) : Prop :=
  ∀ call : Site → List Value → Result Value,
    x.amendBy { settings with typedLoops := false } form c y ⟨f, call⟩ z =
      x.amendSlot { settings with typedLoops := false } form c y f z

/-- There is a failure that is not the given one, whatever operation is noted on it. -/
theorem exists_failure_ne (failure : Option (Failure Value)) :
    ∃ e : Failure Value, WellFormed e ∧ ∀ op, failure ≠ some (e.during op) := by
  by_cases h : ∃ op, failure = some ((Failure.domain "a").during op)
  · obtain ⟨op, rfl⟩ := h
    refine ⟨.domain "b", everywhere_failure rfl, fun op' heq => ?_⟩
    have hcause : (Cause.domain "a" : Cause Value) = .domain "b" :=
      congrArg Failure.cause (Option.some.inj heq)
    exact absurd (Cause.domain.inj hcause) (by decide)
  · exact ⟨.domain "a", everywhere_failure rfl, fun op heq => h ⟨op, heq⟩⟩

/-- An amend that never calls its function leaves what was in the slot, but for entries that
dictionaries may have gained. An amend of one container leaves an equal value, so that no
dictionary has gained a key, and so does an amend along a path that goes on below no missing
key. -/
theorem slot_of_callsNothing (settings : Settings) (form : Form) (c : Scope) (x y f : Value)
    (z : Option Value) (hx : WellFormed x) (hy : WellFormed y) (hf : WellFormed f)
    (hz : WellFormed z) (hcalls : x.CallsNothing settings form c y f z) :
    let o := x.amendSlot settings form c y f z
    x.Padded o.slot ∧
      ((form = .path → KeysPresent settings f y.components x z) → o.slot.eqv x = true) := by
  intro o
  have hslow : x.amendSlot { settings with typedLoops := false } form c y f z = o :=
    amendBy_agrees (ofValue_agrees settings false hf) hx hy hz
  obtain ⟨e, he, hne⟩ := exists_failure_ne o.failure
  -- A function of which every call fails with `e` would show in the outcome if it were called.
  have hfailing : x.amendBy { settings with typedLoops := false } form c y (.failing f e) z = o :=
    (hcalls _).trans hslow
  rw [← hfailing] at hne ⊢
  cases form with
  | flat =>
    have hflat : Outcome.EndsOr e (fun v => x.eqv v = true)
        (x.amend { settings with typedLoops := false } c y (.failing f e) z) :=
      endsOr_amend rfl c hx hy z
    rcases hflat with hfail | heqv
    · exact absurd (congrArg (Option.map _) hfail) (hne _)
    · exact ⟨.same heqv, fun _ => eqv_symm heqv⟩
  | path =>
    have hpath : Outcome.EndsOr e
        (fun v => x.Padded v ∧ (KeysPresent settings f y.components x z →
          KeepsKeys settings f y.components x v))
        (x.amendPath { settings with typedLoops := false } c y (.failing f e) z) := by
      simp only [Value.amendPath]
      split
      · exact .inr ⟨.refl x, fun _ => .refl x⟩
      · exact endsOr_amendAlong settings f he (everywhere_components hy) c x z hx hz
    rcases hpath with hfail | ⟨hpad, hkeep⟩
    · exact absurd (congrArg (Option.map _) hfail) (hne _)
    · exact ⟨hpad, fun hkeys => eqv_symm (hkeep (hkeys rfl)).1⟩

/-- Two missing keys with three operands: the level is rejected before it appends anything. -/
theorem slot_of_callsNothing_length :
    let x : Value := .dict ⟨[1]⟩ ⟨.strs (.ofList ⟨[2]⟩ ["a"]),
      .list (.ofList ⟨[3]⟩ [.array (.ints (.ofList ⟨[4]⟩ [1, 2]))])⟩
    let y : Value := .array (.list (.ofList ⟨[5]⟩
      [.array (.strs (.ofList ⟨[6]⟩ ["x", "y"])), .int 0]))
    let f : Value := .builtin .right
    let z : Option Value := some (.array (.ints (.ofList ⟨[7]⟩ [1, 2, 3])))
    let c : Scope := ⟨[], ⟨[0]⟩⟩
    (WellFormed x ∧ WellFormed y ∧ WellFormed f ∧ WellFormed z ∧
        x.CallsNothing {} .path c y f z ∧ KeysPresent {} f y.components x z) ∧
      (x.amendSlot {} .path c y f z).failure ≠ none ∧
      (x.amendSlot {} .path c y f z).slot.eqv x = true := by
  intro x y f z c
  have hcalls : x.CallsNothing {} .path c y f z := fun _ => rfl
  have hkeys : KeysPresent {} f y.components x z := fun _ _ hopen => by cases hopen
  refine ⟨⟨by decide, by decide, by decide, by decide, hcalls, hkeys⟩, Option.some_ne_none _, ?_⟩
  exact (slot_of_callsNothing {} .path c x y f z (by decide) (by decide) (by decide) (by decide)
    hcalls).2 fun _ => hkeys

/-- A path goes on below a missing key, and is then rejected at an index that the neutral value
does not have. The function is not called, and the key stays. -/
theorem rejected_path_keeps_key :
    let x : Value := .dict ⟨[1]⟩ ⟨.strs (.ofList ⟨[2]⟩ ["a"]),
      .list (.ofList ⟨[3]⟩ [.array (.ints (.ofList ⟨[4]⟩ [1, 2]))])⟩
    let y : Value := .array (.list (.ofList ⟨[5]⟩ [.str "q", .int 0]))
    let f : Value := .builtin .subtract
    let c : Scope := ⟨[], ⟨[0]⟩⟩
    let o := x.amendSlot {} .path c y f none
    o.failure = some ((Failure.outOfBounds 0 0).during ".[x;y;-]") ∧
      x.CallsNothing {} .path c y f none ∧ o.slot.eqv x = false ∧
      ∃ t keys vals, o.slot = .dict t ⟨.strs keys, vals⟩ ∧ keys.items = ["a", "q"] := by
  intro x y f c o
  have hsame (call : Site → List Value → Result Value) :
      x.amendBy { typedLoops := false } .path c y ⟨f, call⟩ none =
        x.amendBy { typedLoops := false } .path c y (.failing f (.outOfBounds 0 0)) none := rfl
  have hcalls : x.CallsNothing {} .path c y f none := fun call =>
    (hsame call).trans (hsame (Callee.ofValue { typedLoops := false } f).call).symm
  exact ⟨rfl, hcalls, by decide, _, _, _, rfl, by decide⟩

end SharedArrays
