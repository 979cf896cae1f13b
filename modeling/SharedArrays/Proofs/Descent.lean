import SharedArrays.Proofs.Alike.Path

/-!
# Amending along a path is amending level by level

An amend along a path is a recursion of its own: it hands out the elements of the outer container
as slots, checks them before it starts, and neither widens the container nor moves it to canonical
storage. All the same it is an amend of one container, by the function that amends an element
along the rest of the path.

## Main definitions

* `Value.descent` — the user function that amends its argument along a path

## Main results

* `amendElements_follows` — slots of a list, and steps of an amend
* `amended_path_eqv_flat` — an amend along a path is an amend with the rest of the path
-/

namespace SharedArrays

/-- The user function that amends its first argument along the path `q` by the function `f`, with
its second argument, if it has one, as the right operand. -/
def Value.descent (s : Site) (name : String) (f q : Value) (dyadic : Bool) : Value :=
  .lambda s name (updateArity dyadic) <|
    if dyadic then .amendWith .path (.arg 0) (.const q) f (.arg 1)
    else .amend .path (.arg 0) (.const q) f

/-- A call of the function is an amend along the path, in surroundings of its own. -/
theorem apply_descent (settings : Settings) (s : Site) (name : String) (f q : Value) (t : Site)
    (x : Value) (z : Option Value) :
    ∃ held, (Value.descent s name f q z.isSome).apply settings t (x :: z.toList) =
      x.amended settings .path ⟨held, t.sub 3⟩ q f z >>= Value.settle := by
  cases z with
  | none => exact ⟨_, rfl⟩
  | some z => exact ⟨_, rfl⟩

theorem toResult_during (o : Outcome Value) (op : String) :
    Outcome.toResult ⟨o.slot, o.failure.map (·.during op)⟩ =
      match o with
      | ⟨v, none⟩ => .ok v
      | ⟨_, some e⟩ => .error (e.during op) := by
  obtain ⟨v, failure⟩ := o
  cases failure <;> rfl

theorem amended_flat (settings : Settings) (c : Scope) (x y f : Value) (z : Option Value) :
    x.amended settings .flat c y f z =
      match x.amend settings c y (.ofValue settings f) z with
      | ⟨v, none⟩ => .ok v
      | ⟨_, some e⟩ => .error (e.during (amendText "@" f z.isSome)) :=
  toResult_during ..

theorem amended_path {settings : Settings} {q : Value}
    (hlimit : q.components.length ≤ settings.pathLimit) (c : Scope) (x f : Value)
    (z : Option Value) :
    x.amended settings .path c q f z =
      match Value.amendAlong settings (.ofValue settings f) q.components c x z with
      | ⟨v, none⟩ => .ok v
      | ⟨_, some e⟩ => .error (e.during (amendText "." f z.isSome)) := by
  have halong : x.amendPath settings c q (.ofValue settings f) z =
      Value.amendAlong settings (.ofValue settings f) q.components c x z :=
    if_neg (Nat.not_lt.2 hlimit)
  rw [← halong]
  exact toResult_during ..

/-- An amend along a path that goes through started in a container, and leaves one. -/
theorem isContainer_of_amendAlong {settings : Settings} {f : Callee} {path : List Value}
    (hpath : path ≠ []) {c : Scope} {x : Value} {z : Option Value}
    (h : (Value.amendAlong settings f path c x z).failure = none) :
    x.isContainer = true ∧ (Value.amendAlong settings f path c x z).slot.isContainer = true := by
  cases path with
  | nil => exact absurd rfl hpath
  | cons y rest =>
    cases rest with
    | nil => cases x <;> first | exact ⟨rfl, rfl⟩ | cases h
    | cons next rest =>
      have hlevel := level_amendAlong settings f y next rest c x z
      generalize Value.amendAlong settings f (y :: next :: rest) c x z = o at hlevel h ⊢
      cases hlevel with
      | refused x => cases h
      | idle x isContainer => exact ⟨isContainer, isContainer⟩
      | array | dict => exact ⟨rfl, rfl⟩

theorem settle_of_isContainer {v : Value} (h : v.isContainer = true) : v.settle = .ok v := by
  cases v <;> first | rfl | cases h

/-! ## One level -/

/-- What the update leaves in a slot is what the call answers for it, or both fail. Only for
containers does the update go through. -/
structure Descends (dyadic : Bool) (update : ValueUpdate)
    (call : Site → List Value → Result Value) : Prop where
  safe : update.Safe
  isContainer : ∀ c x z, (update c x z).failure = none → x.isContainer = true
  cases : ∀ c t x x' z, WellFormed x → WellFormed x' → Alike x x' → WellFormed z →
    z.isSome = dyadic →
      (∃ v, call t (x' :: z.toList) = .ok v ∧ (update c x z).failure = none ∧ WellFormed v ∧
        Alike (update c x z).slot v) ∨
      ((∃ e, call t (x' :: z.toList) = .error e) ∧ ∃ e, (update c x z).failure = some e)

theorem descends_descent {settings : Settings} {f q : Value} {dyadic : Bool}
    (hf : (Callee.ofValue settings f).Blind dyadic) (hq : WellFormed q)
    (hrest : q.components ≠ []) (hlimit : q.components.length ≤ settings.pathLimit) (s : Site)
    (name : String) :
    Descends dyadic (Value.amendAlong settings (.ofValue settings f) q.components)
      ((Value.descent s name f q dyadic).apply settings) where
  safe := safe_amendAlong hf.safe (everywhere_components hq)
  isContainer c x z h := (isContainer_of_amendAlong hrest h).1
  cases c t x x' z hx hx' h hz hsome := by
    have happly := apply_descent settings s name f q t x' z
    rw [hsome] at happly
    obtain ⟨held, hr⟩ := happly
    rw [hr, amended_path hlimit]
    let c' : Scope := ⟨held, t.sub 3⟩
    have hwfq := everywhere_components hq
    have hsame : ValueUpdate.Same dyadic
        (Value.amendAlong settings (.ofValue settings f) q.components)
        (Value.amendAlong settings (.ofValue settings f) q.components) :=
      same_amendAlong hf hwfq hwfq (.refl _)
    have hsafe : ValueUpdate.Safe
        (Value.amendAlong settings (.ofValue settings f) q.components) :=
      safe_amendAlong hf.safe hwfq
    obtain ⟨hslot, hfailure⟩ := alike_outcome.1 <|
      hsame c c' x x' z z hx hx' h hz hz (.refl z) hsome
    have hwf := everywhere_outcome.1 (hsafe c' x' z hx' hz)
    have hcontainer :=
      @isContainer_of_amendAlong settings (.ofValue settings f) q.components hrest c' x' z
    generalize Value.amendAlong settings (.ofValue settings f) q.components c' x' z = o at *
    obtain ⟨v, failure⟩ := o
    -- An answer that is a container is settled: it is no error value.
    rcases alike_option_cases hfailure with ⟨hnone, hnone'⟩ | ⟨e, e', he, he', -⟩
    · cases hnone'
      exact .inl ⟨v, settle_of_isContainer (hcontainer rfl).2, hnone, hwf.1, hslot⟩
    · cases he'
      exact .inr ⟨⟨_, rfl⟩, e, he⟩

section Descends

variable {dyadic : Bool} {update : ValueUpdate} {call : Site → List Value → Result Value}
  {ops : Operands} {n : Nat}

/-- The steps of an amend at the positions `ps`, the first of them with the `k`-th operand. -/
def callSteps (call : Site → List Value → Result Value) (ops : Operands) (t : Nat → Site)
    (ps : List Nat) (k : Nat) : List Step :=
  (ps.zipIdx k).map fun e => ⟨e.1, fun old => call (t e.2) (old :: (ops.at? e.2).toList)⟩

/-- Slots of a list, and steps of an amend: they leave the same elements, or both fail. -/
theorem amendElements_follows (h : Descends dyadic update call) (hops : WellFormed ops)
    (hdyadic : ops.Dyadic n dyadic) {ps : List Nat} {k : Nat} (hn : k + ps.length = n)
    (c c' : Scope) (t : Nat → Site) {w : Window Value} {b : Arr Value}
    (hw : WellFormed (Arr.list w)) (hb : WellFormed b) (hsame : Alike w.items b.values) :
    let o := amendElements update ops c k ps w
    let r := b.runSteps c' (callSteps call ops t ps k)
    (o.failure = none ∧ r.failure = none ∧ Alike o.slot.items r.slot.values) ∨
      ((∃ e, o.failure = some e) ∧ ∃ e, r.failure = some e) := by
  induction ps generalizing k w b with
  | nil => exact .inl ⟨rfl, rfl, hsame⟩
  | cons p ps ih =>
    have hk : k < n := by rw [List.length_cons] at hn; omega
    simp only [amendElements, callSteps, List.zipIdx_cons, List.map_cons, Arr.runSteps]
    rcases alike_option_cases (hsame.getElem? p) with
      ⟨hold, hold'⟩ | ⟨old, old', hold, hold', hsames⟩
    · have hold' : b.at? p = none := hold'
      simp only [hold, hold']
      exact .inr ⟨⟨_, rfl⟩, _, rfl⟩
    · have hold' : b.at? p = some old' := hold'
      have hwf : WellFormed old := everywhere_of_at? hw hold
      have hwf' := everywhere_of_at? hb hold'
      simp only [hold, hold']
      generalize (c.sub (k + 1)).beside (w.buf.eraseIdx (w.off + p)) = u
      have hsafe := everywhere_outcome.1 (h.safe u old _ hwf (Operands.everywhere_at? hops k))
      have hcases := h.cases u (t k) old old' _ hwf hwf' hsames
        (Operands.everywhere_at? hops k) (hdyadic k hk)
      generalize update u old (ops.at? k) = o at hsafe hcases
      rcases hcases with ⟨v, hv, hnone, hwfv, hslot⟩ | ⟨⟨e, he⟩, e', he'⟩
      · simp only [hnone, hv]
        refine ih ?_ ?_ (wellFormed_put hb hwfv) ?_
        · rw [List.length_cons] at hn
          omega
        · exact wellFormed_setCell hw _ hsafe.1
        · rw [Arr.values_put, Window.items, stretch_set]
          exact hsame.set hslot p
      · simp only [he, he']
        exact .inr ⟨⟨_, rfl⟩, _, rfl⟩

/-- Steps that all go through meet containers only, also before the first of them. -/
theorem isContainer_of_runSteps (h : Descends dyadic update call) (hops : WellFormed ops)
    (hdyadic : ops.Dyadic n dyadic) {ps : List Nat} {k : Nat} (hn : k + ps.length = n)
    {c : Scope} {t : Nat → Site} {b : Arr Value} (hb : WellFormed b)
    (hnone : (b.runSteps c (callSteps call ops t ps k)).failure = none) :
    ∀ p ∈ ps, ∃ v, b.at? p = some v ∧ v.isContainer = true := by
  induction ps generalizing k b with
  | nil => exact nofun
  | cons p ps ih =>
    have hk : k < n := by rw [List.length_cons] at hn; omega
    simp only [callSteps, List.zipIdx_cons, List.map_cons, Arr.runSteps] at hnone
    cases hold : b.at? p with
    | none => simp only [hold] at hnone; cases hnone
    | some old =>
      have hwf := everywhere_of_at? hb hold
      have hcases := h.cases c (t k) old old _ hwf hwf (.refl old)
        (Operands.everywhere_at? hops k) (hdyadic k hk)
      have hopen := h.isContainer c old (ops.at? k)
      rcases hcases with ⟨v, hv, hdone, hwfv, -⟩ | ⟨⟨e, he⟩, -⟩
      · simp only [hold, hv] at hnone
        have hrest := ih (k := k + 1) (by rw [List.length_cons] at hn; omega)
          (wellFormed_put hb hwfv) hnone
        -- A position that comes again may have been written, but then the first step met it as
        -- it was.
        intro i hi
        by_cases hip : i = p
        · exact ⟨old, hip ▸ hold, hopen hdone⟩
        · have hi : i ∈ ps := (List.mem_cons.1 hi).resolve_left hip
          obtain ⟨u, hu, hcontainer⟩ := hrest i hi
          refine ⟨u, ?_, hcontainer⟩
          rwa [Arr.at?, Arr.values_put, List.getElem?_set_ne (Ne.symm hip)] at hu
      · simp only [hold, he] at hnone
        cases hnone

/-- What stands at a position of an array, or will stand there once it has grown. -/
def Arr.slotAt (s : Site) (a : Arr Value) (p : Nat) : Value := (a.at? p).getD (a.padding s)

/-- Only lists have containers in them. -/
theorem kind_of_isContainer {s : Site} {a : Arr Value} {p : Nat}
    (h : (a.slotAt s p).isContainer = true) : a.kind = .list := by
  have hatom (hleaf : ∀ v ∈ a.values, v.isContainer = false)
      (hpad : (a.padding s).isContainer = false) : (a.slotAt s p).isContainer = false := by
    rw [Arr.slotAt, Arr.at?]
    cases hv : a.values[p]? with
    | none => exact hpad
    | some v => exact hleaf v (List.mem_of_getElem? hv)
  cases a with
  | list w => rfl
  | _ w =>
    rw [hatom ?_ rfl] at h
    · cases h
    · intro v hv
      obtain ⟨x, -, rfl⟩ := List.mem_map.1 hv
      rfl

/-- A level can be entered if all of its slots are containers. -/
theorem ensureContainers_eq_ok {s : Site} {a : Arr Value} {ps : List Nat} (hps : ps ≠ []) :
    a.ensureContainers s ps = .ok () ↔ ∀ p ∈ ps, (a.slotAt s p).isContainer = true := by
  have hlist {w : Window Value} : (Arr.list w).ensureContainers s ps = .ok () ↔
      (ps.map ((Arr.list w).slotAt s)).find? (!·.isContainer) = none := by
    have hslots : (ps.map fun i => ((Arr.list w).at? i).getD ((Arr.list w).padding s)) =
      ps.map ((Arr.list w).slotAt s) := rfl
    rw [Arr.ensureContainers, hslots]
    cases (ps.map ((Arr.list w).slotAt s)).find? (!·.isContainer) <;> simp
  constructor
  · intro h p hp
    cases a with
    | list w =>
      have hall := List.find?_eq_none.1 (hlist.1 h) _ (List.mem_map_of_mem hp)
      simpa using hall
    | _ => cases h
  · intro h
    obtain ⟨p, hp⟩ := List.exists_mem_of_ne_nil ps hps
    have hkind := kind_of_isContainer (h p hp)
    cases a with
    | list w =>
      refine hlist.2 (List.find?_eq_none.2 fun v hv => ?_)
      obtain ⟨p, hp, rfl⟩ := List.mem_map.1 hv
      simp [h p hp]
    | _ => cases hkind

/-- A level of a path, and an amend of the same array: `a` is the array that the level checks, and
`b` and `b'` are what it has grown to. -/
theorem level_follows (h : Descends dyadic update call) (hops : WellFormed ops) {ps : List Nat}
    (hps : ps ≠ []) (hdyadic : ops.Dyadic ps.length dyadic) (s : Site) (c c' : Scope)
    (t : Nat → Site) {a b b' : Arr Value} (hb : WellFormed b) (hb' : WellFormed b')
    (hsame : Alike b b') (hslots : ∀ p ∈ ps, Alike (b.at? p) (some (a.slotAt s p))) :
    let o := b.amendElements update ops c ps
    let r := b'.revise c' (callSteps call ops t ps 0)
    (a.ensureContainers s ps = .ok () ∧ o.failure = none ∧ r.failure = none ∧
        Alike o.slot.values r.slot.values) ∨
      ((a.ensureContainers s ps = .ok () → ∃ e, o.failure = some e) ∧ ∃ e, r.failure = some e) := by
  intro o r
  -- The amend checks each slot as it gets there, and the level checks all of them in advance.
  have hcontainers : r.failure = none → a.ensureContainers s ps = .ok () := by
    intro hnone
    have hall := isContainer_of_runSteps h hops hdyadic (Nat.zero_add _) hb' hnone
    refine (ensureContainers_eq_ok hps).2 fun p hp => ?_
    obtain ⟨v, hv, hcontainer⟩ := hall p hp
    have hslot := (hslots p hp).symm.trans (hsame.at? p)
    rw [hv] at hslot
    rwa [(alike_some.1 hslot).isContainer_eq]
  by_cases hopen : a.ensureContainers s ps = .ok ()
  · -- The array is a list, since it has containers in it.
    obtain ⟨p, hp⟩ := List.exists_mem_of_ne_nil ps hps
    have hkind : b.kind = .list := by
      rcases alike_option_cases (hslots p hp) with ⟨-, hnone⟩ | ⟨v, v', hv, hv', hvv⟩
      · cases hnone
      · cases hv'
        have hcontainer := (ensureContainers_eq_ok hps).1 hopen p hp
        refine kind_of_isContainer (s := s) (p := p) ?_
        rwa [Arr.slotAt, hv, Option.getD_some, hvv.isContainer_eq]
    obtain ⟨w, rfl⟩ : ∃ w, b = .list w := by cases b <;> first | exact ⟨_, rfl⟩ | cases hkind
    have hprivate : WellFormed (Arr.list (w.makePrivate (c.sub 0))) :=
      wellFormed_update (fun w hw _ => hw.makePrivate _) (fun _ _ h => Window.mem_makePrivate h) hb
    have hitems : Alike (w.makePrivate (c.sub 0)).items b'.values := by
      rw [Window.items_makePrivate]
      exact hsame.values
    rcases amendElements_follows h hops hdyadic (Nat.zero_add _) c c' t
      hprivate hb' hitems with ⟨hnone, hnone', halike⟩ | ⟨hfail, hfail'⟩
    · exact .inl ⟨hopen, hnone, hnone', halike.trans (alike_values_canonical _ _).symm⟩
    · exact .inr ⟨fun _ => hfail, hfail'⟩
  · refine .inr ⟨fun hok => absurd hok hopen, ?_⟩
    cases hr : r.failure with
    | none => exact absurd (hcontainers hr) hopen
    | some e => exact ⟨e, rfl⟩

end Descends

/-! ## Keys that are new -/

theorem getElem?_append_replicate {α : Type} {xs : List α} {m p : Nat} (x : α)
    (hp : p < xs.length + m) : (xs ++ List.replicate m x)[p]? = some (xs[p]?.getD x) := by
  by_cases hlt : p < xs.length
  · rw [List.getElem?_append_left hlt, List.getElem?_eq_getElem hlt]
    rfl
  · have hge : xs.length ≤ p := Nat.le_of_not_lt hlt
    rw [List.getElem?_append_right hge, List.getElem?_eq_none hge, List.getElem?_replicate,
      if_pos (by omega)]
    rfl

/-- A neutral value that pads an array does not change what pads it. -/
theorem alike_padding_push (s t : Site) (c : Scope) (a : Arr Value) :
    Alike ((a.push c (a.padding s)).padding t) (a.padding t) := by
  cases a with
  | list w =>
    simp only [Arr.push, Arr.store, Arr.padding, Window.items_append]
    cases w.items with
    | nil => exact .refl _
    | cons v vs => exact .refl _
  | _ => exact .refl _

/-- Behind the old values stand paddings, one for each appended key. -/
theorem exists_pads (s : Site) (c : Scope) (d : Dict Value) (ks : List Value) :
    ∃ pads : List Value, (d.appendKeys c ks).vals.values = d.vals.values ++ pads ∧
      pads.length = ks.length ∧ ∀ pad ∈ pads, Alike pad (d.vals.padding s) := by
  rw [Dict.appendKeys_eq]
  generalize 0 = n
  induction ks generalizing n d with
  | nil => exact ⟨[], (List.append_nil _).symm, rfl, List.forall_mem_nil _⟩
  | cons k ks ih =>
    obtain ⟨pads, hvalues, hlen, hpads⟩ := ih (d.appendKey (c.sub n) k) (n + 1)
    -- The padding of an array is the same after a padding has been appended to it.
    have hpad := alike_padding (s := (c.sub n).site.sub 3) (t := s) (.refl d.vals)
    have hnext := alike_padding_push ((c.sub n).site.sub 3) s
      (((c.sub n).sub 2).beside [.array (d.appendKey (c.sub n) k).keys]) d.vals
    refine ⟨d.vals.padding ((c.sub n).site.sub 3) :: pads, ?_, congrArg (· + 1) hlen, ?_⟩
    · rw [List.append_cons, ← Arr.values_push]
      exact hvalues
    · exact List.forall_mem_cons.2 ⟨hpad, fun pad hmem => (hpads pad hmem).trans hnext⟩

/-- Appended keys have neutral values, all the same. -/
theorem alike_values_appendKeys (s : Site) (c : Scope) (d : Dict Value) (ks : List Value) :
    Alike (d.appendKeys c ks).vals.values
      (d.vals.values ++ List.replicate ks.length (d.vals.padding s)) := by
  obtain ⟨pads, hvalues, hlen, hpads⟩ := exists_pads s c d ks
  have hbare : pads.map bare = List.replicate ks.length (bare (d.vals.padding s)) := by
    refine List.eq_replicate_iff.2 ⟨by rw [List.length_map, hlen], fun u hu => ?_⟩
    obtain ⟨pad, hpad, rfl⟩ := List.mem_map.1 hu
    exact hpads pad hpad
  rw [hvalues]
  refine Alike.append (.refl _) ?_
  rw [alike_list, List.map_replicate]
  exact hbare

/-- At the positions of new keys, a level checks what will pad the values. -/
theorem alike_slot_appendKeys (s : Site) (c : Scope) {d : Dict Value} {ks : List Value}
    (hd : d.Paired) {p : Nat} (hp : p < d.len + ks.length) :
    Alike ((d.appendKeys c ks).vals.at? p) (some (d.vals.slotAt s p)) := by
  have hvalues := alike_values_appendKeys s c d ks
  have hp : p < d.vals.values.length + ks.length := by
    rw [hd.2.2.length_values, ← hd.1]
    exact hp
  have hget := hvalues.getElem? p
  rwa [getElem?_append_replicate _ hp] at hget

/-- Without positions there are no keys to append. -/
theorem missing_eq_nil (settings : Settings) (d : Dict Value) {y : Value}
    (h : (d.placement settings y).selection.positions = []) :
    (d.placement settings y).missing = [] := by
  have hplace (len : Nat) (found : List (Value × Option Nat)) (missing : List Value)
      (h : (placeKeys len missing found).1 = []) : (placeKeys len missing found).2 = missing := by
    cases found with
    | nil => rfl
    | cons e found =>
      obtain ⟨k, p⟩ := e
      cases p <;> cases h
  unfold Dict.placement at h ⊢
  split
  · rfl
  · rename_i keys
    split
    · rfl
    · rename_i hnone
      simp only [hnone] at h
      exact hplace _ _ _ h
  · unfold Dict.placeOne at h ⊢
    split
    · rfl
    · rename_i hnone
      simp only [hnone] at h
      cases h

/-! ## Whole paths -/

/-- Both updates go through and leave equal values, or both fail. -/
def Outcome.SameEnd (o r : Outcome Value) : Prop :=
  (o.failure = none ∧ r.failure = none ∧ o.slot.eqv r.slot = true) ∨
    ((∃ e, o.failure = some e) ∧ ∃ e, r.failure = some e)

section Ends

variable {settings : Settings} {f g : Value} {dyadic : Bool} {head next : Value}
  {rest : List Value} (hfun : f.isFunction = true) (hgun : g.isFunction = true)
  (h : Descends dyadic (Value.amendAlong settings (.ofValue settings f) (next :: rest))
    (g.apply settings))
include hfun hgun h

omit h in
theorem operands_eq_ofSelection (z : Option Value) (sel : Selection) :
    (Callee.ofValue settings f).operands z sel = Operands.ofSelection z sel ∧
      (Callee.ofValue settings g).operands z sel = Operands.ofSelection z sel :=
  ⟨if_pos hfun, if_pos hgun⟩

theorem sameEnd_array (c c' : Scope) {a : Arr Value} (ha : WellFormed a)
    (hhead : ∀ w, head ≠ .array (.list w)) {z : Option Value} (hz : WellFormed z)
    (hsome : z.isSome = dyadic) :
    (Value.amendAlong settings (.ofValue settings f) (head :: next :: rest) c (.array a)
      z).SameEnd ((Value.array a).amend settings c' head (.ofValue settings g) z) := by
  show Outcome.SameEnd _ ((amendFn settings (.ofValue settings g) head c' a z).map Value.array)
  rw [amendFn_of_not_list settings _ hhead, amendAtIndex]
  cases hsel : Selection.ofIndex a.len head with
  | error e =>
    -- An index that does not fit is refused on both sides, and so are the operands below.
    have hopen : a.openLevel c.site head (.ofValue settings f) z = .error e := by
      rw [Arr.openLevel, hsel]
      rfl
    simp only [Value.amendAlong, hopen]
    exact .inr ⟨⟨_, rfl⟩, _, rfl⟩
  | ok sel =>
    obtain ⟨hopf, hopg⟩ := @operands_eq_ofSelection settings f g hfun hgun z sel
    have hlt : ∀ p ∈ sel.positions, p < a.len := fun p hp => Selection.lt_of_ofIndex hsel hp
    simp only
    rw [amendAt_eq_revise settings (real_ofValue settings g) ha hz hlt, hopg]
    have hsafe := everywhere_ofSelection sel hz
    cases hop : Operands.ofSelection z sel with
    | error e =>
      have hopen : a.openLevel c.site head (.ofValue settings f) z = .error e := by
        rw [Arr.openLevel, hsel]
        show (Callee.operands _ z sel >>= _) = _
        rw [hopf, hop]
        rfl
      simp only [Value.amendAlong, hopen]
      exact .inr ⟨⟨_, rfl⟩, _, rfl⟩
    | ok ops =>
      rw [hop] at hsafe
      rw [hop] at hopf
      have hiff := @Arr.openLevel_eq_ok c.site a head (.ofValue settings f) z sel ops
      have hdyadic : ops.Dyadic sel.positions.length dyadic :=
        hsome ▸ isSome_at?_of_ofSelection hz hop
      by_cases hnil : sel.positions = []
      · -- Where nothing is selected nothing is called, and canonical storage is not seen.
        have hopen := hiff.2 ⟨hsel, hopf, fun hne => absurd hnil hne⟩
        have hsteps : Arr.steps c' (.ofValue settings g) ops sel = [] := by
          rw [Arr.steps, hnil]
          rfl
        simp only [Value.amendAlong, hopen, hnil, List.isEmpty_nil, if_true, hsteps]
        exact .inl ⟨rfl, rfl, arrEqv_of_values (alike_values_canonical _ a).symm⟩
      · -- An array does not grow, so what stands at a position is what the level checks.
        have hslots : ∀ p ∈ sel.positions, Alike (a.at? p) (some (a.slotAt c.site p)) := by
          intro p hp
          have hp : p < a.values.length := by
            rw [ha.length_values]
            exact hlt p hp
          rw [Arr.slotAt, Arr.at?, List.getElem?_eq_getElem hp]
          exact .refl _
        rcases level_follows h hsafe hnil hdyadic c.site c (c'.sub 0)
          (fun k => c'.site.sub (k + 1)) ha ha (.refl a) hslots with
          ⟨hcontainers, hnone, hnone', hvalues⟩ | ⟨hfail, hfail'⟩
        · have hopen := hiff.2 ⟨hsel, hopf, fun _ => hcontainers⟩
          simp only [Value.amendAlong, hopen, List.isEmpty_eq_false_iff.2 hnil,
            Bool.false_eq_true, if_false]
          exact .inl ⟨hnone, hnone', arrEqv_of_values hvalues⟩
        · -- What the call refuses, the level may have refused before.
          refine .inr ⟨?_, hfail'⟩
          simp only [Value.amendAlong]
          cases hopen : a.openLevel c.site head (.ofValue settings f) z with
          | error e => exact ⟨_, rfl⟩
          | ok level =>
            obtain ⟨sel', ops'⟩ := level
            obtain ⟨hsel', hop', hcontainers⟩ := Arr.openLevel_eq_ok.1 hopen
            cases hsel.symm.trans hsel'
            cases hopf.symm.trans hop'
            simp only [List.isEmpty_eq_false_iff.2 hnil, Bool.false_eq_true, if_false]
            exact hfail (hcontainers hnil)

theorem sameEnd_dict (c c' : Scope) (s : Site) {d : Dict Value} (hd : d.Paired)
    (hhead : WellFormed head) {z : Option Value} (hz : WellFormed z)
    (hsome : z.isSome = dyadic) :
    (Value.amendAlong settings (.ofValue settings f) (head :: next :: rest) c (.dict s d)
      z).SameEnd ((Value.dict s d).amend settings c' head (.ofValue settings g) z) := by
  show Outcome.SameEnd _
    ((d.amend settings c' head (.ofValue settings g) z).map (Value.dict (c'.own s)))
  simp only [Value.amendAlong, Dict.amend]
  have hmissing := everywhere_missing settings d hhead
  have hempty := missing_eq_nil settings d (y := head)
  have hlen (c : Scope) : (d.appendKeys c (d.placement settings head).missing).len =
      d.len + (d.placement settings head).missing.length := len_appendKeys hd hmissing
  have hplaces := placement_lt settings hd.2.1 head
  generalize d.placement settings head = plan at hmissing hempty hlen hplaces ⊢
  obtain ⟨hopf, hopg⟩ := @operands_eq_ofSelection settings f g hfun hgun z plan.selection
  rw [hopg]
  have hsafe := everywhere_ofSelection plan.selection hz
  cases hop : Operands.ofSelection z plan.selection with
  | error e =>
    have hopen : d.openLevel c.site plan (.ofValue settings f) z = .error e := by
      rw [Dict.openLevel, hopf, hop]
      rfl
    simp only [hopen]
    exact .inr ⟨⟨_, rfl⟩, _, rfl⟩
  | ok ops =>
    rw [hop] at hsafe hopf
    -- The two ways make the new entries at sites of their own.
    have hgrown := paired_appendKeys (c := c.sub 0) hd hmissing
    have hgrown' := paired_appendKeys (c := c'.sub 0) hd hmissing
    obtain ⟨hkeys, hvals⟩ := alike_entries.1
      (alike_appendKeys (c.sub 0) (c'.sub 0) (.refl d) (.refl plan.missing))
    have hlt : ∀ p ∈ plan.selection.positions,
        p < (d.appendKeys (c'.sub 0) plan.missing).vals.len := by
      intro p hp
      rw [← hgrown'.1]
      exact Nat.lt_of_lt_of_eq (hplaces p hp) (hlen _).symm
    have hiff := @Dict.openLevel_eq_ok c.site d plan (.ofValue settings f) z ops
    have hdyadic : ops.Dyadic plan.selection.positions.length dyadic :=
      hsome ▸ isSome_at?_of_ofSelection hz hop
    simp only
    rw [amendAt_eq_revise settings (real_ofValue settings g) hgrown'.2.2 hz hlt, hopg, hop]
    by_cases hnil : plan.selection.positions = []
    · have hopen := hiff.2 ⟨hopf, fun hne => absurd hnil hne⟩
      have hsteps (c : Scope) :
          Arr.steps c (.ofValue settings g) ops plan.selection = [] := by
        rw [Arr.steps, hnil]
        rfl
      simp only [hopen, hnil, List.isEmpty_nil, if_true, hsteps, hempty hnil]
      exact .inl ⟨rfl, rfl, dictEqv_of_values (.refl _) (alike_values_canonical _ d.vals).symm⟩
    · have hslots : ∀ p ∈ plan.selection.positions,
          Alike ((d.appendKeys (c.sub 0) plan.missing).vals.at? p)
            (some (d.vals.slotAt c.site p)) :=
        fun p hp => alike_slot_appendKeys c.site (c.sub 0) hd (hplaces p hp)
      rcases level_follows h hsafe hnil hdyadic c.site ((c.sub 1).beside _)
        ((((c'.sub 1).beside _).sub 0)) (fun k => ((c'.sub 1).beside _).site.sub (k + 1))
        hgrown.2.2 hgrown'.2.2 hvals hslots with
        ⟨hcontainers, hnone, hnone', hvalues⟩ | ⟨hfail, hfail'⟩
      · have hopen := hiff.2 ⟨hopf, fun _ => hcontainers⟩
        simp only [hopen, List.isEmpty_eq_false_iff.2 hnil, Bool.false_eq_true, if_false]
        exact .inl ⟨hnone, hnone', dictEqv_of_values hkeys.values hvalues⟩
      · refine .inr ⟨?_, hfail'⟩
        cases hopen : d.openLevel c.site plan (.ofValue settings f) z with
        | error e => exact ⟨_, rfl⟩
        | ok ops' =>
          obtain ⟨hop', hcontainers⟩ := Dict.openLevel_eq_ok.1 hopen
          cases hopf.symm.trans hop'
          simp only [List.isEmpty_eq_false_iff.2 hnil, Bool.false_eq_true, if_false]
          exact hfail (hcontainers hnil)

end Ends

/-- An amend along a path of at least two components is an amend at the first of them, by the
function that amends an element along the other components: the one goes through if the other
does, and then the values are equal. The index of an array must not be a list of indices, which
a path does not allow. -/
theorem amended_path_eqv_flat (settings : Settings) (c c' : Scope) (x f path head q : Value)
    (z : Option Value) (s : Site) (name : String) (hx : WellFormed x) (hf : WellFormed f)
    (hpath : WellFormed path) (hq : WellFormed q) (hz : WellFormed z)
    (hcomponents : path.components = head :: q.components) (hrest : q.components ≠ [])
    (hlimit : path.components.length ≤ settings.pathLimit)
    (hhead : x.array?.isSome → ∀ w, head ≠ .array (.list w)) (hfun : f.isFunction = true)
    (hpure : f.IsPure settings (updateArity z.isSome)) :
    let deep := x.amended settings .path c path f z
    let flat := x.amended settings .flat c' head (Value.descent s name f q z.isSome) z
    ((∃ v, deep = .ok v) ↔ ∃ w, flat = .ok w) ∧
      ∀ v w, deep = .ok v → flat = .ok w → v.eqv w = true := by
  intro deep flat
  obtain ⟨next, rest, hq'⟩ := List.exists_cons_of_ne_nil hrest
  have hhead' : WellFormed head ∧ WellFormed q.components := by
    have hwf := everywhere_components hpath
    rw [hcomponents] at hwf
    exact (everywhere_cons ..).1 hwf
  have hshorter : q.components.length ≤ settings.pathLimit := by
    rw [hcomponents, List.length_cons] at hlimit
    omega
  have h := descends_descent (blind_ofValue hf hpure) hq hrest hshorter s name
  rw [hq'] at h
  -- Nothing leads into what is no container, and it is refused by either amend.
  have hend : (Value.amendAlong settings (.ofValue settings f) path.components c x z).SameEnd
      (x.amend settings c' head
        (.ofValue settings (Value.descent s name f q z.isSome)) z) := by
    rw [hcomponents, hq']
    cases x with
    | array a => exact sameEnd_array hfun rfl h c c' ((everywhere_array a).1 hx) (hhead rfl) hz rfl
    | dict t d => exact sameEnd_dict hfun rfl h c c' t (wellFormed_dict.1 hx) hhead'.1 hz rfl
    | _ => exact .inr ⟨⟨_, rfl⟩, _, rfl⟩
  have hdeep := amended_path hlimit c x f z
  have hflat := amended_flat settings c' x head (Value.descent s name f q z.isSome) z
  rw [show deep = _ from hdeep, show flat = _ from hflat]
  generalize Value.amendAlong settings (.ofValue settings f) path.components c x z = o at hend
  generalize x.amend settings c' head _ z = r at hend
  obtain ⟨v, failure⟩ := o
  obtain ⟨w, failure'⟩ := r
  rcases hend with ⟨hnone, hnone', heqv⟩ | ⟨⟨e, he⟩, e', he'⟩
  · cases hnone
    cases hnone'
    refine ⟨⟨fun _ => ⟨w, rfl⟩, fun _ => ⟨v, rfl⟩⟩, fun v' w' hv hw => ?_⟩
    cases hv
    cases hw
    exact heqv
  · cases he
    cases he'
    exact ⟨⟨nofun, nofun⟩, nofun⟩

/-- The first element of the second of two arrays in a list is replaced. -/
theorem amended_path_eqv_flat_replace :
    let x : Value := .array (.list (.ofList ⟨[1]⟩
      [.array (.ints (.ofList ⟨[2]⟩ [1, 2])), .array (.ints (.ofList ⟨[3]⟩ [3, 4]))]))
    let path : Value := .array (.ints (.ofList ⟨[4]⟩ [1, 0]))
    let q : Value := .array (.ints (.ofList ⟨[5]⟩ [0]))
    let f : Value := .builtin .right
    let z : Option Value := some (.int 9)
    let c : Scope := ⟨[], ⟨[0]⟩⟩
    let deep := x.amended {} .path c path f z
    let flat := x.amended {} .flat c (.int 1) (.descent ⟨[6]⟩ "g" f q z.isSome) z
    (WellFormed x ∧ WellFormed f ∧ WellFormed path ∧ WellFormed q ∧ WellFormed z ∧
        path.components = .int 1 :: q.components ∧ q.components ≠ [] ∧
        path.components.length ≤ ({} : Settings).pathLimit ∧ f.isFunction = true ∧
        f.IsPure {} (updateArity z.isSome)) ∧
      (∃ v, deep = .ok v) ∧
      ((∃ v, deep = .ok v) ↔ ∃ w, flat = .ok w) ∧
        ∀ v w, deep = .ok v → flat = .ok w → v.eqv w = true := by
  intro x path q f z c deep flat
  have hpure : f.IsPure {} (updateArity z.isSome) := isPure_right {}
  exact ⟨⟨by decide, by decide, by decide, by decide, by decide, rfl, nofun, by decide, rfl,
    hpure⟩, ⟨_, rfl⟩,
    amended_path_eqv_flat {} c c x f path (.int 1) q z ⟨[6]⟩ "g" (by decide) (by decide)
      (by decide) (by decide) (by decide) rfl nofun (by decide) (fun _ => nofun) rfl hpure⟩

end SharedArrays
