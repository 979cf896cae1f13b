import SharedArrays.Proofs.Fold
import SharedArrays.Proofs.Store.Made

/-!
# The events of an index

An index of an array is flattened into events, from left to right: replace one element, or stop with
a failure. The events are played over a list of elements, and the first failure ends the play.

The calls of an amend make their objects at sites of their own. So there are two ways to play: with
a site for each event, which is what an amend does with any function, and with one and the same
function for all events, which comes to the same for a pure function.

## Main definitions

* `Event`, `play` — what happens to a list of elements, and playing events
* `playAt` — playing events with a site for each call
* `spread` — one right operand for each of several places
* `indexEvents` — the events that an index stands for
* `numbered`, `Sited` — events with sites, which lie apart from one another

## Main results

* `ofIndex_eq` — an index is resolved just if its leaf has no failure
* `playAt_numbered` — writes one after the other are a fold
* `fits_indexEvents` — the operands of the events are those of the index
-/

namespace SharedArrays

/-! ## Events -/

/-- Something that happens to a list of elements. -/
inductive Event where
  /-- Element `i` is replaced by a function of it, and of the operand if there is one. -/
  | write (i : Nat) (operand : Option Value)
  | reject (e : Failure Value)

/-- Plays events over a list of elements, up to the first failure. What was written stays. -/
def play (call : List Value → Result Value) : List Event → List Value → Outcome (List Value)
  | [], vs => .done vs
  | .reject e :: _, vs => .failed vs e
  | .write i z :: rest, vs =>
    match call (vs[i]?.getD .nil :: z.toList) with
    | .error e => .failed vs e
    | .ok v => play call rest (vs.set i v)

/-- Plays events over a list of elements, where each call is made at the site beside its event. -/
def playAt (call : Site → List Value → Result Value) :
    List (Site × Event) → List Value → Outcome (List Value)
  | [], vs => .done vs
  | (_, .reject e) :: _, vs => .failed vs e
  | (s, .write i z) :: rest, vs =>
    match call s (vs[i]?.getD .nil :: z.toList) with
    | .error e => .failed vs e
    | .ok v => playAt call rest (vs.set i v)

/-- One right operand for each of `count` places. An array has one element for each of them, and
anything else goes to each of them as a whole. -/
def spread (count : Nat) : Option Value → Result (List (Option Value))
  | some (.array a) =>
    if a.len = count then .ok (a.values.map some)
    else .error (.length "indices vs values" count a.len)
  | z => .ok (List.replicate count z)

/-- The indices in a leaf of an index, if it is one, for a list of `n` elements. -/
def leafIndices (n : Nat) : Value → Option (List Int)
  | .nil => some ((List.range n).map Int.ofNat)
  | .int i => some [i.toInt]
  | .array (.ints w) => some (w.items.map Int64.toInt)
  | .array (.bools w) => some (w.items.map fun b => if b then 1 else 0)
  | _ => none

/-- The right operands of a leaf with `count` indices: a single index takes all of `z`. -/
def leafOperands (count : Nat) (z : Option Value) : Value → Result (List (Option Value))
  | .int _ => .ok [z]
  | _ => spread count z

/-- The events that a leaf of an index stands for. A leaf is rejected as a whole. -/
def leafEvents (n : Nat) (f y : Value) (z : Option Value) : List Event :=
  match leafIndices n y with
  | none => [.reject (.type "int index" y.typeName)]
  | some is =>
    match is.find? fun i : Int => !decide (0 ≤ i ∧ i < n) with
    | some bad => [.reject (.outOfBounds (Int64.ofInt bad) n)]
    | none =>
      if f.isFunction then
        match leafOperands is.length z y with
        | .error e => [.reject e]
        | .ok zs => (is.zip zs).map fun (i, z) => .write i.toNat z
      else [.reject (.type "function" f.typeName)]

mutual

/-- The events that an index stands for: those of its leaves, from left to right. -/
def indexEvents (n : Nat) (f : Value) : Value → Option Value → List Event
  | .array a => arrIndexEvents n f a
  | y => leafEvents n f y

/-- The events that an index stands for which is an array. -/
def arrIndexEvents (n : Nat) (f : Value) : Arr Value → Option Value → List Event
  | .list ⟨_, buf, off, len, _⟩ => fun z =>
    match spread len z with
    | .error e => [.reject e]
    | .ok zs => (List.zipWith (· ·) (stretch off len (indexEventsFns n f buf)) zs).flatten
  | a => leafEvents n f (.array a)

/-- For each value of a buffer the events that it stands for as an index. -/
def indexEventsFns (n : Nat) (f : Value) : List Value → List (Option Value → List Event)
  | [] => []
  | y :: ys => indexEvents n f y :: indexEventsFns n f ys

end

theorem indexEventsFns_eq_map (n : Nat) (f : Value) (ys : List Value) :
    indexEventsFns n f ys = ys.map (indexEvents n f) := by
  induction ys with
  | nil => rfl
  | cons y ys ih => rw [indexEventsFns, ih, List.map_cons]

theorem indexEvents_list (n : Nat) (f : Value) (w : Window Value) (z : Option Value) :
    indexEvents n f (.array (.list w)) z =
      match spread w.len z with
      | .error e => [.reject e]
      | .ok zs => (List.zipWith (indexEvents n f) w.items zs).flatten := by
  have hzip (zs : List (Option Value)) :
      List.zipWith (· ·) (stretch w.off w.len (indexEventsFns n f w.buf)) zs =
        List.zipWith (indexEvents n f) w.items zs := by
    rw [indexEventsFns_eq_map, stretch_map, List.zipWith_map_left]
    rfl
  simp only [← hzip]
  rfl

theorem indexEvents_of_not_list (n : Nat) (f : Value) {y : Value}
    (hy : ∀ w, y ≠ .array (.list w)) : indexEvents n f y = leafEvents n f y := by
  cases y with
  | array a =>
    cases a with
    | list w => exact absurd rfl (hy w)
    | _ => rfl
  | _ => rfl

/-! ## Leaves -/

theorem spread_eq (count : Nat) {z : Option Value} (hz : WellFormed z) :
    spread count z = (Operands.forMany count z).map (Operands.toList count) := by
  have hwhole (z : Option Value) : List.replicate count z = (List.range count).map fun _ => z := by
    rw [List.map_const', List.length_range]
  cases z with
  | none => exact congrArg Except.ok (hwhole none)
  | some z =>
    cases z with
    | array a =>
      have ha : WellFormed a := (everywhere_array a).1 hz
      simp only [spread, Operands.forMany]
      by_cases hlen : a.len = count
      · rw [if_pos hlen, if_pos hlen]
        refine congrArg Except.ok (List.ext_getElem ?_ fun k hk _ => ?_)
        · simp [Operands.toList, ha.length_values, hlen]
        · have hk : k < a.values.length := by simpa using hk
          simp [Operands.toList, Operands.at?, Arr.at?, hk]
      · rw [if_neg hlen, if_neg hlen]
        rfl
    | _ => exact congrArg Except.ok (hwhole (some _))

/-- The first index that is out of range decides; otherwise all of them are positions. -/
theorem mapM_position {α : Type} (n : Nat) (index : α → Int64) (xs : List α) :
    xs.mapM (fun x => position n (index x)) =
      match (xs.map fun x => (index x).toInt).find? fun i : Int => !decide (0 ≤ i ∧ i < n) with
      | some bad => .error (.outOfBounds (Int64.ofInt bad) n)
      | none => .ok ((xs.map fun x => (index x).toInt).map Int.toNat) := by
  induction xs with
  | nil => rfl
  | cons x xs ih =>
    rw [List.mapM_cons, ih, position, List.map_cons, List.find?_cons]
    by_cases hx : 0 ≤ (index x).toInt ∧ (index x).toInt < n
    · rw [if_pos hx]
      simp only [hx, and_self, decide_true, Bool.not_true]
      generalize (xs.map fun x => (index x).toInt).find? _ = bad?
      cases bad? <;> rfl
    · rw [if_neg hx]
      simp only [hx, decide_false, Bool.not_false, Int64.ofInt_toInt]
      rfl

/-- The positions of a leaf: a single index selects one, all other leaves any number. -/
def leafSelection (is : List Int) : Value → Selection
  | .int i => .one i.toInt.toNat
  | _ => .many (is.map Int.toNat)

theorem ofIndex_eq (n : Nat) (y : Value) :
    Selection.ofIndex n y =
      match leafIndices n y with
      | none => .error (.type "int index" y.typeName)
      | some is =>
        match is.find? fun i : Int => !decide (0 ≤ i ∧ i < n) with
        | some bad => .error (.outOfBounds (Int64.ofInt bad) n)
        | none => .ok (leafSelection is y) := by
  -- Typed indices differ in how an element is read as an integer, and in nothing else.
  have hmany {α : Type} (index : α → Int64) (xs : List α) :
      (do return Selection.many (← xs.mapM fun x => position n (index x)) : Result Selection) =
        match (xs.map fun x => (index x).toInt).find? fun i : Int => !decide (0 ≤ i ∧ i < n) with
        | some bad => .error (.outOfBounds (Int64.ofInt bad) n)
        | none => .ok (.many ((xs.map fun x => (index x).toInt).map Int.toNat)) := by
    rw [mapM_position]
    generalize (xs.map fun x => (index x).toInt).find? _ = bad?
    cases bad? <;> rfl
  cases y with
  | nil =>
    have hall : ((List.range n).map Int.ofNat).find?
        (fun i : Int => !decide (0 ≤ i ∧ i < n)) = none := by
      rw [List.find?_eq_none]
      intro i hi
      obtain ⟨k, hk, rfl⟩ := List.mem_map.1 hi
      have := List.mem_range.1 hk
      simp
      omega
    have hrange : ((List.range n).map Int.ofNat).map Int.toNat = List.range n := by
      rw [List.map_map]
      exact List.map_id _
    simp only [leafIndices, hall, leafSelection, hrange]
    rfl
  | int i =>
    simp only [Selection.ofIndex, leafIndices, position, List.find?_cons, List.find?_nil]
    by_cases hi : 0 ≤ i.toInt ∧ i.toInt < n
    · simp only [hi, and_self, decide_true, Bool.not_true, if_true]
      rfl
    · simp only [hi, decide_false, Bool.not_false, if_false, Int64.ofInt_toInt]
      rfl
  | array a =>
    cases a with
    | ints w => exact hmany (fun i => i) w.items
    | bools w =>
      have hints : (w.items.map fun b => (if b then 1 else 0 : Int64).toInt) =
          w.items.map fun b => (if b then 1 else 0 : Int) :=
        List.map_congr_left fun b _ => by cases b <;> rfl
      have hleaf := hmany (fun b : Bool => if b then 1 else 0) w.items
      rw [hints] at hleaf
      exact hleaf
    | _ => rfl
  | _ => rfl

theorem positions_leafSelection {n : Nat} {y : Value} {is : List Int}
    (h : leafIndices n y = some is) : (leafSelection is y).positions = is.map Int.toNat := by
  cases y with
  | int i => cases h; rfl
  | _ => rfl

theorem leafOperands_eq {n : Nat} {y : Value} {is : List Int} (h : leafIndices n y = some is)
    {z : Option Value} (hz : WellFormed z) :
    leafOperands is.length z y =
      (Operands.ofSelection z (leafSelection is y)).map (Operands.toList is.length) := by
  have hmany : spread is.length z =
      (Operands.ofSelection z (.many (is.map Int.toNat))).map (Operands.toList is.length) := by
    rw [Operands.ofSelection, List.length_map]
    exact spread_eq is.length hz
  cases y with
  | int i =>
    cases h
    cases z <;> rfl
  | _ => exact hmany

/-! ## Events with sites -/

section Sites

variable {s : Site} {call : Site → List Value → Result Value} {es es' : List (Site × Event)}
  {vs : List Value}

/-- Events with the parts of `s` as sites, from the `k`-th on. -/
def numbered (s : Site) (k : Nat) (es : List Event) : List (Site × Event) :=
  (es.zipIdx k).map fun e => (s.sub e.2, e.1)

theorem map_snd_numbered (s : Site) (k : Nat) (es : List Event) :
    (numbered s k es).map Prod.snd = es := by
  rw [numbered, List.map_map]
  exact List.zipIdx_map_fst k es

/-- The sites of the events lie at and below the parts of `s` from the `k`-th on, and apart. -/
structure Sited (s : Site) (k : Nat) (es : List (Site × Event)) : Prop where
  inside : ∀ e ∈ es, s.From k e.1
  apart : es.Pairwise fun e e' => e.1.Apart e'.1

theorem sited_numbered (s : Site) (k : Nat) (es : List Event) : Sited s k (numbered s k es) := by
  refine ⟨fun e he => ?_, List.pairwise_map.2 ?_⟩
  · obtain ⟨e, hmem, rfl⟩ := List.mem_map.1 he
    exact Site.from_of_sub (List.le_snd_of_mem_zipIdx hmem) (Site.covers_refl _)
  · exact (pairwise_zipIdx es).imp fun h => Site.Apart.sub (Nat.ne_of_lt h)

/-- Sites below one part, and sites from the next part on. -/
theorem Sited.append {k : Nat} (h : Sited (s.sub k) 0 es) (h' : Sited s (k + 1) es') :
    Sited s k (es ++ es') := by
  refine ⟨fun e he => ?_, List.pairwise_append.2 ⟨h.apart, h'.apart, fun e he e' he' => ?_⟩⟩
  · rcases List.mem_append.1 he with he | he
    · exact Site.from_of_sub (Nat.le_refl k) (h.inside e he).covers
    · exact (h'.inside e he).mono (Nat.le_succ k)
  · obtain ⟨j, hj, hcovers⟩ := h'.inside e' he'
    exact (Site.Apart.sub (Nat.ne_of_lt hj)).of_covers (h.inside e he).covers hcovers

/-- Writes one after the other are the fold. -/
theorem playAt_numbered (call : Site → List Value → Result Value) (s : Site) (k : Nat)
    (es : List (Nat × Option Value)) (vs : List Value) :
    playAt call (numbered s (k + 1) (es.map fun e => .write e.1 e.2)) vs =
      foldWrites (fun k => call (s.sub (k + 1))) k es vs := by
  induction es generalizing k vs with
  | nil => rfl
  | cons e es ih =>
    simp only [numbered, List.map_cons, List.zipIdx_cons, playAt, foldWrites]
    cases call (s.sub (k + 1)) (vs[e.1]?.getD .nil :: e.2.toList) with
    | error e => rfl
    | ok v => exact ih (k + 1) _

/-- After events that go through, the other events play over what they leave. -/
theorem playAt_append_of_done (h : (playAt call es vs).failure = none) :
    playAt call (es ++ es') vs = playAt call es' (playAt call es vs).slot := by
  induction es generalizing vs with
  | nil => rfl
  | cons e es ih =>
    obtain ⟨s, e⟩ := e
    cases e with
    | reject e => cases h
    | write i z =>
      simp only [List.cons_append, playAt] at h ⊢
      cases hcall : call s (vs[i]?.getD .nil :: z.toList) with
      | error e => rw [hcall] at h; cases h
      | ok v =>
        rw [hcall] at h
        exact ih h

/-- The first failure ends the play. -/
theorem playAt_append_of_failed {e : Failure Value} (h : (playAt call es vs).failure = some e) :
    playAt call (es ++ es') vs = playAt call es vs := by
  induction es generalizing vs with
  | nil => cases h
  | cons e es ih =>
    obtain ⟨s, e⟩ := e
    cases e with
    | reject e => rfl
    | write i z =>
      simp only [List.cons_append, playAt] at h ⊢
      cases hcall : call s (vs[i]?.getD .nil :: z.toList) with
      | error e => rfl
      | ok v =>
        rw [hcall] at h
        exact ih h

end Sites

/-! ## Operands of events -/

/-- The operand of a write is well-formed, and there is one just if the update is dyadic. -/
def Event.Fits (dyadic : Bool) : Event → Prop
  | .write _ z => WellFormed z ∧ z.isSome = dyadic
  | .reject _ => True

theorem fits_spread {count : Nat} {z : Option Value} (hz : WellFormed z)
    {zs : List (Option Value)} (h : spread count z = .ok zs) :
    ∀ u ∈ zs, WellFormed u ∧ u.isSome = z.isSome := by
  rw [spread_eq count hz] at h
  cases hop : Operands.forMany count z with
  | error e => rw [hop] at h; cases h
  | ok operands =>
    have hoperands := everywhere_forMany count hz
    rw [hop] at h hoperands
    cases h
    intro u hu
    obtain ⟨k, hk, rfl⟩ := List.mem_map.1 hu
    exact ⟨Operands.everywhere_at? hoperands k,
      isSome_at?_of_forMany hz hop k (List.mem_range.1 hk)⟩

theorem fits_leafEvents (n : Nat) (f y : Value) {z : Option Value} (hz : WellFormed z) :
    ∀ e ∈ leafEvents n f y z, e.Fits z.isSome := by
  have hreject (e : Failure Value) : ∀ e' ∈ [Event.reject e], e'.Fits z.isSome := by
    intro e' he'
    cases List.mem_singleton.1 he'
    trivial
  unfold leafEvents
  split
  · exact hreject _
  split
  · exact hreject _
  split
  · split
    · exact hreject _
    · rename_i is _ _ _ zs hzs
      have hfits : ∀ u ∈ zs, WellFormed u ∧ u.isSome = z.isSome := by
        unfold leafOperands at hzs
        split at hzs
        · cases hzs
          exact List.forall_mem_singleton.2 ⟨hz, rfl⟩
        · exact fits_spread hz hzs
      intro e he
      obtain ⟨⟨i, u⟩, hmem, rfl⟩ := List.mem_map.1 he
      exact hfits u (List.of_mem_zip hmem).2
  · exact hreject _

theorem fits_indexEvents (n : Nat) (f : Value) {y : Value} {z : Option Value}
    (hz : WellFormed z) : ∀ e ∈ indexEvents n f y z, e.Fits z.isSome := by
  have leaf {y : Value} (hy : ∀ w, y ≠ .array (.list w)) {z : Option Value} (hz : WellFormed z) :
      ∀ e ∈ indexEvents n f y z, e.Fits z.isSome := by
    rw [indexEvents_of_not_list n f hy]
    exact fits_leafEvents n f y hz
  induction y using Value.nest_induction generalizing z with
  | leaf y hleaf => exact leaf (by rintro w rfl; cases hleaf) hz
  | dict t keys vals _ _ => exact leaf (fun w h => by cases h) hz
  | error t v _ => exact leaf (fun w h => by cases h) hz
  | array y ih =>
    cases y with
    | list w =>
      rw [indexEvents_list]
      cases hzs : spread w.len z with
      | error e => exact List.forall_mem_singleton.2 trivial
      | ok zs =>
        intro e he
        obtain ⟨es, hes, he⟩ := List.mem_flatten.1 he
        rw [← List.map_uncurry_zip_eq_zipWith] at hes
        obtain ⟨⟨u, v⟩, huv, rfl⟩ := List.mem_map.1 hes
        obtain ⟨hu, hv⟩ := List.of_mem_zip huv
        obtain ⟨hwf, hsome⟩ := fits_spread hz hzs v hv
        exact hsome ▸ ih u (Window.mem_of_mem_items hu) hwf e he
    | _ => exact leaf (fun w h => by cases h) hz

end SharedArrays
