import SharedArrays.Proofs.Store.Steps

/-!
# Amends and the store

An amend changes its slot. What else is alive lies in the store afterwards as it did before,
whatever the slot shares with it, and also when the amend fails on the way: a write that would be
seen through another handle goes to a new object.

## Main definitions

* `Scope.Turns` — a change of a value in surroundings that stay as they are
* `Arr.Tidy` — the same for an array whose buffer may belong to it alone
* `Scope.Keeps` — what lies in every store that has what the surroundings hold
* `Callee.Makes` — a function that makes its answers

## Main results

* `turns_of_tidy` — taking the buffer out of the store and putting it back
* `tidy_amendAt`, `turns_amendFn` — amends of arrays
* `turns_dictAmend` — amends of dictionaries
* `turns_amend`, `turns_amendAlong`, `turns_amendPath` — amends of values
-/

namespace SharedArrays

/-! ## Changes in surroundings -/

section Turns

variable {α β γ : Type} [HasNodes α] [HasNodes β] [HasNodes γ] {c : Scope} {S T U : Site → Prop}
  {x : α} {y : β} {z : γ}

/-- A change of `x` leaves `y`, makes objects in `S`, and changes nothing that the surroundings
hold. -/
def Scope.Turns (c : Scope) (S : Site → Prop) (x : α) (y : β) : Prop :=
  ∀ st : Store, (∀ t, S t → st t = none) → LiesIn st c.held → LiesIn st x →
    ∃ st', c.Allows S st st' ∧ LiesIn st' y

/-- The value lies in every store that has what the surroundings hold. -/
def Scope.Keeps (c : Scope) (x : α) : Prop := ∀ st, LiesIn st c.held → LiesIn st x

theorem Scope.Keeps.beside (h : c.Keeps x) (vs : List Value) : (c.beside vs).Keeps x :=
  fun st hheld => h st ((everywhere_append ..).1 hheld).1

theorem turns_of_liesIn (h : ∀ st, LiesIn st x → LiesIn st y) : c.Turns S x y :=
  fun st _ _ hx => ⟨st, .refl c S st, h st hx⟩

theorem Scope.Turns.mono (h : c.Turns S x y) (hST : ∀ t, S t → T t) : c.Turns T x y := by
  intro st hfree hheld hx
  obtain ⟨st', hallows, hy⟩ := h st (fun t ht => hfree t (hST t ht)) hheld hx
  exact ⟨st', hallows.mono hST, hy⟩

theorem Scope.Turns.of_sub {k : Nat} (h : (c.sub k).Turns S x y) : c.Turns S x y := by
  intro st hfree hheld hx
  obtain ⟨st', hallows, hy⟩ := h st hfree hheld hx
  exact ⟨st', hallows.of_sub, hy⟩

theorem Scope.Turns.of_input (h : c.Turns S x y) (hzx : ∀ st, LiesIn st z → LiesIn st x) :
    c.Turns S z y := fun st hfree hheld hz => h st hfree hheld (hzx st hz)

theorem Scope.Turns.of_kept (h : c.Turns S x y) (hx : c.Keeps x) : c.Turns S z y :=
  fun st hfree hheld _ => h st hfree hheld (hx st hheld)

theorem Scope.Turns.to_output (h : c.Turns S x y) (hyz : ∀ st, LiesIn st y → LiesIn st z) :
    c.Turns S x z := by
  intro st hfree hheld hx
  obtain ⟨st', hallows, hy⟩ := h st hfree hheld hx
  exact ⟨st', hallows, hyz st' hy⟩

/-- Changes in a row. -/
theorem Scope.Turns.trans (hy : c.Turns S x y) (hz : c.Turns T y z) (hTS : ∀ t, T t → ¬S t)
    (hS : ∀ t, S t → U t) (hT : ∀ t, T t → U t) : c.Turns U x z := by
  intro st hfree hheld hx
  have hfreeS : ∀ t, S t → st t = none := fun t ht => hfree t (hS t ht)
  obtain ⟨st₁, hallows₁, hy⟩ := hy st hfreeS hheld hx
  have hfreeT : ∀ t, T t → st₁ t = none := hallows₁.free (fun t ht => hfree t (hT t ht)) hTS
  obtain ⟨st₂, hallows₂, hz⟩ := hz st₁ hfreeT (hallows₁.liesIn_held hfreeS hheld) hy
  exact ⟨st₂, (hallows₁.mono hS).trans (hallows₂.mono hT), hz⟩

/-- A part of an operation, and then the parts after it. -/
theorem Scope.Turns.andThen {i : Nat} (hy : c.Turns (c.site.sub i).Covers x y)
    (hz : c.Turns (c.site.From (i + 1)) y z) : c.Turns (c.site.From i) x z := by
  refine hy.trans hz (fun t ht hs => ?_) (fun t => Site.from_of_sub (Nat.le_refl i))
    fun t => Site.From.mono (Nat.le_succ i)
  exact Site.not_from_of_sub (Nat.lt_succ_self i) hs ht

/-- What is held beside is still there after the change. -/
theorem Scope.Turns.frame {vs : List Value} (h : (c.beside vs).Turns S x y) :
    c.Turns S (vs, x) (vs, y) := by
  intro st hfree hheld hx
  obtain ⟨hvs, hx⟩ := (everywhere_pair ..).1 hx
  have hheld' : LiesIn st (c.beside vs).held := (everywhere_append ..).2 ⟨hheld, hvs⟩
  obtain ⟨st', hallows, hy⟩ := h st hfree hheld' hx
  have hkept := hallows.liesIn_held hfree hheld'
  exact ⟨st', hallows.of_beside, (everywhere_pair ..).2 ⟨((everywhere_append ..).1 hkept).2, hy⟩⟩

/-- What is made from the value and what is held. -/
theorem Made.turns (h : Made S (x, c.held) y) : c.Turns S x y := by
  intro st hfree hheld hx
  obtain ⟨st', hsame, hy⟩ := h st hfree ((everywhere_pair ..).2 ⟨hx, hheld⟩)
  exact ⟨st', allows_of_same hsame, hy⟩

theorem Made.turns_of_input (h : Made S x y) : c.Turns S x y :=
  Made.turns (h.of_input fun _ hx => ((everywhere_pair ..).1 hx).1)

/-- A call that only makes something, and then a change that may use its answer. -/
theorem Made.turns_bind {r : Result β} {f : β → Result γ} (hr : Made S c.held r)
    (hf : ∀ b, r = .ok b → c.Turns T (x, b) (f b)) (hTS : ∀ t, T t → ¬S t) (hS : ∀ t, S t → U t)
    (hT : ∀ t, T t → U t) : c.Turns U x (r >>= f) := by
  intro st hfree hheld hx
  have hfreeS : ∀ t, S t → st t = none := fun t ht => hfree t (hS t ht)
  obtain ⟨st₁, hsame, hr⟩ := hr st hfreeS hheld
  have hallows₁ : c.Allows U st st₁ := (allows_of_same hsame).mono hS
  cases r with
  | error e => exact ⟨st₁, hallows₁, hr⟩
  | ok b =>
    have hfreeT : ∀ t, T t → st₁ t = none := by
      intro t ht
      rw [hsame t (hTS t ht)]
      exact hfree t (hT t ht)
    obtain ⟨st₂, hallows₂, hy⟩ := hf b rfl st₁ hfreeT (hheld.of_same hfreeS hsame)
      ((everywhere_pair ..).2 ⟨hx.of_same hfreeS hsame, hr⟩)
    exact ⟨st₂, hallows₁.trans (hallows₂.mono hT), hy⟩

theorem Made.turns_next {r : Result β} {f : β → Result γ} {i : Nat}
    (hr : Made (c.site.sub i).Covers c.held r)
    (hf : ∀ b, r = .ok b → c.Turns (c.site.From (i + 1)) (x, b) (f b)) :
    c.Turns (c.site.From i) x (r >>= f) :=
  hr.turns_bind hf (fun _ ht hs => Site.not_from_of_sub (Nat.lt_succ_self i) hs ht)
    (fun _ => Site.from_of_sub (Nat.le_refl i)) fun _ => Site.From.mono (Nat.le_succ i)

/-- An operation all of whose inputs are held only makes its answer. -/
theorem made_of_turns (h : c.Turns S c.held y) : Made S c.held y :=
  made_of_allows fun st hfree hheld => h st hfree hheld hheld

/-- An update that ends early with a failure that holds no value. -/
theorem turns_failed {e : Failure Value} (h : ∀ P, Everywhere P e) :
    c.Turns S x (Outcome.failed x e) :=
  turns_of_liesIn fun _ hx => (everywhere_failed x e).2 ⟨hx, h _⟩

theorem turns_done (h : c.Turns S x y) : c.Turns S x (Outcome.done y) :=
  h.to_output fun _ => (everywhere_done y).2

end Turns

/-! ## Arrays -/

section Arrays

variable {c : Scope} {S : Site → Prop} {a b : Arr Value}

/-- A change of an array whose buffer may belong to it alone. -/
def Arr.Tidy (c : Scope) (S : Site → Prop) (a : Arr Value) (o : Outcome (Arr Value)) : Prop :=
  ∀ st : Store, (∀ t, S t → st t = none) → LiesIn st c.held → a.Ready c st → ¬S a.storage →
    ∃ st', c.Allows S st st' ∧ o.slot.Ready c st' ∧ LiesIn st' o.failure ∧
      (o.slot.storage = a.storage ∨ S o.slot.storage)

/-- While an array is changed, its buffer is out of the store if nothing else refers to it. -/
theorem turns_of_tidy {o : Outcome (Arr Value)} (h : a.Tidy c S o) : c.Turns S a o := by
  intro st hfree hheld ha
  have hstorage : ¬S a.storage :=
    not_mem_of_liesIn hfree ha a.storage ⟨.array a, by simp [allNodes, Arr.nodes_eq], rfl⟩
  obtain ⟨st', hallows, hready, hfailure, hmoved⟩ :=
    h (st.hide c a.storage) (fun t ht => hide_eq_none (hfree t ht)) (held_hide hheld)
      (ready_hide ha) hstorage
  have hallows := (allows_hide c S a.storage st).trans hallows
  refine ⟨st'.insert o.slot.storage o.slot.object, ⟨fun t ht hholds => ?_, fun t ht hnone => ?_⟩,
    everywhere_outcome.2 ⟨hready.liesIn, hready.liesIn_insert hfailure⟩⟩
  · by_cases hts : t = o.slot.storage
    · subst hts
      rw [Store.insert_self, ← hready.shared hholds]
      exact hallows.held _ ht hholds
    · rw [Store.insert_of_ne hts]
      exact hallows.held t ht hholds
  · have hts : t ≠ o.slot.storage := by
      rintro rfl
      rcases hmoved with hmoved | hmoved
      · rw [hmoved, (liesIn_arr.1 ha).1] at hnone
        cases hnone
      · exact ht hmoved
    rw [Store.insert_of_ne hts]
    exact hallows.fresh t ht hnone

theorem Arr.Ready.of_sub {st : Store} {k : Nat} (h : a.Ready (c.sub k) st) : a.Ready c st :=
  ⟨h.cells, h.own, h.shared⟩

theorem Arr.Ready.sub {st : Store} (h : a.Ready c st) (k : Nat) : a.Ready (c.sub k) st :=
  ⟨h.cells, h.own, h.shared⟩

theorem Arr.Tidy.of_sub {o : Outcome (Arr Value)} {k : Nat} (h : a.Tidy (c.sub k) S o) :
    a.Tidy c S o := by
  intro st hfree hheld hready hstorage
  obtain ⟨st', hallows, hready, hrest⟩ := h st hfree hheld (hready.sub k) hstorage
  exact ⟨st', hallows.of_sub, hready.of_sub, hrest⟩

theorem tidy_of_written {α : Type} [HasNodes α] {x : α} (h : a.WrittenAs c x b) (hx : c.Keeps x)
    (hc : S c.site) : a.Tidy c S (.done b) := by
  intro st hfree hheld hready _
  refine ⟨st, .refl c S st, h.ready hready (hx st hheld) (hfree _ hc) hheld, everywhere_none, ?_⟩
  rcases h.storage with ⟨hstorage, -⟩ | hstorage
  · exact .inl hstorage
  · exact .inr (hstorage ▸ hc)

theorem turns_of_written {α : Type} [HasNodes α] {x : α} (h : a.WrittenAs c x b)
    (hx : c.Keeps x) : c.Turns c.site.Covers a b :=
  (turns_of_tidy (tidy_of_written h hx (Site.covers_refl _))).to_output fun _ =>
    (everywhere_done b).1

theorem turns_canonical (c : Scope) (a : Arr Value) :
    c.Turns c.site.Covers a (a.canonical c) := by
  have htidy : a.Tidy c c.site.Covers (.done (a.canonical c)) := by
    intro st hfree hheld hready _
    obtain ⟨st', hedits, hready, hstorage, -⟩ :=
      ready_canonical hready (hfree _ (Site.covers_refl _)) hheld
    exact ⟨st', hedits.allows, hready, everywhere_none, hstorage.imp_right Site.covers_of_eq⟩
  exact (turns_of_tidy htidy).to_output fun _ => (everywhere_done _).1

theorem tidy_failed {e : Failure Value} (h : c.Keeps e) : a.Tidy c S (.failed a e) :=
  fun st _ hheld hready _ => ⟨st, .refl c S st, hready, h st hheld, .inl rfl⟩

end Arrays

/-! ## Functions and right operands -/

/-- The function makes its answers from its arguments and from itself. -/
def Callee.Makes (f : Callee) : Prop := ∀ s args, Made s.Covers (f.value :: args) (f.call s args)

section Callee

variable {settings : Settings} {f : Callee} {c : Scope} {S : Site → Prop} {z : Option Value}

theorem keeps_operands {sel : Selection} {operands : Operands} (hz : c.Keeps z)
    (h : f.operands z sel = .ok operands) : c.Keeps operands := by
  intro st hheld
  have hoperands := everywhere_operands f sel (hz st hheld)
  rw [h] at hoperands
  exact hoperands

/-- The right operand is rejected without a look at its elements. -/
theorem everywhere_operands_error {P : Value → Prop} {sel : Selection} {e : Failure Value}
    (h : f.operands z sel = .error e) : Everywhere P e := by
  unfold Callee.operands at h
  split at h
  · cases sel with
    | one i => cases z <;> cases h
    | many ps =>
      have h : Operands.forMany ps.length z = .error e := h
      unfold Operands.forMany at h
      split at h
      · cases h
      · split at h <;> cases h
        exact everywhere_failure rfl
      · cases h
  · cases h
    exact everywhere_failure rfl

theorem keeps_at? {operands : Operands} (h : c.Keeps operands) (k : Nat) :
    c.Keeps (operands.at? k) :=
  fun st hheld => Operands.everywhere_at? (h st hheld) k

/-- What a call makes for an element. -/
theorem Callee.Makes.element (hf : f.Makes) (hkf : c.Keeps f.value) (hz : c.Keeps z) (s : Site)
    (v : Value) : Made s.Covers (v, c.held) (f.call s (v :: z.toList)) := by
  refine (hf s (v :: z.toList)).of_input fun st h => ?_
  obtain ⟨hv, hheld⟩ := (everywhere_pair ..).1 h
  have hargs : LiesIn st (v :: z.toList) :=
    (everywhere_cons ..).2 ⟨hv, everywhere_toList.2 (hz st hheld)⟩
  exact (everywhere_cons ..).2 ⟨hkf st hheld, hargs⟩

/-- Of the right operand only what the function gets to see has to be held. -/
theorem tidy_amendAt_of_operands (hf : f.Makes) (hkf : c.Keeps f.value) {sel : Selection}
    (hz : ∀ operands, f.operands z sel = .ok operands → ∀ k, c.Keeps (operands.at? k))
    (a : Arr Value) : a.Tidy c c.site.Covers (a.amendAt settings c sel f z) := by
  unfold Arr.amendAt
  split
  · rename_i e he
    exact tidy_failed fun _ _ => everywhere_operands_error he
  · rename_i operands hop
    have hoperands := hz operands hop
    simp only
    split
    · rename_i b hb
      split at hb
      · have hwritten := (looped_of_loop? hb).writtenAs
        exact (tidy_of_written hwritten (fun _ _ => everywhere_nil) (c.site.covers_sub 0)).of_sub
      · cases hb
    · intro st hfree hheld hready hstorage
      -- The array itself works at part 0, and the calls make their answers at the parts after it.
      let site (e : Nat × Nat) : Site := c.site.sub (e.2 + 1)
      let step (e : Nat × Nat) : Step :=
        ⟨e.1, fun old => f.call (site e) (old :: (operands.at? e.2).toList)⟩
      obtain ⟨st₁, st', hsame, hedits, -, hslot, hfailure, hmoved⟩ :=
        ready_revise (c := c.sub 0) (x := c.held)
          (fun e _ v => show Made (site e).Covers (v, _) ((step e).run v) from
            hf.element hkf (hoperands e.2) _ v)
          ((pairwise_zipIdx _).imp fun h => Site.apart_sub (by omega))
          (fun e _ => Site.apart_sub (Nat.succ_ne_zero e.2).symm _ (Site.covers_refl _))
          (fun e _ => free_sub hfree _) (hfree _ (c.site.covers_sub 0)) hheld hheld
          (hready.sub 0) (fun e _ h => hstorage h.of_sub)
      have hallows : c.Allows c.site.Covers st st₁ := allows_of_same fun t ht =>
        hsame t fun e _ h => ht h.of_sub
      refine ⟨st', hallows.trans hedits.allows.of_sub, hslot.of_sub, hfailure, ?_⟩
      exact hmoved.imp_right fun h => (Site.covers_of_eq h).of_sub

theorem tidy_amendAt (hf : f.Makes) (hkf : c.Keeps f.value) (hz : c.Keeps z) (a : Arr Value)
    (sel : Selection) : a.Tidy c c.site.Covers (a.amendAt settings c sel f z) :=
  tidy_amendAt_of_operands hf hkf (fun _ hop => keeps_at? (keeps_operands hz hop)) a

/-- An update of arrays in surroundings that keep `kept` and the right operand. -/
def ArrUpdate.Turns {α : Type} [HasNodes α] (kept : α) (u : ArrUpdate) : Prop :=
  ∀ (c : Scope) a z, c.Keeps kept → c.Keeps z → c.Turns c.site.Covers a (u c a z)

theorem turns_amendInTurn {α : Type} [HasNodes α] {kept : α} (hkept : c.Keeps kept)
    {operands : Operands} (hoperands : c.Keeps operands) {us : List ArrUpdate}
    (hus : ∀ u ∈ us, u.Turns kept) (k : Nat) (a : Arr Value) :
    c.Turns (c.site.From k) a (amendInTurn operands c k us a) := by
  induction us generalizing k a with
  | nil => exact turns_done (turns_of_liesIn fun _ h => h)
  | cons u us ih =>
    obtain ⟨hu, hus⟩ := List.forall_mem_cons.1 hus
    have hturns := (hu (c.sub k) a (operands.at? k) hkept (keeps_at? hoperands k)).of_sub
    simp only [amendInTurn]
    split
    · rename_i b e h
      rw [h] at hturns
      exact hturns.mono fun t => Site.from_of_sub (Nat.le_refl k)
    · rename_i b h
      rw [h] at hturns
      exact (hturns.to_output fun _ h => (everywhere_outcome.1 h).1).andThen (ih hus (k + 1) b)

theorem turns_amendAtIndex (hf : f.Makes) (y : Value) :
    (amendAtIndex settings f y).Turns f.value := by
  intro c a z hkf hz
  unfold amendAtIndex
  split
  · rename_i e he
    refine turns_failed fun P => ?_
    have hindex := everywhere_ofIndex (P := P) a.len y
    rwa [he] at hindex
  · rename_i sel _
    exact turns_of_tidy (tidy_amendAt hf hkf hz a sel)

theorem turns_amendFn (hf : f.Makes) (y : Value) : (amendFn settings f y).Turns f.value := by
  induction y using Value.nest_induction with
  | leaf y hleaf =>
    rw [amendFn_of_not_list settings f (by rintro w rfl; cases hleaf)]
    exact turns_amendAtIndex hf y
  | dict s keys vals _ _ => exact turns_amendAtIndex hf _
  | error s v _ => exact turns_amendAtIndex hf _
  | array y ih =>
    cases y with
    | list w =>
      intro c a z hkf hz
      have hmany (st : Store) (hheld : LiesIn st c.held) : LiesIn st (Operands.forMany w.len z) :=
        everywhere_forMany w.len (hz st hheld)
      rw [amendFn_list]
      split
      · rename_i e he
        rw [he] at hmany
        exact turns_of_tidy (tidy_failed hmany)
      · rename_i operands hop
        rw [hop] at hmany
        refine (turns_amendInTurn hkf hmany (fun u hu => ?_) 0 a).mono fun t => Site.From.covers
        obtain ⟨v, hv, rfl⟩ := List.mem_map.1 hu
        exact ih v (Window.mem_of_mem_items hv)
    | _ => exact turns_amendAtIndex hf _

end Callee

/-! ## Dictionaries -/

section Dictionaries

variable {c : Scope} {S : Site → Prop} {d : Dict Value}

/-- The values are alive while the keys are changed. -/
theorem turns_keys {keys : Arr Value}
    (h : (c.beside [.array d.vals]).Turns S d.keys keys) :
    c.Turns S d (⟨keys, d.vals⟩ : Dict Value) := by
  refine (h.frame.of_input fun st hd => ?_).to_output fun st hd => ?_
  · obtain ⟨hkeys, hvals⟩ := everywhere_entries.1 hd
    exact (everywhere_pair ..).2 ⟨everywhere_singleton.2 hvals, hkeys⟩
  · obtain ⟨hvals, hkeys⟩ := (everywhere_pair ..).1 hd
    exact everywhere_entries.2 ⟨hkeys, everywhere_singleton.1 hvals⟩

/-- The keys are alive while the values are changed. -/
theorem turns_vals {o : Outcome (Arr Value)}
    (h : (c.beside [.array d.keys]).Turns S d.vals o) :
    c.Turns S d (o.map fun vals => (⟨d.keys, vals⟩ : Dict Value)) := by
  refine (h.frame.of_input fun st hd => ?_).to_output fun st hd => ?_
  · obtain ⟨hkeys, hvals⟩ := everywhere_entries.1 hd
    exact (everywhere_pair ..).2 ⟨everywhere_singleton.2 hkeys, hvals⟩
  · obtain ⟨hkeys, ho⟩ := (everywhere_pair ..).1 hd
    obtain ⟨hslot, hfailure⟩ := everywhere_outcome.1 ho
    exact everywhere_outcome.2
      ⟨everywhere_entries.2 ⟨everywhere_singleton.1 hkeys, hslot⟩, hfailure⟩

theorem made_empty {α : Type} [HasNodes α] {x : α} (s : Site) (k : Kind) :
    Made s.Covers x (Arr.empty s k : Arr Value) := by
  cases k <;> exact made_object (v := .array (Arr.empty s _)) rfl fun _ _ => nofun

theorem made_emptyDict {α : Type} [HasNodes α] {x : α} (s : Site) :
    Made s.Covers x (.dict s (.empty s) : Value) := by
  have hparts : Made s.Below x ((Arr.empty (s.sub 0) .list : Arr Value),
      (Arr.empty (s.sub 1) .list : Arr Value)) := by
    exact (made_empty (s.sub 0) .list).and (made_empty (s.sub 1) .list)
      (Site.apart_sub Nat.zero_ne_one) (fun t => Site.below_of_sub) fun t => Site.below_of_sub
  refine hparts.object rfl fun st h => ?_
  exact everywhere_entries.2 ((everywhere_pair ..).1 h)

theorem made_neutral {α : Type} [HasNodes α] {x : α} (s : Site) (v : Value) :
    Made s.Covers x (v.neutral s) := by
  unfold Value.neutral
  split
  · exact made_of_liesIn fun _ _ => everywhere_int _
  · exact made_of_liesIn fun _ _ => everywhere_float _
  · exact made_of_liesIn fun _ _ => everywhere_str _
  · exact (made_empty s _).to_output fun _ => (everywhere_array _).2
  · exact made_emptyDict s
  · exact made_of_liesIn fun _ _ => everywhere_nil

theorem made_padding {α : Type} [HasNodes α] {x : α} (s : Site) (a : Arr Value) :
    Made s.Covers x (a.padding s) := by
  cases a with
  | list w =>
    rw [Arr.padding]
    cases w.items.head? with
    | none => exact made_of_liesIn fun _ _ => everywhere_nil
    | some v => exact made_neutral s v
  | bools _ => exact made_of_liesIn fun _ _ => everywhere_int _
  | ints _ => exact made_of_liesIn fun _ _ => everywhere_int _
  | floats _ => exact made_of_liesIn fun _ _ => everywhere_float _
  | strs _ => exact made_of_liesIn fun _ _ => everywhere_str _

/-- The neutral value is made while the buffer of the values is out of the store. -/
theorem turns_pushPadding (c : Scope) (d : Dict Value) :
    c.Turns (c.site.From 2) d (⟨d.keys, d.vals.push ((c.sub 2).beside [.array d.keys])
      (d.vals.padding (c.site.sub 3))⟩ : Dict Value) := by
  have htidy : d.vals.Tidy (c.beside [.array d.keys]) (c.site.From 2) (.done
      (d.vals.push ((c.sub 2).beside [.array d.keys]) (d.vals.padding (c.site.sub 3)))) := by
    intro st hfree hheld hready hstorage
    have hfrom (t : Site) (ht : (c.site.sub 3).Covers t) : c.site.From 2 t :=
      Site.from_of_sub (by omega) ht
    obtain ⟨st₁, hsame, hpadding⟩ := made_padding (x := Value.nil) (c.site.sub 3) d.vals st
      (fun t ht => hfree t (hfrom t ht)) everywhere_nil
    have hfree₁ : ∀ t, (c.site.sub 3).Covers t → st t = none := fun t ht => hfree t (hfrom t ht)
    have hready₁ := hready.of_same hfree₁ hsame fun h => hstorage (hfrom _ h)
    have hsite : st₁ (c.site.sub 2) = none := by
      rw [hsame _ (Site.apart_sub (by omega) _ (Site.covers_refl _))]
      exact hfree _ (Site.from_of_sub (Nat.le_refl 2) (Site.covers_refl _))
    have hwritten := writtenAs_push (c := (c.beside [.array d.keys]).sub 2) d.vals
      (d.vals.padding (c.site.sub 3))
    refine ⟨st₁, (allows_of_same hsame).mono hfrom,
      (hwritten.ready (hready₁.sub 2) hpadding hsite (hheld.of_same hfree₁ hsame)).of_sub,
      everywhere_none, hwritten.storage_or.imp_right ?_⟩
    exact Site.from_of_sub (Nat.le_refl 2)
  exact (turns_vals (turns_of_tidy htidy)).to_output fun _ => (everywhere_done _).1

theorem turns_appendKey {k : Value} (hk : c.Keeps k) (d : Dict Value) :
    c.Turns (c.site.From 0) d (d.appendKey c k) := by
  have hpush := turns_of_written
    (writtenAs_push (c := (c.sub 0).beside [.array d.vals]) d.keys k) (hk.beside _)
  have hcanonical := turns_canonical ((c.sub 1).beside [.array d.vals])
    (d.keys.push ((c.sub 0).beside [.array d.vals]) k)
  exact (turns_keys hpush).of_sub.andThen <|
    (turns_keys (d := ⟨_, d.vals⟩) hcanonical).of_sub.andThen <| turns_pushPadding c ⟨_, d.vals⟩

theorem turns_appendKeys {ks : List Value} (hks : c.Keeps ks) (d : Dict Value) :
    c.Turns (c.site.From 0) d (d.appendKeys c ks) := by
  rw [Dict.appendKeys_eq]
  generalize 0 = n
  induction ks generalizing n d with
  | nil => exact turns_of_liesIn fun _ h => h
  | cons k ks ih =>
    have hk : c.Keeps k := fun st hheld => ((everywhere_cons ..).1 (hks st hheld)).1
    have hks : c.Keeps ks := fun st hheld => ((everywhere_cons ..).1 (hks st hheld)).2
    have hkey := (turns_appendKey (c := c.sub n) hk d).mono fun t => Site.From.covers
    exact hkey.of_sub.andThen (ih hks _ (n + 1))

/-- While a dictionary is changed, it is out of the store if nothing else refers to it. A shared
one stays, and a copy of it is changed. -/
theorem turns_dict {s : Site} {o : Outcome (Dict Value)} (h : c.Turns c.site.Below d o) :
    c.Turns c.site.Covers (Value.dict s d) (o.map (Value.dict (c.own s))) := by
  intro st hfree hheld hx
  obtain ⟨hobject, hparts⟩ := (liesIn_of_target (v := .dict s d) rfl).1 hx
  have hnot : ¬Names s d := by
    rintro ⟨u, hu, hname⟩
    exact name?_ne_of_mem_nodes (v := .dict s d) hx rfl hu hname
  have hd : LiesIn (st.hide c s) d := LiesIn.hide hparts hnot
  obtain ⟨st₁, hallows₁, ho⟩ :=
    h (st.hide c s) (fun t ht => hide_eq_none (hfree t ht.1)) (held_hide hheld) hd
  have hallows := (allows_hide c c.site.Below s st).trans hallows₁
  obtain ⟨hslot, hfailure⟩ := everywhere_outcome.1 ho
  have hs : ¬c.site.Covers s := by
    intro hs
    rw [hfree s hs] at hobject
    cases hobject
  -- The site of the dictionary is not held, and what it names is not in the store by now.
  have hown : st₁ (c.own s) = none ∧ c.holds (c.own s) = false ∧
      (c.own s = s ∨ c.own s = c.site) := by
    rw [Scope.own]
    split
    · have hnone : st c.site = none := hfree _ (Site.covers_refl _)
      exact ⟨hallows.fresh _ (fun h => h.2 rfl) hnone, not_holds_of_none hheld hnone, .inr rfl⟩
    · rename_i hholds
      have hholds : c.holds s = false := Bool.not_eq_true _ ▸ hholds
      exact ⟨hallows₁.fresh _ (fun h => hs h.1) (hide_self hholds), hholds, .inl rfl⟩
  obtain ⟨hnone, hholds, hname⟩ := hown
  have hnew : LiesIn (st₁.insert (c.own s) (.dict o.slot)) (Value.dict (c.own s) o.slot) :=
    (liesIn_of_target rfl).2 ⟨Store.insert_self .., LiesIn.insert hslot hnone _⟩
  refine ⟨_, ⟨fun t ht hheld => ?_, fun t ht htnone => ?_⟩,
    everywhere_outcome.2 ⟨hnew, LiesIn.insert hfailure hnone _⟩⟩
  · have hts : t ≠ c.own s := by
      rintro rfl
      rw [hholds] at hheld
      cases hheld
    rw [Store.insert_of_ne hts]
    exact hallows.held t (fun h => ht h.1) hheld
  · have hts : t ≠ c.own s := by
      rintro rfl
      rcases hname with hname | hname
      · rw [hname, hobject] at htnone
        cases htnone
      · exact ht (hname ▸ Site.covers_refl _)
    rw [Store.insert_of_ne hts]
    exact hallows.fresh t (fun h => ht h.1) htnone

end Dictionaries

/-! ## Amends of values -/

section Values

variable {settings : Settings} {f : Callee} {c : Scope} {y : Value} {z : Option Value}

theorem turns_dictAmend (hf : f.Makes) (hkf : c.Keeps f.value) (hy : c.Keeps y) (hz : c.Keeps z)
    (d : Dict Value) : c.Turns (c.site.From 0) d (d.amend settings c y f z) := by
  have hmissing : c.Keeps (d.placement settings y).missing := fun st hheld =>
    everywhere_missing settings d (hy st hheld)
  unfold Dict.amend
  simp only
  split
  · rename_i e he
    intro st hfree hheld hd
    exact ⟨st, .refl c _ st, (everywhere_failed ..).2 ⟨hd, everywhere_operands_error he⟩⟩
  · have happend := (turns_appendKeys (c := c.sub 0) hmissing d).mono fun t => Site.From.covers
    generalize d.appendKeys (c.sub 0) (d.placement settings y).missing = grown at happend ⊢
    have htidy : grown.vals.Tidy ((c.sub 1).beside [.array grown.keys]) (c.site.sub 1).Covers
        (grown.vals.amendAt settings _ _ _ _) :=
      tidy_amendAt (c := (c.sub 1).beside [.array grown.keys]) hf (hkf.beside _) (hz.beside _)
        grown.vals (d.placement settings y).selection
    have hamend : c.Turns (c.site.From 1) grown _ :=
      (turns_vals (turns_of_tidy htidy)).of_sub.mono fun t => Site.from_of_sub (Nat.le_refl 1)
    exact happend.of_sub.andThen hamend

/-- An amend of a value changes nothing that the surroundings hold. -/
theorem turns_amend (hf : f.Makes) (hkf : c.Keeps f.value) (hy : c.Keeps y) (hz : c.Keeps z)
    (x : Value) : c.Turns c.site.Covers x (x.amend settings c y f z) := by
  cases x with
  | array a => exact (turns_amendFn hf y c a z hkf hz).of_input fun _ => (everywhere_array a).1
  | dict s d =>
    exact turns_dict ((turns_dictAmend hf hkf hy hz d).mono fun t => Site.From.below)
  | _ => exact turns_failed fun P => everywhere_failure rfl

end Values

end SharedArrays
