import SharedArrays.Proofs.Store.Basic

/-!
# What an operation may do to the store

An operation makes objects at its site and below. What only reads makes new objects and changes
none; its answer lies in a store that differs from the old one in new names only. What writes may
also change an object in place, provided that nothing else that is alive refers to it.

## Main definitions

* `Made` — an answer whose objects are those of the inputs, and new ones
* `Scope.Allows` — the changes of the store that surroundings allow

## Main results

* `Made.bind`, `Made.object` — calls in a row, and a new object around parts
* `made_of_allows` — an operation is free to change what its inputs do not reach
-/

namespace SharedArrays

/-! ## Regions of sites -/

/-- The sites below `s`. -/
def Site.Below (s t : Site) : Prop := s.Covers t ∧ t ≠ s

/-- The sites at and below the `i`-th part of `s` and the parts after it. -/
def Site.From (s : Site) (i : Nat) (t : Site) : Prop := ∃ k, i ≤ k ∧ (s.sub k).Covers t

/-- The sites at and below the parts of `s` in front of the `j`-th. -/
def Site.Before (s : Site) (j : Nat) (t : Site) : Prop := ∃ k, k < j ∧ (s.sub k).Covers t

namespace Site

variable {s t : Site} {i j k : Nat}

theorem below_of_sub (h : (s.sub k).Covers t) : s.Below t := by
  refine ⟨h.of_sub, ?_⟩
  rintro rfl
  exact not_sub_covers _ _ h

theorem from_of_sub (hik : i ≤ k) (h : (s.sub k).Covers t) : s.From i t := ⟨k, hik, h⟩

theorem From.mono (hij : i ≤ j) (h : s.From j t) : s.From i t := by
  obtain ⟨k, hk, h⟩ := h
  exact ⟨k, Nat.le_trans hij hk, h⟩

theorem From.below (h : s.From i t) : s.Below t := by
  obtain ⟨k, -, h⟩ := h
  exact below_of_sub h

theorem From.covers (h : s.From i t) : s.Covers t := h.below.1

theorem before_of_sub (hkj : k < j) (h : (s.sub k).Covers t) : s.Before j t := ⟨k, hkj, h⟩

theorem Before.from_zero (h : s.Before j t) : s.From 0 t := by
  obtain ⟨k, -, h⟩ := h
  exact from_of_sub (Nat.zero_le k) h

theorem not_from_of_sub (hki : k < i) (h : (s.sub k).Covers t) : ¬s.From i t := by
  rintro ⟨j, hij, hj⟩
  have hjk := eq_of_sub_covers hj h
  omega

theorem From.not_before (h : s.From j t) : ¬s.Before j t := by
  rintro ⟨k, hkj, hk⟩
  exact not_from_of_sub hkj hk h

end Site

theorem pairwise_zipIdx {α : Type} {k : Nat} (xs : List α) :
    (xs.zipIdx k).Pairwise fun e e' => e.2 < e'.2 := by
  rw [← List.pairwise_map (f := Prod.snd), List.zipIdx_map_snd]
  exact List.pairwise_lt_range'

/-! ## Making values -/

section Made

variable {α β γ : Type} [HasNodes α] [HasNodes β] [HasNodes γ] {S T U : Site → Prop} {x : α}
  {y : β}

/-- All handles inside of `y` refer to objects of `x`, or to new ones with names in `S`. -/
def Made (S : Site → Prop) (x : α) (y : β) : Prop :=
  ∀ st : Store, (∀ t, S t → st t = none) → LiesIn st x →
    ∃ st' : Store, (∀ t, ¬S t → st' t = st t) ∧ LiesIn st' y

/-- What refers to objects of `x` only. -/
theorem made_of_liesIn (h : ∀ st, LiesIn st x → LiesIn st y) : Made S x y :=
  fun st _ hx => ⟨st, fun _ _ => rfl, h st hx⟩

theorem Made.mono (h : Made S x y) (hST : ∀ t, S t → T t) : Made T x y := by
  intro st hfree hx
  obtain ⟨st', hsame, hy⟩ := h st (fun t ht => hfree t (hST t ht)) hx
  exact ⟨st', fun t ht => hsame t fun hs => ht (hST t hs), hy⟩

theorem Made.of_input {z : γ} (h : Made S x y) (hzx : ∀ st, LiesIn st z → LiesIn st x) :
    Made S z y := fun st hfree hz => h st hfree (hzx st hz)

theorem Made.to_output {z : γ} (h : Made S x y) (hyz : ∀ st, LiesIn st y → LiesIn st z) :
    Made S x z := by
  intro st hfree hx
  obtain ⟨st', hsame, hy⟩ := h st hfree hx
  exact ⟨st', hsame, hyz st' hy⟩

/-- What lies in a store still does when names are added that it does not have. -/
theorem LiesIn.of_same {st st' : Store} (hx : LiesIn st x) (hfree : ∀ t, S t → st t = none)
    (hsame : ∀ t, ¬S t → st' t = st t) : LiesIn st' x :=
  hx.congr fun t ht => hsame t fun hs => hx.ne_none ht (hfree t hs)

theorem Made.trans {z : γ} (hy : Made S x y) (hz : Made T y z) (hST : ∀ t, S t → ¬T t)
    (hS : ∀ t, S t → U t) (hT : ∀ t, T t → U t) : Made U x z := by
  intro st hfree hx
  obtain ⟨st₁, hsame₁, hy⟩ := hy st (fun t ht => hfree t (hS t ht)) hx
  have hfree₁ : ∀ t, T t → st₁ t = none := by
    intro t ht
    rw [hsame₁ t fun hs => hST t hs ht]
    exact hfree t (hT t ht)
  obtain ⟨st₂, hsame₂, hz⟩ := hz st₁ hfree₁ hy
  refine ⟨st₂, fun t ht => ?_, hz⟩
  rw [hsame₂ t fun ht' => ht (hT t ht'), hsame₁ t fun ht' => ht (hS t ht')]

/-- What has been there before is still there beside the answer. -/
theorem Made.beside_input {z : γ} (h : Made S x y) (hz : ∀ st, LiesIn st x → LiesIn st z) :
    Made S x (z, y) := by
  intro st hfree hx
  obtain ⟨st', hsame, hy⟩ := h st hfree hx
  exact ⟨st', hsame, (everywhere_pair ..).2 ⟨(hz st hx).of_same hfree hsame, hy⟩⟩

/-- Two answers made in a row, the second perhaps from the first. -/
theorem Made.and {z : γ} (hy : Made S x y) (hz : Made T (x, y) z) (hST : ∀ t, S t → ¬T t)
    (hS : ∀ t, S t → U t) (hT : ∀ t, T t → U t) : Made U x (y, z) := by
  have hinput : Made S x (x, y) := hy.beside_input fun _ h => h
  have hboth : Made T (x, y) (y, z) := hz.beside_input fun _ h => ((everywhere_pair ..).1 h).2
  exact hinput.trans hboth hST hS hT

/-- Calls in a row. -/
theorem Made.bind {r : Result β} {f : β → Result γ} (hr : Made S x r)
    (hf : ∀ a, r = .ok a → Made T (x, a) (f a)) (hST : ∀ t, S t → ¬T t)
    (hS : ∀ t, S t → U t) (hT : ∀ t, T t → U t) : Made U x (r >>= f) := by
  cases r with
  | error e => exact (hr.to_output fun _ h => h).mono hS
  | ok a =>
    have ha : Made S x a := hr.to_output fun _ h => h
    exact (ha.and (hf a rfl) hST hS hT).to_output fun st h => ((everywhere_pair ..).1 h).2

/-- A call, and then an operation that may use its answer. -/
theorem Made.followed {r : Result β} {f : β → Result γ} (hr : Made S x r)
    (hST : ∀ t, S t → T t) (hf : ∀ a, Made S x a → Made T x (f a)) : Made T x (r >>= f) := by
  cases r with
  | error e => exact (hr.to_output fun _ h => h).mono hST
  | ok a => exact hf a (hr.to_output fun _ h => h)

/-- A call that is only packed up afterwards. -/
theorem Made.map {r : Result β} {g : β → γ} (hr : Made S x r)
    (hg : ∀ a st, LiesIn st a → LiesIn st (g a)) : Made S x (r >>= fun a => pure (g a)) := by
  cases r with
  | error e => exact hr.to_output fun _ h => h
  | ok a => exact hr.to_output fun st h => hg a st h

theorem made_ok {z : β} (h : Made S x z) : Made S x (.ok z : Result β) := h

/-- A failure that holds no value. -/
theorem made_error {e : Failure Value} (h : e.cause.holdsValue = false) :
    Made S x (.error e : Result β) :=
  made_of_liesIn fun _ _ => everywhere_error_of_cause h

theorem liesIn_of_target {st : Store} {v : Value} {s : Site} {o : Object}
    (htarget : v.target? = some (s, o)) :
    LiesIn st v ↔ st s = some o ∧ ∀ u ∈ o.nodes, u.ShownBy st := by
  show (∀ u ∈ v.nodes, u.ShownBy st) ↔ _
  rw [Value.nodes_eq htarget, List.forall_mem_cons]
  refine and_congr_left' ⟨fun h => h s o htarget, fun h s' o' htarget' => ?_⟩
  cases htarget.symm.trans htarget'
  exact h

/-- A new object around parts that are there already. -/
theorem made_objectAt {s : Site} {o : Object} {v : Value} (htarget : v.target? = some (s, o))
    (ho : ∀ st, LiesIn st x → ∀ u ∈ o.nodes, u.ShownBy st) : Made (· = s) x v := by
  intro st hfree hx
  have hinsert : LiesIn (st.insert s o) x := hx.insert (hfree s rfl) o
  exact ⟨st.insert s o, fun t ht => Store.insert_of_ne ht,
    (liesIn_of_target htarget).2 ⟨Store.insert_self .., ho _ hinsert⟩⟩

/-- A new object around parts that have been made below it. -/
theorem Made.object {s : Site} {o : Object} {v : Value} (hy : Made s.Below x y)
    (htarget : v.target? = some (s, o))
    (ho : ∀ st, LiesIn st y → ∀ u ∈ o.nodes, u.ShownBy st) : Made s.Covers x v :=
  hy.trans (made_objectAt htarget ho) (fun _ => And.right) (fun _ => And.left)
    fun _ => Site.covers_of_eq

/-- A new object without parts. -/
theorem made_object {s : Site} {o : Object} {v : Value} (htarget : v.target? = some (s, o))
    (ho : ∀ st, LiesIn st x → ∀ u ∈ o.nodes, u.ShownBy st) : Made s.Covers x v :=
  (made_objectAt htarget ho).mono fun _ => Site.covers_of_eq

end Made

/-! ## Changing values -/

/-- The changes of the store that the surroundings `c` allow: at the sites in `S` anything, and
elsewhere objects that nothing else refers to. -/
structure Scope.Allows (c : Scope) (S : Site → Prop) (st st' : Store) : Prop where
  held : ∀ t, ¬S t → c.holds t = true → st' t = st t
  fresh : ∀ t, ¬S t → st t = none → st' t = none

section Allows

variable {α β : Type} [HasNodes α] [HasNodes β] {c : Scope} {S T : Site → Prop}
  {st st' st'' : Store} {x : α} {k : Nat}

theorem Scope.Allows.refl (c : Scope) (S : Site → Prop) (st : Store) : c.Allows S st st :=
  ⟨fun _ _ _ => rfl, fun _ _ h => h⟩

theorem Scope.Allows.trans (h : c.Allows S st st') (h' : c.Allows S st' st'') :
    c.Allows S st st'' :=
  ⟨fun t ht hheld => (h'.held t ht hheld).trans (h.held t ht hheld),
    fun t ht hnone => h'.fresh t ht (h.fresh t ht hnone)⟩

theorem Scope.Allows.mono (h : c.Allows S st st') (hST : ∀ t, S t → T t) : c.Allows T st st' :=
  ⟨fun t ht => h.held t fun hs => ht (hST t hs), fun t ht => h.fresh t fun hs => ht (hST t hs)⟩

theorem Scope.Allows.of_sub (h : (c.sub k).Allows S st st') : c.Allows S st st' :=
  ⟨h.held, h.fresh⟩

theorem Scope.Allows.of_beside {vs : List Value} (h : (c.beside vs).Allows S st st') :
    c.Allows S st st' := by
  refine ⟨fun t ht hheld => h.held t ht ?_, h.fresh⟩
  rw [Scope.holds_beside, hheld]
  rfl

/-- What only adds names in `S` is allowed. -/
theorem allows_of_same (hsame : ∀ t, ¬S t → st' t = st t) : c.Allows S st st' :=
  ⟨fun t ht _ => hsame t ht, fun t ht hnone => (hsame t ht).trans hnone⟩

theorem Scope.Allows.free (h : c.Allows S st st') (hfree : ∀ t, T t → st t = none)
    (hTS : ∀ t, T t → ¬S t) : ∀ t, T t → st' t = none :=
  fun t ht => h.fresh t (hTS t ht) (hfree t ht)

theorem free_sub {s : Site} (hfree : st.Free s) (k : Nat) : st.Free (s.sub k) :=
  fun t ht => hfree t ht.of_sub

/-- What is held outside of `S` stays in the store. -/
theorem Scope.Allows.liesIn (h : c.Allows S st st') (hx : LiesIn st x)
    (hheld : ∀ t, Names t x → c.holds t = true) (hS : ∀ t, Names t x → ¬S t) : LiesIn st' x :=
  hx.congr fun t ht => h.held t (hS t ht) (hheld t ht)

theorem not_mem_of_liesIn (hfree : ∀ t, S t → st t = none) (hx : LiesIn st x) :
    ∀ t, Names t x → ¬S t :=
  fun t ht hs => hx.ne_none ht (hfree t hs)

/-- What the surroundings hold lies in the store after all that they allow. -/
theorem Scope.Allows.liesIn_held (h : c.Allows S st st') (hfree : ∀ t, S t → st t = none)
    (hheld : LiesIn st c.held) : LiesIn st' c.held :=
  h.liesIn hheld (fun _ ht => (scope_holds_iff c).2 ht) (not_mem_of_liesIn hfree hheld)

/-- An operation whose surroundings hold all of its inputs makes its answer: what it changes in
place are objects that it has made itself. -/
theorem made_of_allows {s : Site} {vs : List Value} {y : β}
    (h : ∀ st, (∀ t, S t → st t = none) → LiesIn st vs →
      ∃ st', Scope.Allows ⟨vs, s⟩ S st st' ∧ LiesIn st' y) : Made S vs y := by
  intro st hfree hvs
  -- Run the operation in a store that has nothing but the inputs.
  let c : Scope := ⟨vs, s⟩
  have hinputs : LiesIn (fun t => if c.holds t then st t else none) vs :=
    hvs.congr fun t ht => if_pos ((scope_holds_iff c).2 ht)
  obtain ⟨st', hallows, hy⟩ := h (fun t => if c.holds t then st t else none)
    (fun t ht => by
      show (if c.holds t then st t else none) = none
      rw [hfree t ht, ite_self]) hinputs
  have hother (t : Site) (ht : ¬S t) (ho : st' t ≠ none) : st' t = st t := by
    by_cases hheld : c.holds t = true
    · exact (hallows.held t ht hheld).trans (if_pos hheld)
    · exact absurd (hallows.fresh t ht (if_neg hheld)) ho
  classical
  refine ⟨fun t => if S t then st' t else st t, fun t ht => if_neg ht, ?_⟩
  refine hy.congr fun t ht => ?_
  by_cases hs : S t
  · exact if_pos hs
  · rw [if_neg hs]
    exact (hother t hs (hy.ne_none ht)).symm

end Allows

end SharedArrays
