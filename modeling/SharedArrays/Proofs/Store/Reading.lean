import SharedArrays.Proofs.Store.Commands

/-!
# Reading operands and the store

Reading a literal makes new objects. A reference makes one more handle on objects that are there,
and taking the content of a register moves it. The values that have been read lie in one store with
the registers that remain, and they are well-formed.

## Main definitions

* `Reading.Makes` — reading that makes its values, and at most takes from the registers
* `Reading.Takes` — the same for operands in a row, which use up sites

## Main results

* `makes_read` — terms
* `takes_production`, `takes_change`, `takes_question` — the operands of commands
-/

namespace SharedArrays

/-! ## Reading -/

section Makes

variable {α β γ : Type} [HasNodes α] [HasNodes β] [HasNodes γ] {S T U : Site → Prop} {x : α}
  {s : Site} {i : Nat}

/-- Reading makes its value in `S` from `x` and from the registers, and leaves some of the
registers. -/
def Reading.Makes (S : Site → Prop) (x : α) (r : Reading β) : Prop :=
  ∀ registers n b registers' n', r.run (registers, n) = .ok (b, registers', n') →
    n' = n ∧ registers'.Within registers ∧ Made S (x, registers.contents) b ∧
      (WellFormed (x, registers.contents) → WellFormed b)

/-- What comes after some parts of a term at `s`: the parts from the `i`-th on, and the object
itself. -/
def Site.Rest (s : Site) (i : Nat) (t : Site) : Prop := s.From i t ∨ t = s

/-- What has been read before stays beside what is read next. -/
theorem made_beside_registers {registers registers' : Registers} {b : β}
    (h : Made S (Value.nil, registers.contents) b) (hwithin : registers'.Within registers) :
    Made S (x, registers.contents) ((x, b), registers'.contents) := by
  have hb : Made S (x, registers.contents) b := h.of_input fun st hst =>
    (everywhere_pair ..).2 ⟨everywhere_nil, ((everywhere_pair ..).1 hst).2⟩
  refine (hb.beside_input fun _ hst => hst).to_output fun st hst => ?_
  obtain ⟨hinput, hb⟩ := (everywhere_pair ..).1 hst
  obtain ⟨hx, hregisters⟩ := (everywhere_pair ..).1 hinput
  exact (everywhere_pair ..).2 ⟨(everywhere_pair ..).2 ⟨hx, hb⟩, hwithin.everywhere hregisters⟩

theorem wellFormed_beside_registers {registers registers' : Registers} {b : β}
    (hb : WellFormed (Value.nil, registers.contents) → WellFormed b)
    (hwithin : registers'.Within registers) (h : WellFormed (x, registers.contents)) :
    WellFormed ((x, b), registers'.contents) := by
  obtain ⟨hx, hregisters⟩ := (everywhere_pair ..).1 h
  have hb := hb ((everywhere_pair ..).2 ⟨everywhere_nil, hregisters⟩)
  exact (everywhere_pair ..).2 ⟨(everywhere_pair ..).2 ⟨hx, hb⟩, hwithin.everywhere hregisters⟩

theorem Reading.Makes.bind {r : Reading β} {f : β → Reading γ} (hr : r.Makes S Value.nil)
    (hf : ∀ b, (f b).Makes T (x, b)) (hST : ∀ t, S t → ¬T t) (hS : ∀ t, S t → U t)
    (hT : ∀ t, T t → U t) : (r >>= f).Makes U x := by
  intro registers n c registers' n' h
  obtain ⟨⟨b, registers₁, n₁⟩, hrun, hnext⟩ := refusal_bind_eq_ok h
  obtain ⟨rfl, hwithin, hb, hwfb⟩ := hr registers n b registers₁ n₁ hrun
  obtain ⟨rfl, hwithin', hc, hwfc⟩ := hf b registers₁ _ c registers' n' hnext
  exact ⟨rfl, hwithin'.trans hwithin, (made_beside_registers hb hwithin).trans hc hST hS hT,
    fun hx => hwfc (wellFormed_beside_registers hwfb hwithin hx)⟩

/-- What refers to objects of `x` only. -/
theorem makes_pure {b : β} (h : ∀ P, Everywhere P x → Everywhere P b) :
    (pure b : Reading β).Makes S x := by
  intro registers n b' registers' n' hrun
  cases hrun
  exact ⟨rfl, registers.within_refl,
    made_of_liesIn fun _ hx => h _ ((everywhere_pair ..).1 hx).1,
    fun hx => h _ ((everywhere_pair ..).1 hx).1⟩

theorem Reading.Makes.mono {r : Reading β} (h : r.Makes S x) (hST : ∀ t, S t → T t) :
    r.Makes T x := by
  intro registers n b registers' n' hrun
  obtain ⟨hn, hwithin, hmade, hwf⟩ := h registers n b registers' n' hrun
  exact ⟨hn, hwithin, hmade.mono hST, hwf⟩

/-- A part of a term, and then the parts after it. -/
theorem Reading.Makes.part {r : Reading β} {f : β → Reading γ}
    (hr : r.Makes (s.sub i).Covers Value.nil) (hf : ∀ b, (f b).Makes (s.Rest (i + 1)) (x, b)) :
    (r >>= f).Makes (s.Rest i) x := by
  refine hr.bind hf (fun t ht hrest => ?_) (fun t ht => .inl (Site.from_of_sub (Nat.le_refl i) ht))
    fun t ht => ht.imp_left (Site.From.mono (Nat.le_succ i))
  rcases hrest with hfrom | rfl
  · exact Site.not_from_of_sub (Nat.lt_succ_self i) ht hfrom
  · exact Site.not_sub_covers _ _ ht

/-- The parts of a term in a row, and then the object. -/
theorem Reading.Makes.parts {r : Reading β} {f : β → Reading γ}
    (hr : r.Makes (s.From i) Value.nil) (hf : ∀ b, (f b).Makes (· = s) (x, b)) :
    (r >>= f).Makes (s.Rest i) x := by
  refine hr.bind hf (fun t ht hts => ht.below.2 hts) (fun _ => .inl) fun _ => .inr

theorem Reading.Makes.whole {r : Reading β} (h : r.Makes (s.Rest i) x) : r.Makes s.Covers x :=
  h.mono fun _ ht => ht.elim Site.From.covers Site.covers_of_eq

/-- The object itself, around its parts. -/
theorem makes_object {v : Value} {o : Object} (htarget : v.target? = some (s, o)) (hfits : v.Fits)
    (ho : ∀ P, Everywhere P x → ∀ u ∈ o.nodes, P u) :
    (pure v : Reading Value).Makes (· = s) x := by
  intro registers n v' registers' n' hrun
  cases hrun
  refine ⟨rfl, registers.within_refl,
    made_objectAt htarget fun _ h => ho _ ((everywhere_pair ..).1 h).1, fun h => ?_⟩
  show ∀ u ∈ v.nodes, u.Fits
  rw [Value.nodes_eq htarget, List.forall_mem_cons]
  exact ⟨hfits, ho _ ((everywhere_pair ..).1 h).1⟩

/-- A new buffer of atoms. -/
theorem makes_buffer {a : Arr Value} (ha : a.InBounds) (hcells : a.cells = []) :
    (pure (.array a) : Reading Value).Makes a.storage.Covers x := by
  have hobject : (pure (.array a) : Reading Value).Makes (· = a.storage) x := by
    refine makes_object (o := a.object) rfl ha fun _ _ => ?_
    rw [Arr.nodes_object, hcells]
    exact everywhere_empty (α := Value)
  exact hobject.mono fun _ => Site.covers_of_eq

theorem makes_throw (e : Refusal) : (throw e : Reading β).Makes S x := by
  intro registers n b registers' n' hrun
  cases hrun

theorem makes_ref (s : Site) (name : String) : ((Term.ref name).read s).Makes S Value.nil := by
  intro registers n v registers' n' h
  cases hget : registers.get? name with
  | some w =>
    have hrun : ((Term.ref name).read s).run (registers, n) = .ok (w, registers, n) := by
      simp [Term.read, hget]
      rfl
    cases hrun.symm.trans h
    exact ⟨rfl, registers.within_refl,
      made_of_liesIn fun _ h => Registers.everywhere_get? ((everywhere_pair ..).1 h).2 hget,
      fun h => Registers.everywhere_get? ((everywhere_pair ..).1 h).2 hget⟩
  | none =>
    have hrun : ((Term.ref name).read s).run (registers, n) = .error (.noRegister name) := by
      simp [Term.read, hget]
      rfl
    cases hrun.symm.trans h

theorem makes_take (s : Site) (name : String) : ((Term.take name).read s).Makes S Value.nil := by
  intro registers n v registers' n' h
  cases hget : registers.get? name with
  | some w =>
    have hrun : ((Term.take name).read s).run (registers, n) =
        .ok (w, registers.erase name, n) := by
      simp [Term.read, hget]
      rfl
    cases hrun.symm.trans h
    exact ⟨rfl, registers.erase_within name,
      made_of_liesIn fun _ h => Registers.everywhere_get? ((everywhere_pair ..).1 h).2 hget,
      fun h => Registers.everywhere_get? ((everywhere_pair ..).1 h).2 hget⟩
  | none =>
    have hrun : ((Term.take name).read s).run (registers, n) = .error (.noRegister name) := by
      simp [Term.read, hget]
      rfl
    cases hrun.symm.trans h

end Makes

/-! ## Terms -/

section Around

variable {α β : Type} [HasNodes α] [HasNodes β] {s : Site} {i : Nat} {x : α}

/-- The object at the end of a row of parts. -/
theorem makes_around {v : Value} {o : Object} (htarget : v.target? = some (s, o)) (hfits : v.Fits)
    (ho : ∀ P, Everywhere P x → ∀ u ∈ o.nodes, P u) :
    (pure v : Reading Value).Makes (s.Rest i) x :=
  (makes_object htarget hfits ho).mono fun _ => .inr

/-- The parts of a term in a row, when the term is no object. -/
theorem Reading.Makes.next {γ : Type} [HasNodes γ] {r : Reading β} {f : β → Reading γ}
    (hr : r.Makes (s.sub i).Covers Value.nil) (hf : ∀ b, (f b).Makes (s.From (i + 1)) (x, b)) :
    (r >>= f).Makes (s.From i) x :=
  hr.bind hf (fun _ => Site.not_from_of_sub (Nat.lt_succ_self i))
    (fun _ => Site.from_of_sub (Nat.le_refl i)) fun _ => Site.From.mono (Nat.le_succ i)

/-- The last of the parts, when only packing up is left. -/
theorem Reading.Makes.last {S : Site → Prop} {γ : Type} [HasNodes γ] {r : Reading β} {g : β → γ}
    (hr : r.Makes S Value.nil)
    (hg : ∀ P b, Everywhere P x → Everywhere P b → Everywhere P (g b)) :
    (do return g (← r)).Makes S x :=
  hr.bind (T := fun _ => False) (fun b => makes_pure fun P h => by
    obtain ⟨hx, hb⟩ := (everywhere_pair ..).1 h
    exact hg P b hx hb) (fun _ _ h => h) (fun _ h => h) nofun

theorem Reading.Makes.whole_of_from {r : Reading β} (h : r.Makes (s.From 0) x) :
    r.Makes s.Covers x :=
  h.mono fun _ => Site.From.covers

end Around

/-- Both of two things that have been read after each other. -/
theorem everywhere_parts {α β γ : Type} [HasNodes α] [HasNodes β] [HasNodes γ] {P : Value → Prop}
    {x : α} {y : β} {z : γ} (h : Everywhere P ((x, y), z)) :
    Everywhere P x ∧ Everywhere P y ∧ Everywhere P z := by
  obtain ⟨h, hz⟩ := (everywhere_pair ..).1 h
  obtain ⟨hx, hy⟩ := (everywhere_pair ..).1 h
  exact ⟨hx, hy, hz⟩

mutual

theorem makes_read (s : Site) : ∀ t : Term, (t.read s).Makes s.Covers Value.nil
  | .nil => makes_pure fun _ h => h
  | .int _ => makes_pure fun _ _ => everywhere_int _
  | .float _ => makes_pure fun _ _ => everywhere_float _
  | .str _ => makes_pure fun _ _ => everywhere_str _
  | .builtin _ => makes_pure fun _ _ => everywhere_builtin _
  | .bools flags xs =>
    makes_buffer (a := .bools (.ofList s xs flags)) (Window.inBounds_ofList ..) rfl
  | .ints flags xs =>
    makes_buffer (a := .ints (.ofList s xs flags)) (Window.inBounds_ofList ..) rfl
  | .floats flags xs =>
    makes_buffer (a := .floats (.ofList s xs flags)) (Window.inBounds_ofList ..) rfl
  | .strs flags xs =>
    makes_buffer (a := .strs (.ofList s xs flags)) (Window.inBounds_ofList ..) rfl
  | .list _ items => by
    refine Reading.Makes.whole (i := 0) ((makes_readTerms s 0 items).parts fun vs => ?_)
    exact makes_object (o := .list vs) rfl (Window.inBounds_ofList ..)
      fun _ h => ((everywhere_pair ..).1 h).2
  | .dict keys vals => by
    -- Keys and values are read at two sites below, and the dictionary is made at the site itself.
    refine Reading.Makes.whole (i := 0) ((makes_read (s.sub 0) keys).part fun k => ?_)
    refine (makes_read (s.sub 1) vals).part fun v => ?_
    split
    · rename_i k v
      split
      · rename_i d hd
        unfold Dict.ofArrays? at hd
        split at hd <;> cases hd
        rename_i hlen
        refine makes_around (o := .dict ⟨k, v⟩) rfl hlen fun P h => everywhere_entries.2 ?_
        exact (everywhere_parts h).2
      · exact makes_throw _
    · exact makes_throw _
  | .error t => by
    refine Reading.Makes.whole (i := 0) ((makes_read (s.sub 0) t).part fun v => ?_)
    exact makes_around (o := .error v) rfl trivial fun _ h => ((everywhere_pair ..).1 h).2
  | .lambda name arity body => by
    refine Reading.Makes.whole (i := 0) ((makes_readBody (s.sub 0) body).part fun b => ?_)
    exact makes_around (o := .lambda name arity b) rfl trivial
      fun _ h => ((everywhere_pair ..).1 h).2
  | .compose outer inner => by
    refine Reading.Makes.whole (i := 0) ((makes_read (s.sub 0) outer).part fun f => ?_)
    refine (makes_read (s.sub 1) inner).part fun g => ?_
    exact makes_around (o := .compose f g) rfl trivial fun _ h =>
      List.forall_mem_append.2 (everywhere_parts h).2
  | .project f args => by
    refine Reading.Makes.whole (i := 0) ((makes_read (s.sub 0) f).part fun g => ?_)
    refine (makes_readArgs s 1 args).parts fun vs => ?_
    exact makes_object (o := .project g vs) rfl trivial fun _ h =>
      List.forall_mem_append.2 (everywhere_parts h).2
  | .ref name => makes_ref s name
  | .take name => makes_take s name

theorem makes_readTerms (s : Site) (i : Nat) :
    ∀ ts : List Term, (readTerms s i ts).Makes (s.From i) Value.nil
  | [] => makes_pure fun _ _ => everywhere_empty
  | t :: ts => by
    refine (makes_read (s.sub i) t).next fun v => (makes_readTerms s (i + 1) ts).last ?_
    exact fun _ _ h hvs => (everywhere_cons ..).2 ⟨((everywhere_pair ..).1 h).2, hvs⟩

theorem makes_readArgs (s : Site) (i : Nat) :
    ∀ ts : List (Option Term), (readArgs s i ts).Makes (s.From i) Value.nil
  | [] => makes_pure fun _ _ => everywhere_empty
  | none :: ts => by
    refine ((makes_readArgs s (i + 1) ts).last fun _ _ _ hvs => ?_).mono
      fun _ => Site.From.mono (Nat.le_succ i)
    exact (everywhere_cons ..).2 ⟨everywhere_none, hvs⟩
  | some t :: ts => by
    refine (makes_read (s.sub i) t).next fun v => (makes_readArgs s (i + 1) ts).last ?_
    exact fun _ _ h hvs => (everywhere_cons ..).2 ⟨((everywhere_pair ..).1 h).2, hvs⟩

theorem makes_readBody (s : Site) : ∀ b : Body Term, (b.read s).Makes s.Covers Value.nil
  | .arg k => makes_pure fun _ _ => everywhere_body_arg k
  | .const t => (makes_read s t).last fun _ _ _ hv => hv
  | .call f args => by
    refine Reading.Makes.whole_of_from ((makes_read (s.sub 0) f).next fun g => ?_)
    refine (makes_readBodies s 1 args).last fun _ _ h hbs => ?_
    exact (everywhere_body_call ..).2 ⟨((everywhere_pair ..).1 h).2, hbs⟩
  | .raise b => by
    refine ((makes_readBody (s.sub 0) b).last fun _ _ _ hb => ?_).mono fun _ => Site.Covers.of_sub
    exact (everywhere_body_raise _).2 hb
  | .fail e => (makes_readFailure s e).last fun _ _ _ he => (everywhere_body_fail _).2 he
  | .branch c t e => by
    refine Reading.Makes.whole_of_from ((makes_readBody (s.sub 0) c).next fun c => ?_)
    refine (makes_readBody (s.sub 1) t).next fun t => ?_
    refine ((makes_readBody (s.sub 2) e).last fun _ _ h he => ?_).mono
      fun _ => Site.from_of_sub (Nat.le_refl 2)
    obtain ⟨-, hc, ht⟩ := everywhere_parts h
    exact (everywhere_body_branch ..).2 ⟨⟨hc, ht⟩, he⟩
  | .amend form x y f => by
    refine Reading.Makes.whole_of_from ((makes_readBody (s.sub 0) x).next fun x => ?_)
    refine (makes_readBody (s.sub 1) y).next fun y => ?_
    refine ((makes_read (s.sub 2) f).last fun _ _ h hf => ?_).mono
      fun _ => Site.from_of_sub (Nat.le_refl 2)
    obtain ⟨-, hx, hy⟩ := everywhere_parts h
    exact (everywhere_body_amend ..).2 ⟨⟨hx, hy⟩, hf⟩
  | .amendWith form x y f z => by
    refine Reading.Makes.whole_of_from ((makes_readBody (s.sub 0) x).next fun x => ?_)
    refine (makes_readBody (s.sub 1) y).next fun y => ?_
    refine (makes_read (s.sub 2) f).next fun f => ?_
    refine ((makes_readBody (s.sub 3) z).last fun _ _ h hz => ?_).mono
      fun _ => Site.from_of_sub (Nat.le_refl 3)
    obtain ⟨h, hy, hf⟩ := everywhere_parts h
    have hx := ((everywhere_pair ..).1 h).2
    exact (everywhere_body_amendWith ..).2 ⟨⟨⟨hx, hy⟩, hf⟩, hz⟩

theorem makes_readBodies (s : Site) (i : Nat) :
    ∀ bs : List (Body Term), (readBodies s i bs).Makes (s.From i) Value.nil
  | [] => makes_pure fun _ _ => everywhere_empty
  | b :: bs => by
    refine (makes_readBody (s.sub i) b).next fun b => (makes_readBodies s (i + 1) bs).last ?_
    exact fun _ _ h hbs => (everywhere_cons ..).2 ⟨((everywhere_pair ..).1 h).2, hbs⟩

theorem makes_readFailure (s : Site) :
    ∀ e : Failure Term, (e.read s).Makes s.Covers Value.nil
  | ⟨.outOfBounds _ _, _, _⟩ => makes_pure fun _ _ => everywhere_failure rfl
  | ⟨.length _ _ _, _, _⟩ => makes_pure fun _ _ => everywhere_failure rfl
  | ⟨.type _ _, _, _⟩ => makes_pure fun _ _ => everywhere_failure rfl
  | ⟨.depth _, _, _⟩ => makes_pure fun _ _ => everywhere_failure rfl
  | ⟨.domain _, _, _⟩ => makes_pure fun _ _ => everywhere_failure rfl
  | ⟨.arity _ _ _, _, _⟩ => makes_pure fun _ _ => everywhere_failure rfl
  | ⟨.raised t, op, hint⟩ =>
    (makes_read s t).last fun _ _ _ hv => (everywhere_raised _ op hint).2 hv

end

/-! ## Operands -/

/-- The sites at and below the parts of `s` from the `i`-th up to the `j`-th. -/
def Site.Between (s : Site) (i j : Nat) (t : Site) : Prop :=
  ∃ k, i ≤ k ∧ k < j ∧ (s.sub k).Covers t

/-- Reading operands of a step at `s` makes them one below the other, each at a site of its own,
from `x` and from the registers. -/
def Reading.Takes {α β : Type} [HasNodes α] [HasNodes β] (s : Site) (x : α) (r : Reading β) :
    Prop :=
  ∀ registers n b registers' n', r.run (registers, n) = .ok (b, registers', n') →
    n ≤ n' ∧ registers'.Within registers ∧ Made (s.Between n n') (x, registers.contents) b ∧
      (WellFormed (x, registers.contents) → WellFormed b)

section Takes

variable {α β γ : Type} [HasNodes α] [HasNodes β] [HasNodes γ] {x : α} {s : Site}

theorem takes_operand (s : Site) (t : Term) : (Reading.operand s t).Takes s Value.nil := by
  intro registers n b registers' n' h
  have hread : ((t.read (s.sub n)).run (registers, n + 1)) = .ok (b, registers', n') := h
  obtain ⟨rfl, hwithin, hmade, hwf⟩ :=
    makes_read (s.sub n) t registers (n + 1) b registers' n' hread
  exact ⟨Nat.le_succ n, hwithin,
    hmade.mono fun t ht => ⟨n, Nat.le_refl n, Nat.lt_succ_self n, ht⟩, hwf⟩

/-- A part that uses up no site below the step. -/
theorem Reading.Makes.takes {S : Site → Prop} {r : Reading β} (h : r.Makes S x)
    (hS : ∀ t, ¬S t) : r.Takes s x := by
  intro registers n b registers' n' hrun
  obtain ⟨rfl, hwithin, hmade, hwf⟩ := h registers n b registers' n' hrun
  exact ⟨Nat.le_refl _, hwithin, hmade.mono fun t ht => absurd ht (hS t), hwf⟩

theorem takes_pure {b : β} (h : ∀ P, Everywhere P x → Everywhere P b) :
    (pure b : Reading β).Takes s x :=
  (makes_pure (S := fun _ => False) h).takes fun _ => id

theorem Reading.Takes.bind {r : Reading β} {f : β → Reading γ} (hr : r.Takes s Value.nil)
    (hf : ∀ b, (f b).Takes s (x, b)) : (r >>= f).Takes s x := by
  intro registers n c registers' n' h
  obtain ⟨⟨b, registers₁, n₁⟩, hrun, hnext⟩ := refusal_bind_eq_ok h
  obtain ⟨hn₁, hwithin, hb, hwfb⟩ := hr registers n b registers₁ n₁ hrun
  obtain ⟨hn', hwithin', hc, hwfc⟩ := hf b registers₁ n₁ c registers' n' hnext
  refine ⟨Nat.le_trans hn₁ hn', hwithin'.trans hwithin,
    (made_beside_registers hb hwithin).trans hc ?_ ?_ ?_,
    fun hx => hwfc (wellFormed_beside_registers hwfb hwithin hx)⟩
  · rintro t ⟨j, -, hj, hjt⟩ ⟨k, hk, -, hkt⟩
    have hjk := Site.eq_of_sub_covers hjt hkt
    omega
  · rintro t ⟨j, hnj, hj, hjt⟩
    exact ⟨j, hnj, by omega, hjt⟩
  · rintro t ⟨k, hk, hkn, hkt⟩
    exact ⟨k, by omega, hkn, hkt⟩

/-- The last of the operands, when only packing up is left. -/
theorem Reading.Takes.last {r : Reading β} {g : β → γ} (hr : r.Takes s Value.nil)
    (hg : ∀ P b, Everywhere P x → Everywhere P b → Everywhere P (g b)) :
    (do return g (← r)).Takes s x :=
  hr.bind fun b => takes_pure fun P h => by
    obtain ⟨hx, hb⟩ := (everywhere_pair ..).1 h
    exact hg P b hx hb

theorem takes_operands (s : Site) (ts : List Term) :
    (ts.mapM (Reading.operand s)).Takes s Value.nil := by
  induction ts with
  | nil => exact takes_pure fun _ _ => everywhere_empty
  | cons t ts ih =>
    rw [List.mapM_cons]
    refine (takes_operand s t).bind fun v => ih.last fun P vs h hvs => ?_
    exact (everywhere_cons ..).2 ⟨((everywhere_pair ..).1 h).2, hvs⟩

theorem takes_option (s : Site) (t : Option Term) :
    (t.mapM (Reading.operand s)).Takes s Value.nil := by
  cases t with
  | none => exact takes_pure fun _ _ => everywhere_none
  | some t => exact (takes_operand s t).last fun _ _ _ hv => hv

end Takes

/-! ## Commands -/

section Commands

variable {α β : Type} [HasNodes α] [HasNodes β] {x : α} {s : Site}

/-- A command with one operand. -/
theorem takes_one {g : Value → β} (t : Term)
    (hg : ∀ P v, Everywhere P [v] → Everywhere P (g v)) :
    (do return g (← Reading.operand s t)).Takes s Value.nil :=
  (takes_operand s t).last fun P v _ hv => hg P v (everywhere_singleton.2 hv)

/-- A command with two operands. -/
theorem takes_two {g : Value → Value → β} (t u : Term)
    (hg : ∀ P v w, Everywhere P [v, w] → Everywhere P (g v w)) :
    (do return g (← Reading.operand s t) (← Reading.operand s u)).Takes s Value.nil := by
  refine (takes_operand s t).bind fun v => (takes_operand s u).last fun P w h hw => ?_
  exact hg P v w ((everywhere_cons ..).2 ⟨((everywhere_pair ..).1 h).2, everywhere_singleton.2 hw⟩)

theorem takes_production (s : Site) (p : Production Term) :
    (p.mapM (Reading.operand s)).Takes s Value.nil := by
  cases p with
  | value x => exact takes_one x fun _ _ h => h
  | amend form x y f z =>
    refine (takes_operand s x).bind fun x => (takes_operand s y).bind fun y => ?_
    refine (takes_operand s f).bind fun f => (takes_option s z).last fun P z h hz => ?_
    obtain ⟨h, hy, hf⟩ := everywhere_parts h
    have hx := ((everywhere_pair ..).1 h).2
    exact (everywhere_cons ..).2 ⟨hx, (everywhere_cons ..).2 ⟨hy, (everywhere_cons ..).2
      ⟨hf, everywhere_toList.2 hz⟩⟩⟩
  | apply f args =>
    refine (takes_operand s f).bind fun f => (takes_operands s args).last fun P args h hargs => ?_
    exact (everywhere_cons ..).2 ⟨((everywhere_pair ..).1 h).2, hargs⟩
  | callAmend verb args => exact (takes_operands s args).last fun _ _ _ h => h
  | merge left right f =>
    refine (takes_operand s left).bind fun l => (takes_operand s right).bind fun r => ?_
    refine (takes_operand s f).last fun P f h hf => ?_
    obtain ⟨-, hl, hr⟩ := everywhere_parts h
    exact (everywhere_cons ..).2 ⟨hl, (everywhere_cons ..).2 ⟨hr, everywhere_singleton.2 hf⟩⟩
  | monadic b x => exact takes_one x fun _ _ h => h
  | dyadic b x y => exact takes_two x y fun _ _ _ h => h
  | list items => exact (takes_operands s items).last fun _ _ _ h => h
  | dict keys vals => exact takes_two keys vals fun _ _ _ h => h
  | canonical x => exact takes_one x fun _ _ h => h
  | til n => exact takes_pure fun _ _ => everywhere_empty (α := Value)
  | empty kind => exact takes_pure fun _ _ => everywhere_empty (α := Value)
  | emptyDict => exact takes_pure fun _ _ => everywhere_empty (α := Value)
  | get x i => exact takes_one x fun _ _ h => h
  | slice x i j => exact takes_one x fun _ _ h => h
  | select x ps => exact takes_one x fun _ _ h => h
  | concat x y => exact takes_two x y fun _ _ _ h => h
  | padding x => exact takes_one x fun _ _ h => h
  | copy x => exact takes_one x fun _ _ h => h
  | reuse x => exact takes_one x fun _ _ h => h
  | adopt container v => exact takes_two container v fun _ _ _ h => h

theorem takes_change (s : Site) (change : Change Term) :
    (change.mapM (Reading.operand s)).Takes s Value.nil := by
  cases change with
  | amend form y f z =>
    refine (takes_operand s y).bind fun y => (takes_operand s f).bind fun f => ?_
    refine (takes_option s z).last fun P z h hz => ?_
    obtain ⟨-, hy, hf⟩ := everywhere_parts h
    exact (everywhere_cons ..).2 ⟨hy, (everywhere_cons ..).2 ⟨hf, everywhere_toList.2 hz⟩⟩
  | setAt i v => exact takes_one v fun _ _ h => h
  | put i v => exact takes_one v fun _ _ h => h
  | push v => exact takes_one v fun _ _ h => h
  | extend w => exact takes_one w fun _ _ h => h
  | appendKey k => exact takes_one k fun _ _ h => h
  | appendEntries keys vals => exact takes_two keys vals fun _ _ _ h => h
  | _ => exact takes_pure fun _ _ => everywhere_empty (α := Value)

/-- The operands of a step are made at its sites from the first on. -/
theorem Reading.Takes.made {r : Reading β} (h : r.Takes s Value.nil)
    {registers registers' : Registers} {n n' : Nat} {b : β}
    (hrun : r.run (registers, n) = .ok (b, registers', n')) :
    registers'.Within registers ∧ Made (s.From n) registers.contents b ∧
      (WellFormed registers.contents → WellFormed b) := by
  obtain ⟨-, hwithin, hmade, hwf⟩ := h registers n b registers' n' hrun
  refine ⟨hwithin, (hmade.mono ?_).of_input fun _ h => (everywhere_pair ..).2 ⟨everywhere_nil, h⟩,
    fun h => hwf ((everywhere_pair ..).2 ⟨everywhere_nil, h⟩)⟩
  rintro t ⟨k, hnk, -, hk⟩
  exact Site.from_of_sub hnk hk

theorem takes_question {g : Failure Term → Reading (Failure Value)} {q : Question Term}
    (hq : ∀ e, q ≠ .failure e) : (q.mapM (Reading.operand s) g).Takes s Value.nil := by
  cases q with
  | failure e => exact absurd rfl (hq e)
  | «at» x i => exact takes_one x fun _ _ h => h
  | find x v => exact takes_two x v fun _ _ _ h => h
  | canStore x v => exact takes_two x v fun _ _ _ h => h
  | lookup d k => exact takes_two d k fun _ _ _ h => h
  | positions d keys threshold => exact takes_two d keys fun _ _ _ h => h
  | display x => exact takes_one x fun _ _ h => h
  | equal x y => exact takes_two x y fun _ _ _ h => h
  | describe x => exact takes_one x fun _ _ h => h
  | amendText verb f dyadic => exact takes_one f fun _ _ h => h
  | arity name args lo hi => exact (takes_operands s args).last fun _ _ _ h => h
  | _ => exact takes_pure fun _ _ => everywhere_empty (α := Value)

/-- A question reads its operands as other commands do, and a failure at a site of its own. -/
theorem within_question {q : Question Term} {q' : Question Value} {registers registers' : Registers}
    {n n' : Nat} (h : (q.mapM (Reading.operand s) fun e => e.read (s.sub 0)).run (registers, n) =
      .ok (q', registers', n')) : registers'.Within registers := by
  by_cases hq : ∃ e, q = .failure e
  · obtain ⟨e, rfl⟩ := hq
    obtain ⟨⟨e', registers₁, n₁⟩, hrun, hnext⟩ := refusal_bind_eq_ok h
    cases hnext
    exact (makes_readFailure (s.sub 0) e registers n e' registers' n' hrun).2.1
  · exact ((takes_question fun e he => hq ⟨e, he⟩).made h).1

end Commands

end SharedArrays
