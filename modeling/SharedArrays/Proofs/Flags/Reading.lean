import SharedArrays.Proofs.Flags.Arrays
import SharedArrays.Proofs.Session

/-!
# Operands with true flags

A literal may state facts about the elements that it lists. Where these facts are true, what is read
from the literal is truthful; and whatever comes out of truthful registers is truthful as well. A
list literal must not state any, because its elements are known only after reading.

## Main definitions

* `Term.Honest` — the facts that the literals of a term state are true
* `Command.Honest` — the same for the operands of a command, which itself states no facts
* `Reading.Supplies` — reading that leaves truthful registers truthful

## Main results

* `supplies_read` — terms
* `supplies_production`, `supplies_change`, `supplies_question` — the operands of commands
-/

namespace SharedArrays

/-! ## Honest literals -/

mutual

/-- The flags of the literals in a term hold. -/
def Term.Honest : Term → Prop
  | .bools flags xs => flags.Hold (xs.map fun b => .int (if b then 1 else 0))
  | .ints flags xs => flags.Hold (xs.map .int)
  | .floats flags xs => flags.Hold (xs.map .float)
  | .strs flags xs => flags.Hold (xs.map .str)
  | .list flags items => flags.Silent ∧ HonestTerms items
  | .dict keys vals => keys.Honest ∧ vals.Honest
  | .error t => t.Honest
  | .lambda _ _ body => body.Honest
  | .compose outer inner => outer.Honest ∧ inner.Honest
  | .project f args => f.Honest ∧ HonestArgs args
  | .nil | .int _ | .float _ | .str _ | .builtin _ | .ref _ | .take _ => True

/-- The flags of the literals in all terms hold. -/
def HonestTerms : List Term → Prop
  | [] => True
  | t :: ts => t.Honest ∧ HonestTerms ts

/-- The flags of the literals in the arguments of a projection hold. -/
def HonestArgs : List (Option Term) → Prop
  | [] => True
  | none :: ts => HonestArgs ts
  | some t :: ts => t.Honest ∧ HonestArgs ts

/-- The flags of the literals in a function body hold. -/
def Body.Honest : Body Term → Prop
  | .arg _ => True
  | .const t => t.Honest
  | .call f args => f.Honest ∧ HonestBodies args
  | .raise b => b.Honest
  | .fail e => e.Honest
  | .branch c t e => c.Honest ∧ t.Honest ∧ e.Honest
  | .amend _ x y f => x.Honest ∧ y.Honest ∧ f.Honest
  | .amendWith _ x y f z => x.Honest ∧ y.Honest ∧ f.Honest ∧ z.Honest

/-- The flags of the literals in all bodies hold. -/
def HonestBodies : List (Body Term) → Prop
  | [] => True
  | b :: bs => b.Honest ∧ HonestBodies bs

/-- The flags of the literals in the value of a failure hold. -/
def Failure.Honest : Failure Term → Prop
  | ⟨.raised t, _, _⟩ => t.Honest
  | _ => True

end

/-- All operands of a production have the property. -/
def Production.Forall {τ : Type} (P : τ → Prop) : Production τ → Prop
  | .value x | .monadic _ x | .canonical x | .get x _ | .slice x _ _ | .select x _ | .padding x
  | .copy x | .reuse x => P x
  | .dyadic _ x y | .dict x y | .concat x y | .adopt x y => P x ∧ P y
  | .merge x y f => P x ∧ P y ∧ P f
  | .amend _ x y f z => P x ∧ P y ∧ P f ∧ ∀ t ∈ z, P t
  | .apply f args => P f ∧ ∀ t ∈ args, P t
  | .callAmend _ args | .list args => ∀ t ∈ args, P t
  | .til _ | .empty _ | .emptyDict => True

/-- All operands of a change have the property, and the change states no facts. -/
def Change.Forall {τ : Type} (P : τ → Prop) : Change τ → Prop
  | .amend _ y f z => P y ∧ P f ∧ ∀ t ∈ z, P t
  | .setAt _ x | .put _ x | .push x | .extend x | .appendKey x => P x
  | .appendEntries x y => P x ∧ P y
  | .setFlags flags => flags.Silent
  | .asList | .pin | .freeze | .makePrivate => True

/-- All operands of a question have the property; for a failure it is `Q`. -/
def Question.Forall {τ : Type} (P : τ → Prop) (Q : Failure τ → Prop) : Question τ → Prop
  | .at x _ | .display x | .describe x | .amendText _ x _ => P x
  | .find x y | .canStore x y | .lookup x y | .positions x y _ | .equal x y => P x ∧ P y
  | .arity _ args _ _ => ∀ t ∈ args, P t
  | .failure e => Q e
  | .symbol _ | .ownership _ | .sameness _ _ | .settings .. => True

section Everywhere

variable {P : Value → Prop}

theorem Production.Forall.everywhere {p : Production Value} (h : p.Forall (Everywhere P)) :
    Everywhere P p := by
  show Everywhere P p.operands
  cases p <;> simp_all [Production.Forall, Production.operands, everywhere_iff_forall]

theorem Change.Forall.everywhere {change : Change Value} (h : change.Forall (Everywhere P)) :
    Everywhere P change := by
  show Everywhere P change.operands
  cases change <;> simp_all [Change.Forall, Change.operands, everywhere_iff_forall]

theorem Question.Forall.everywhere {q : Question Value}
    (h : q.Forall (Everywhere P) (Everywhere P)) : Everywhere P q := by
  show Everywhere P q.operands
  cases q with
  | failure e =>
    obtain ⟨cause, op, hint⟩ := e
    cases cause with
    | raised v => exact everywhere_singleton.2 h
    | _ => exact everywhere_empty
  | _ => simp_all [Question.Forall, Question.operands, everywhere_iff_forall]

end Everywhere

/-- The command states no false facts: the flags of its literals hold, and it sets none itself. -/
def Command.Honest : Command Term → Prop
  | .produce p _ => p.Forall Term.Honest
  | .change _ c => c.Forall Term.Honest
  | .ask q => q.Forall Term.Honest Failure.Honest
  | .drop _ => True

/-! ## Reading -/

section Supplies

variable {β γ : Type} {Q : β → Prop} {R : γ → Prop}

/-- From truthful registers, reading leaves truthful registers and answers what has the property. -/
def Reading.Supplies (r : Reading β) (Q : β → Prop) : Prop :=
  ∀ registers n b registers' n', r.run (registers, n) = .ok (b, registers', n') →
    Truthful registers.contents → Truthful registers'.contents ∧ Q b

theorem supplies_pure {b : β} (h : Q b) : (pure b : Reading β).Supplies Q := by
  intro registers n b' registers' n' hrun hregisters
  cases hrun
  exact ⟨hregisters, h⟩

theorem supplies_throw (e : Refusal) : (throw e : Reading β).Supplies Q := by
  intro registers n b registers' n' hrun
  cases hrun

theorem Reading.Supplies.bind {r : Reading β} {f : β → Reading γ} (hr : r.Supplies Q)
    (hf : ∀ b, Q b → (f b).Supplies R) : (r >>= f).Supplies R := by
  intro registers n c registers' n' h hregisters
  obtain ⟨⟨b, registers₁, n₁⟩, hrun, hnext⟩ := refusal_bind_eq_ok h
  obtain ⟨hregisters₁, hb⟩ := hr registers n b registers₁ n₁ hrun hregisters
  exact hf b hb registers₁ n₁ c registers' n' hnext hregisters₁

/-- A part that is only packed up afterwards. -/
theorem Reading.Supplies.last {r : Reading β} {g : β → γ} (hr : r.Supplies Q)
    (hg : ∀ b, Q b → R (g b)) : (do return g (← r)).Supplies R :=
  hr.bind fun b hb => supplies_pure (hg b hb)

theorem supplies_buffer {a : Arr Value} (h : a.flags.Hold a.values) (hcells : a.cells = []) :
    (pure (.array a) : Reading Value).Supplies Truthful := by
  refine supplies_pure (truthful_arr.2 ⟨h, ?_⟩)
  rw [hcells]
  exact everywhere_empty

theorem supplies_ref (s : Site) (name : String) : ((Term.ref name).read s).Supplies Truthful := by
  intro registers n v registers' n' h hregisters
  cases hget : registers.get? name with
  | some w =>
    have hrun : ((Term.ref name).read s).run (registers, n) = .ok (w, registers, n) := by
      simp [Term.read, hget]
      rfl
    cases hrun.symm.trans h
    exact ⟨hregisters, Registers.everywhere_get? hregisters hget⟩
  | none =>
    have hrun : ((Term.ref name).read s).run (registers, n) = .error (.noRegister name) := by
      simp [Term.read, hget]
      rfl
    cases hrun.symm.trans h

theorem supplies_take (s : Site) (name : String) : ((Term.take name).read s).Supplies Truthful := by
  intro registers n v registers' n' h hregisters
  cases hget : registers.get? name with
  | some w =>
    have hrun : ((Term.take name).read s).run (registers, n) =
        .ok (w, registers.erase name, n) := by
      simp [Term.read, hget]
      rfl
    cases hrun.symm.trans h
    exact ⟨(registers.erase_within name).everywhere hregisters,
      Registers.everywhere_get? hregisters hget⟩
  | none =>
    have hrun : ((Term.take name).read s).run (registers, n) = .error (.noRegister name) := by
      simp [Term.read, hget]
      rfl
    cases hrun.symm.trans h

end Supplies

/-! ## Terms -/

mutual

theorem supplies_read (s : Site) : ∀ t : Term, t.Honest → (t.read s).Supplies Truthful
  | .nil, _ => supplies_pure everywhere_nil
  | .int n, _ => supplies_pure (everywhere_int n)
  | .float x, _ => supplies_pure (everywhere_float x)
  | .str t, _ => supplies_pure (everywhere_str t)
  | .builtin b, _ => supplies_pure (everywhere_builtin b)
  | .bools flags xs, h =>
    supplies_buffer (a := .bools (.ofList s xs flags))
      (by rwa [Arr.values, Window.items_ofList]) rfl
  | .ints flags xs, h =>
    supplies_buffer (a := .ints (.ofList s xs flags))
      (by rwa [Arr.values, Window.items_ofList]) rfl
  | .floats flags xs, h =>
    supplies_buffer (a := .floats (.ofList s xs flags))
      (by rwa [Arr.values, Window.items_ofList]) rfl
  | .strs flags xs, h =>
    supplies_buffer (a := .strs (.ofList s xs flags))
      (by rwa [Arr.values, Window.items_ofList]) rfl
  | .list flags items, h =>
    (supplies_readTerms s 0 items h.2).last fun vs hvs =>
      truthful_of_silent (a := .list (.ofList s vs flags)) h.1 hvs
  | .dict keys vals, h => by
    refine (supplies_read (s.sub 0) keys h.1).bind fun k hk => ?_
    refine (supplies_read (s.sub 1) vals h.2).bind fun v hv => ?_
    split
    · split
      · rename_i d hd
        unfold Dict.ofArrays? at hd
        split at hd <;> cases hd
        exact supplies_pure (truthful_dict.2 (everywhere_entries.2 ⟨hk, hv⟩))
      · exact supplies_throw _
    · exact supplies_throw _
  | .error t, h =>
    (supplies_read (s.sub 0) t h).last fun v hv => (everywhere_errorValue s v).2 ⟨trivial, hv⟩
  | .lambda name arity body, h =>
    (supplies_readBody (s.sub 0) body h).last fun b hb => (everywhere_lambda ..).2 ⟨trivial, hb⟩
  | .compose outer inner, h =>
    (supplies_read (s.sub 0) outer h.1).bind fun f hf =>
      (supplies_read (s.sub 1) inner h.2).last fun g hg =>
        (everywhere_compose s f g).2 ⟨trivial, hf, hg⟩
  | .project f args, h =>
    (supplies_read (s.sub 0) f h.1).bind fun g hg =>
      (supplies_readArgs s 1 args h.2).last fun vs hvs =>
        (everywhere_project s g vs).2 ⟨trivial, hg, hvs⟩
  | .ref name, _ => supplies_ref s name
  | .take name, _ => supplies_take s name

theorem supplies_readTerms (s : Site) (i : Nat) :
    ∀ ts : List Term, HonestTerms ts → (readTerms s i ts).Supplies Truthful
  | [], _ => supplies_pure everywhere_empty
  | t :: ts, h =>
    (supplies_read (s.sub i) t h.1).bind fun v hv =>
      (supplies_readTerms s (i + 1) ts h.2).last fun vs hvs => (everywhere_cons v vs).2 ⟨hv, hvs⟩

theorem supplies_readArgs (s : Site) (i : Nat) :
    ∀ ts : List (Option Term), HonestArgs ts → (readArgs s i ts).Supplies Truthful
  | [], _ => supplies_pure everywhere_empty
  | none :: ts, h =>
    (supplies_readArgs s (i + 1) ts h).last fun vs hvs =>
      (everywhere_cons none vs).2 ⟨everywhere_none, hvs⟩
  | some t :: ts, h =>
    (supplies_read (s.sub i) t h.1).bind fun v hv =>
      (supplies_readArgs s (i + 1) ts h.2).last fun vs hvs =>
        (everywhere_cons (some v) vs).2 ⟨hv, hvs⟩

theorem supplies_readBody (s : Site) : ∀ b : Body Term, b.Honest → (b.read s).Supplies Truthful
  | .arg k, _ => supplies_pure (everywhere_body_arg k)
  | .const t, h => (supplies_read s t h).last fun v hv => (everywhere_body_const v).2 hv
  | .call f args, h =>
    (supplies_read (s.sub 0) f h.1).bind fun g hg =>
      (supplies_readBodies s 1 args h.2).last fun bs hbs => (everywhere_body_call g bs).2 ⟨hg, hbs⟩
  | .raise b, h =>
    (supplies_readBody (s.sub 0) b h).last fun b hb => (everywhere_body_raise b).2 hb
  | .fail e, h => (supplies_readFailure s e h).last fun e he => (everywhere_body_fail e).2 he
  | .branch c t e, h =>
    (supplies_readBody (s.sub 0) c h.1).bind fun c hc =>
      (supplies_readBody (s.sub 1) t h.2.1).bind fun t ht =>
        (supplies_readBody (s.sub 2) e h.2.2).last fun e he =>
          (everywhere_body_branch c t e).2 ⟨⟨hc, ht⟩, he⟩
  | .amend form x y f, h =>
    (supplies_readBody (s.sub 0) x h.1).bind fun x hx =>
      (supplies_readBody (s.sub 1) y h.2.1).bind fun y hy =>
        (supplies_read (s.sub 2) f h.2.2).last fun f hf =>
          (everywhere_body_amend form x y f).2 ⟨⟨hx, hy⟩, hf⟩
  | .amendWith form x y f z, h =>
    (supplies_readBody (s.sub 0) x h.1).bind fun x hx =>
      (supplies_readBody (s.sub 1) y h.2.1).bind fun y hy =>
        (supplies_read (s.sub 2) f h.2.2.1).bind fun f hf =>
          (supplies_readBody (s.sub 3) z h.2.2.2).last fun z hz =>
            (everywhere_body_amendWith form x y f z).2 ⟨⟨⟨hx, hy⟩, hf⟩, hz⟩

theorem supplies_readBodies (s : Site) (i : Nat) :
    ∀ bs : List (Body Term), HonestBodies bs → (readBodies s i bs).Supplies Truthful
  | [], _ => supplies_pure everywhere_empty
  | b :: bs, h =>
    (supplies_readBody (s.sub i) b h.1).bind fun b hb =>
      (supplies_readBodies s (i + 1) bs h.2).last fun bs hbs => (everywhere_cons b bs).2 ⟨hb, hbs⟩

theorem supplies_readFailure (s : Site) :
    ∀ e : Failure Term, e.Honest → (e.read s).Supplies Truthful
  | ⟨.outOfBounds _ _, _, _⟩, _ => supplies_pure (everywhere_failure rfl)
  | ⟨.length _ _ _, _, _⟩, _ => supplies_pure (everywhere_failure rfl)
  | ⟨.type _ _, _, _⟩, _ => supplies_pure (everywhere_failure rfl)
  | ⟨.depth _, _, _⟩, _ => supplies_pure (everywhere_failure rfl)
  | ⟨.domain _, _, _⟩, _ => supplies_pure (everywhere_failure rfl)
  | ⟨.arity _ _ _, _, _⟩, _ => supplies_pure (everywhere_failure rfl)
  | ⟨.raised t, op, hint⟩, h =>
    (supplies_read s t h).last fun v hv => (everywhere_raised v op hint).2 hv

end

/-! ## Operands -/

section Operands

variable {β : Type} {Q : β → Prop} {s : Site}

theorem supplies_operand {t : Term} (h : t.Honest) : (Reading.operand s t).Supplies Truthful := by
  intro registers n b registers' n' hrun
  exact supplies_read (s.sub n) t h registers (n + 1) b registers' n' hrun

theorem supplies_operands {ts : List Term} (h : ∀ t ∈ ts, t.Honest) :
    (ts.mapM (Reading.operand s)).Supplies fun vs => ∀ v ∈ vs, Truthful v := by
  induction ts with
  | nil => exact supplies_pure (List.forall_mem_nil _)
  | cons t ts ih =>
    obtain ⟨ht, hts⟩ := List.forall_mem_cons.1 h
    rw [List.mapM_cons]
    exact (supplies_operand ht).bind fun v hv =>
      (ih hts).last fun vs hvs => List.forall_mem_cons.2 ⟨hv, hvs⟩

theorem supplies_option {t : Option Term} (h : ∀ u ∈ t, u.Honest) :
    (t.mapM (Reading.operand s)).Supplies fun z => ∀ v ∈ z, Truthful v := by
  cases t with
  | none => exact supplies_pure nofun
  | some t =>
    refine (supplies_operand (h t rfl)).last fun v hv => ?_
    rintro _ ⟨⟩
    exact hv

/-- A command with one operand. -/
theorem supplies_one {g : Value → β} {t : Term} (ht : t.Honest)
    (hg : ∀ v, Truthful v → Q (g v)) : (do return g (← Reading.operand s t)).Supplies Q :=
  (supplies_operand ht).last hg

/-- A command with two operands. -/
theorem supplies_two {g : Value → Value → β} {t u : Term} (h : t.Honest ∧ u.Honest)
    (hg : ∀ v w, Truthful v ∧ Truthful w → Q (g v w)) :
    (do return g (← Reading.operand s t) (← Reading.operand s u)).Supplies Q :=
  (supplies_operand h.1).bind fun v hv => (supplies_operand h.2).last fun w hw => hg v w ⟨hv, hw⟩

theorem supplies_production {p : Production Term} (h : p.Forall Term.Honest) :
    (p.mapM (Reading.operand s)).Supplies (·.Forall Truthful) := by
  cases p with
  | amend form x y f z =>
    exact (supplies_operand h.1).bind fun x hx => (supplies_operand h.2.1).bind fun y hy =>
      (supplies_operand h.2.2.1).bind fun f hf => (supplies_option h.2.2.2).last fun z hz =>
        ⟨hx, hy, hf, hz⟩
  | apply f args =>
    exact (supplies_operand h.1).bind fun f hf => (supplies_operands h.2).last fun args hargs =>
      ⟨hf, hargs⟩
  | merge left right f =>
    exact (supplies_operand h.1).bind fun l hl => (supplies_operand h.2.1).bind fun r hr =>
      (supplies_operand h.2.2).last fun f hf => ⟨hl, hr, hf⟩
  | callAmend verb args => exact (supplies_operands h).last fun _ h => h
  | list items => exact (supplies_operands h).last fun _ h => h
  | dyadic b x y => exact supplies_two h fun _ _ h => h
  | dict keys vals => exact supplies_two h fun _ _ h => h
  | concat x y => exact supplies_two h fun _ _ h => h
  | adopt container v => exact supplies_two h fun _ _ h => h
  | til n => exact supplies_pure trivial
  | empty kind => exact supplies_pure trivial
  | emptyDict => exact supplies_pure trivial
  | _ => exact supplies_one h fun _ h => h

theorem supplies_change {change : Change Term} (h : change.Forall Term.Honest) :
    (change.mapM (Reading.operand s)).Supplies (·.Forall Truthful) := by
  cases change with
  | amend form y f z =>
    exact (supplies_operand h.1).bind fun y hy => (supplies_operand h.2.1).bind fun f hf =>
      (supplies_option h.2.2).last fun z hz => ⟨hy, hf, hz⟩
  | setAt i v => exact supplies_one h fun _ h => h
  | put i v => exact supplies_one h fun _ h => h
  | push v => exact supplies_one h fun _ h => h
  | extend w => exact supplies_one h fun _ h => h
  | appendKey k => exact supplies_one h fun _ h => h
  | appendEntries keys vals => exact supplies_two h fun _ _ h => h
  | _ => exact supplies_pure h

theorem supplies_question {q : Question Term} (h : q.Forall Term.Honest Failure.Honest) :
    (q.mapM (Reading.operand s) fun e => e.read (s.sub 0)).Supplies
      (·.Forall Truthful Truthful) := by
  cases q with
  | failure e => exact (supplies_readFailure (s.sub 0) e h).last fun _ h => h
  | arity name args lo hi => exact (supplies_operands h).last fun _ h => h
  | «at» x i => exact supplies_one h fun _ h => h
  | display x => exact supplies_one h fun _ h => h
  | describe x => exact supplies_one h fun _ h => h
  | amendText verb f dyadic => exact supplies_one h fun _ h => h
  | find x v => exact supplies_two h fun _ _ h => h
  | canStore x v => exact supplies_two h fun _ _ h => h
  | lookup d k => exact supplies_two h fun _ _ h => h
  | positions d keys threshold => exact supplies_two h fun _ _ h => h
  | equal x y => exact supplies_two h fun _ _ h => h
  | _ => exact supplies_pure trivial

end Operands

end SharedArrays
