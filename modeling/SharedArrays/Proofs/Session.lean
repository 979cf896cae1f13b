import SharedArrays.Proofs.Everywhere
import SharedArrays.Session.Step

/-!
# Steps of sessions

What the steps of a session have in common, whatever is proved of them: a step reads its operands,
which may take registers away, and then carries out its command on what remains.

## Main definitions

* `Registers.Within` — some of the registers, with the content that they had
* `Session.Reachable` — the sessions that steps lead to

## Main results

* `Registers.Within.get?`, `Registers.Within.everywhere` — what remains is as it was
* `step_produce`, `step_change`, `step_ask`, `step_drop` — what a step does
-/

namespace SharedArrays

/-! ## Registers -/

namespace Registers

/-- The registers with the names that `keep` chooses. -/
def restrict (registers : Registers) (keep : String → Bool) : Registers :=
  registers.filter fun e => keep e.1

/-- Some of the registers are gone, and the others have the content that they had. -/
def Within (registers' registers : Registers) : Prop :=
  ∃ keep, registers' = registers.restrict keep

variable {registers registers' registers'' : Registers} {name : String} {v : Value}

theorem within_refl (registers : Registers) : registers.Within registers :=
  ⟨fun _ => true, (List.filter_eq_self.2 fun _ _ => rfl).symm⟩

theorem Within.trans (h : registers''.Within registers') (h' : registers'.Within registers) :
    registers''.Within registers := by
  obtain ⟨keep', rfl⟩ := h
  obtain ⟨keep, rfl⟩ := h'
  exact ⟨fun name => keep' name && keep name, List.filter_filter ..⟩

theorem erase_within (registers : Registers) (name : String) :
    (registers.erase name).Within registers := ⟨(· != name), rfl⟩

theorem mem_of_get? (h : registers.get? name = some v) : (name, v) ∈ registers := by
  obtain ⟨before, after, hsplit, -⟩ := List.lookup_eq_some_iff.1 h
  rw [hsplit]
  exact List.mem_append_right _ (List.mem_cons_self ..)

theorem get?_restrict {keep : String → Bool} (hkeep : keep name = true) :
    (registers.restrict keep).get? name = registers.get? name := by
  induction registers with
  | nil => rfl
  | cons e registers ih =>
    rw [restrict, get?, get?, List.filter_cons, List.lookup_cons]
    rw [restrict, get?, get?] at ih
    by_cases hname : name = e.1
    · rw [← hname, hkeep, if_pos rfl, List.lookup_cons, ← hname, BEq.rfl]
    · have hne : (name == e.1) = false := beq_eq_false_iff_ne.2 hname
      split
      · rw [List.lookup_cons, hne, ih]
      · rw [hne, ih]

theorem Within.get? (h : registers'.Within registers) (hv : registers'.get? name = some v) :
    registers.get? name = some v := by
  obtain ⟨keep, rfl⟩ := h
  have hkeep : keep name = true := (List.mem_filter.1 (mem_of_get? hv)).2
  exact (get?_restrict hkeep).symm.trans hv

theorem get?_set_of_ne {name' : String} (h : name ≠ name') :
    (registers.set name' v).get? name = registers.get? name := by
  rw [set, get?, List.lookup_cons, beq_eq_false_iff_ne.2 h]
  have hkeep : (name != name') = true := bne_iff_ne.2 h
  exact @get?_restrict registers name (· != name') hkeep

/-- The registers after a production that may go into one of them. -/
def store (registers : Registers) (answer : Result Value) (dest : Option String) : Registers :=
  match answer, dest with
  | .ok v, some name => registers.set name v
  | _, _ => registers

theorem get?_store {answer : Result Value} {dest : Option String} (h : dest ≠ some name) :
    (registers.store answer dest).get? name = registers.get? name := by
  unfold store
  split
  · rename_i v name'
    exact get?_set_of_ne fun heq => h (heq ▸ rfl)
  · rfl

section Everywhere

variable {P : Value → Prop}

theorem Within.everywhere (h : registers'.Within registers)
    (hregisters : Everywhere P registers.contents) : Everywhere P registers'.contents := by
  obtain ⟨keep, rfl⟩ := h
  refine everywhere_of_subset hregisters fun v hv => ?_
  obtain ⟨e, he, rfl⟩ := List.mem_map.1 hv
  exact List.mem_map.2 ⟨e, (List.mem_filter.1 he).1, rfl⟩

theorem everywhere_get? (h : Everywhere P registers.contents) (hv : registers.get? name = some v) :
    Everywhere P v :=
  everywhere_iff_forall.1 h v (List.mem_map.2 ⟨_, mem_of_get? hv, rfl⟩)

theorem everywhere_set (h : Everywhere P registers.contents) (hv : Everywhere P v)
    (name : String) : Everywhere P (registers.set name v).contents :=
  (everywhere_cons ..).2 ⟨hv, (erase_within registers name).everywhere h⟩

theorem everywhere_store (h : Everywhere P registers.contents) {answer : Result Value}
    (hanswer : Everywhere P answer) (dest : Option String) :
    Everywhere P (registers.store answer dest).contents := by
  unfold store
  split
  · exact everywhere_set h hanswer _
  · exact h

end Everywhere

end Registers

/-! ## Operands and answers -/

/-- The operands of a production. -/
def Production.operands : Production Value → List Value
  | .value x => [x]
  | .amend _ x y f z => x :: y :: f :: z.toList
  | .apply f args => f :: args
  | .callAmend _ args => args
  | .merge left right f => [left, right, f]
  | .monadic _ x => [x]
  | .dyadic _ x y => [x, y]
  | .list items => items
  | .dict keys vals => [keys, vals]
  | .canonical x => [x]
  | .til _ => []
  | .empty _ => []
  | .emptyDict => []
  | .get x _ => [x]
  | .slice x _ _ => [x]
  | .select x _ => [x]
  | .concat x y => [x, y]
  | .padding x => [x]
  | .copy x => [x]
  | .reuse x => [x]
  | .adopt container v => [container, v]

instance : HasNodes (Production Value) := ⟨fun p => allNodes p.operands⟩

instance : HasNodes (Change Value) := ⟨fun change => allNodes change.operands⟩

/-- The operands of a question. A failure is an operand by the value that it may hold. -/
def Question.operands : Question Value → List Value
  | .at x _ => [x]
  | .find x v => [x, v]
  | .canStore x v => [x, v]
  | .lookup d k => [d, k]
  | .positions d keys _ => [d, keys]
  | .display x => [x]
  | .equal x y => [x, y]
  | .describe x => [x]
  | .amendText _ f _ => [f]
  | .failure ⟨.raised v, _, _⟩ => [v]
  | .arity _ args _ _ => args
  | _ => []

instance : HasNodes (Question Value) := ⟨fun q => allNodes q.operands⟩

instance : HasNodes Answer :=
  ⟨fun answer => match answer with
    | .value v => v.nodes
    | .element v => allNodes v
    | .refused v => v.nodes
    | .lookup _ v _ => allNodes v
    | .description d => d.value.nodes ++ d.neutral.nodes
    | .failure e _ v => allNodes e ++ v.nodes
    | _ => []⟩

theorem toArr_bind_eq_ok {β : Type} {v : Value} {f : Arr Value → Except Refusal β} {b : β}
    (h : (v.toArr >>= f) = .ok b) : ∃ a, v = .array a ∧ f a = .ok b := by
  cases v <;> first | exact ⟨_, rfl, h⟩ | cases h

theorem toDict_bind_eq_ok {β : Type} {v : Value} {f : Dict Value → Except Refusal β} {b : β}
    (h : (v.toDict >>= f) = .ok b) : ∃ s d, v = .dict s d ∧ f d = .ok b := by
  cases v <;> first | exact ⟨_, _, rfl, h⟩ | cases h

theorem everywhere_mapArray {P : Value → Prop} {r : Result (Arr Value)} :
    Everywhere P (r.map Value.array) ↔ Everywhere P r := by
  cases r <;> exact Iff.rfl

/-! ## Steps -/

theorem refusal_bind_eq_ok {β γ : Type} {r : Except Refusal β} {f : β → Except Refusal γ} {c : γ}
    (h : (r >>= f) = .ok c) : ∃ b, r = .ok b ∧ f b = .ok c := by
  cases r with
  | ok b => exact ⟨b, rfl, h⟩
  | error e => cases h

namespace Session

/-- The site of the next step. -/
def site (σ : Session) : Site := Site.step σ.steps

/-- The sessions that steps lead to. -/
inductive Reachable : Session → Prop
  | start (settings : Settings) : Reachable { settings }
  | step {σ σ' : Session} {command : Command Term} {reply : Reply} :
    Reachable σ → σ.step command = .ok (σ', reply) → Reachable σ'

end Session

section Steps

variable {σ σ' : Session} {reply : Reply}

theorem step_produce {p : Production Term} {dest : Option String}
    (h : σ.step (.produce p dest) = .ok (σ', reply)) :
    ∃ p' registers n answer,
      (p.mapM (Reading.operand σ.site)).run (σ.registers, 1) = .ok (p', registers, n) ∧
      p'.run σ.settings ⟨registers.contents, σ.site.sub 0⟩ = .ok answer ∧
      σ' = { σ with registers := registers.store answer dest, steps := σ.steps + 1 } ∧
      reply = ⟨answer.map .value, none⟩ := by
  obtain ⟨⟨p', registers⟩, hread, hrest⟩ := refusal_bind_eq_ok h
  obtain ⟨⟨p'', registers', n⟩, hrun, hpack⟩ := refusal_bind_eq_ok hread
  cases hpack
  obtain ⟨answer, hanswer, hnext⟩ := refusal_bind_eq_ok hrest
  cases hnext
  exact ⟨p', registers, n, answer, hrun, hanswer, rfl, rfl⟩

theorem step_change {name : String} {change : Change Term}
    (h : σ.step (.change name change) = .ok (σ', reply)) :
    ∃ change' registers n x x' answer,
      (change.mapM (Reading.operand σ.site)).run (σ.registers, 1) = .ok (change', registers, n) ∧
      registers.get? name = some x ∧
      change'.run σ.settings
        ⟨(registers.erase name).contents ++ change'.operands, σ.site.sub 0⟩ x = .ok (x', answer) ∧
      σ' = { σ with registers := (registers.erase name).set name x', steps := σ.steps + 1 } ∧
      reply = ⟨answer, some x'⟩ := by
  obtain ⟨⟨change', registers⟩, hread, hrest⟩ := refusal_bind_eq_ok h
  obtain ⟨⟨change'', registers', n⟩, hrun, hpack⟩ := refusal_bind_eq_ok hread
  cases hpack
  simp only at hrest
  split at hrest
  · cases hrest
  · rename_i x hx
    obtain ⟨⟨x', answer⟩, hanswer, hnext⟩ := refusal_bind_eq_ok hrest
    cases hnext
    exact ⟨change', registers, n, x, x', answer, hrun, hx, hanswer, rfl, rfl⟩

theorem step_ask {q : Question Term} (h : σ.step (.ask q) = .ok (σ', reply)) :
    ∃ q' registers n answer,
      (q.mapM (Reading.operand σ.site) fun e => e.read (σ.site.sub 0)).run (σ.registers, 1) =
        .ok (q', registers, n) ∧
      q'.answer registers (σ.site.sub 0) = .ok answer ∧
      σ' = { σ with registers, steps := σ.steps + 1 } ∧ reply = ⟨answer, none⟩ := by
  obtain ⟨⟨q', registers⟩, hread, hrest⟩ := refusal_bind_eq_ok h
  obtain ⟨⟨q'', registers', n⟩, hrun, hpack⟩ := refusal_bind_eq_ok hread
  cases hpack
  obtain ⟨answer, hanswer, hnext⟩ := refusal_bind_eq_ok hrest
  cases hnext
  exact ⟨q', registers, n, answer, hrun, hanswer, rfl, rfl⟩

theorem step_drop {name : String} (h : σ.step (.drop name) = .ok (σ', reply)) :
    σ' = { σ with registers := σ.registers.erase name, steps := σ.steps + 1 } ∧
      reply = ⟨.ok .nothing, none⟩ := by
  cases h
  exact ⟨rfl, rfl⟩

end Steps

end SharedArrays
