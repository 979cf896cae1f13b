import SharedArrays.Proofs.Freeze.Amend
import SharedArrays.Proofs.Store.Session

/-!
# Frozen registers

A register is frozen to protect its content from writes in place, whatever becomes of the other
handles on it. The pins are on handles, and freezing sets them along the ways on which no other
handle can be met: what is behind a container that was shared at that moment stays unpinned. What
is pinned stays so for as long as the register is not written to, and the next amend through the
register moves it to a new buffer before it writes.

## Main definitions

* `Session.LeadsBeside` — steps that do not write to a register
* `Session.PinsAt` — what a pin in a register is good for as long as the register is not written to
* `Session.SparesPinned` — what it is good for when the register is written to

## Main results

* `Session.LeadsBeside.exists_backed` — the register keeps its content, if it is still there
* `freeze_pins` — freezing pins all arrays at the ends of unshared ways, for good
* `shared_list_not_frozen` — behind a container that is shared, nothing is pinned
-/

namespace SharedArrays

/-! ## The register and its surroundings -/

/-- The other registers sit away from a register. -/
theorem exists_away {registers : Registers} {name : String} {x : Value}
    (hx : registers.get? name = some x) (s : Site) :
    ∃ n away, Scope.Away ⟨(registers.erase name).contents, s⟩
      (handleCount.handlesOfRoots 0 registers.contents) x (.root n) away := by
  obtain ⟨n, hn⟩ := List.mem_iff_getElem?.1 (Registers.mem_of_get? hx)
  have hroot {m : Nat} {e : String × Value} (he : registers[m]? = some e) :
      ∀ h ∈ e.2.handles (.root m), h ∈ handleCount.handlesOfRoots 0 registers.contents := by
    intro h hh
    refine mem_handlesOfRoots.2 ⟨m, e.2, ?_, ?_⟩
    · rw [Registers.contents, List.getElem?_map, he]
      rfl
    · rwa [Nat.zero_add]
  refine ⟨n, fun h => ∃ m e, m ≠ n ∧ registers[m]? = some e ∧ h ∈ e.2.handles (.root m), ?_⟩
  constructor
  · intro t ht
    obtain ⟨w, hw, ht⟩ := List.any_eq_true.1 ht
    obtain ⟨e, he, rfl⟩ := List.mem_map.1 hw
    obtain ⟨hmem, hne⟩ := List.mem_filter.1 he
    obtain ⟨m, hm⟩ := List.mem_iff_getElem?.1 hmem
    obtain ⟨h, hh, hobject⟩ := exists_handle_of_names (.root m) ((holds_iff t e.2).1 ht)
    refine ⟨h, ⟨m, e, ?_, hm, hh⟩, hobject⟩
    rintro rfl
    cases hn.symm.trans hm
    simp at hne
  · rintro h ⟨m, e, -, he, hh⟩
    exact hroot he h hh
  · exact hroot hn
  · rintro h ⟨m, e, hmn, -, hh⟩ heq
    rcases e.2.closedOver_handles _ h hh with hplace | ⟨t, ⟨path, hplace⟩, -⟩
    · exact hmn (Place.root.inj (hplace.symm.trans heq))
    · cases hplace.symm.trans heq
  · rintro h ⟨m, e, hmn, he, hh⟩ t ⟨path, ht⟩
    rcases e.2.closedOver_handles _ h hh with hplace | ⟨t', ⟨path', hplace⟩, h', hh', hobject⟩
    · cases hplace.symm.trans ht
    · cases hplace.symm.trans ht
      exact .inr ⟨h', ⟨m, e, hmn, he, hh'⟩, hobject⟩

/-! ## Steps beside a register -/

/-- The sessions that steps lead to which do not write to the register. -/
inductive Session.LeadsBeside (name : String) (σ : Session) : Session → Prop
  | refl : LeadsBeside name σ σ
  | step {σ' σ'' : Session} {command : Command Term} {reply : Reply} :
    LeadsBeside name σ σ' → command.target? ≠ some name → σ'.step command = .ok (σ'', reply) →
      LeadsBeside name σ σ''

section LeadsBeside

variable {σ σ' : Session} {name : String} {reply : Reply}

theorem steps_step {command : Command Term} (h : σ.step command = .ok (σ', reply)) :
    σ'.steps = σ.steps + 1 := by
  cases command with
  | produce p dest =>
    obtain ⟨_, _, _, _, -, -, rfl, -⟩ := step_produce h
    rfl
  | change name change =>
    obtain ⟨_, _, _, _, _, _, -, -, -, rfl, -⟩ := step_change h
    rfl
  | ask q =>
    obtain ⟨_, _, _, _, -, -, rfl, -⟩ := step_ask h
    rfl
  | drop name =>
    obtain ⟨rfl, -⟩ := step_drop h
    rfl

theorem Session.LeadsBeside.le_steps (h : σ.LeadsBeside name σ') : σ.steps ≤ σ'.steps := by
  induction h with
  | refl => exact Nat.le_refl _
  | step _ _ hstep ih => exact Nat.le_trans ih (steps_step hstep ▸ Nat.le_succ _)

/-- A register that is not written to keeps its content for as long as it is there. -/
theorem Session.LeadsBeside.exists_backed {st : Store} (h : σ.LeadsBeside name σ')
    (hσ : σ.Backed st) : ∃ st', σ'.Backed st' ∧
      ∀ v, σ'.registers.get? name = some v → σ.registers.get? name = some v := by
  induction h with
  | refl => exact ⟨st, hσ, fun _ hv => hv⟩
  | step _ htarget hstep ih =>
    obtain ⟨st₁, hσ₁, hkept⟩ := ih
    obtain ⟨st₂, hσ₂, hsteady⟩ := hσ₁.step hstep
    exact ⟨st₂, hσ₂, fun v hv => hkept v (hsteady name v htarget hv).1⟩

end LeadsBeside

/-! ## Pins in a register -/

/-- What goes into an amend through the register, once its operands have been read. -/
structure Session.Feeds (σ : Session) (name : String) (form : Form) (y f : Term) (z : Option Term)
    (I : Inputs) : Prop where
  slot : σ.registers.get? name = some I.slot
  operands : ∃ f' registers n, ((Change.amend form y f z).mapM (Reading.operand σ.site)).run
      (σ.registers, 1) = .ok (.amend form I.index f' I.operand, registers, n) ∧
    I.callee = .ofValue σ.settings f'
  site : I.site = σ.site.sub 0

/-- The array `b` at the end of a way into a register is pinned, and stays so through all steps
that do not write to the register. -/
structure Session.PinsAt (σ : Session) (name : String) (ps : List Part) (b : Arr Value) :
    Prop where
  pinned : b.flags.pinned = true
  /-- Whatever becomes of other registers, the handle is still there, and is reported as one that
  does not own its buffer alone. -/
  notSole : ∀ σ' x, σ.LeadsBeside name σ' → σ'.registers.get? name = some x →
    σ'.registers.locate ⟨name, ps⟩ = .ok (.array b) ∧
      ∃ σ'' o, σ'.step (.ask (.ownership ⟨name, ps⟩)) = .ok (σ'', ⟨.ok (.ownership o), none⟩) ∧
        o.sole = false

/-- The next amend through the register, also one that fails, does not write to pinned arrays in
place. After it, an array anywhere in the register is on a buffer that `σ` does not have, or it is
on the buffer on which an array was at its place, and then it is as it was if that one was pinned.
Only at a place to which the amend does not come itself it may be one that has been brought. -/
def Session.SparesPinned (σ : Session) (name : String) : Prop :=
  ∀ σ' σ'' reply form y f z, σ.LeadsBeside name σ' →
    σ'.step (.change name (.amend form y f z)) = .ok (σ'', reply) →
      ∃ I, σ'.Feeds name form y f z I ∧
        ∀ ps b', σ''.registers.locate ⟨name, ps⟩ = .ok (.array b') →
          ¬Names b'.storage σ.registers.contents ∨
            (∃ b, σ.registers.locate ⟨name, ps⟩ = .ok (.array b) ∧ b.Stays b') ∨
            ¬AmendReaches (form.levels I.index) ps ∧ I.Brings (.array b')

section Pins

variable {σ σ' : Session} {st : Store} {name : String} {x : Value} {ps : List Part}
  {a b : Arr Value} {reply : Reply}

theorem locate_eq_ok {registers : Registers} {v : Value} :
    registers.locate ⟨name, ps⟩ = .ok v ↔
      ∃ x, registers.get? name = some x ∧ x.part? ps = some v := by
  unfold Registers.locate
  constructor
  · intro h
    split at h
    · cases h
    · rename_i x hx
      cases hv : x.part? ps with
      | none => rw [hv] at h; cases h
      | some v' =>
        rw [hv] at h
        cases h
        exact ⟨x, hx, hv⟩
  · rintro ⟨x, hx, hv⟩
    simp only [hx, hv]
    rfl

theorem exists_step_ownership {v : Value} (h : σ.registers.locate ⟨name, ps⟩ = .ok v) :
    ∃ σ', σ.step (.ask (.ownership ⟨name, ps⟩)) =
      .ok (σ', ⟨.ok (.ownership (v.ownership σ.registers.contents)), none⟩) := by
  have hanswer : (Question.ownership ⟨name, ps⟩).answer σ.registers (σ.site.sub 0) =
      .ok (.ok (.ownership (v.ownership σ.registers.contents))) := by
    simp only [Question.answer, h]
    rfl
  refine ⟨{ σ with steps := σ.steps + 1 }, ?_⟩
  show (do return (({ σ with steps := σ.steps + 1 } : Session),
    (⟨← (Question.ownership ⟨name, ps⟩).answer σ.registers (σ.site.sub 0), none⟩ : Reply))) = _
  rw [hanswer]
  rfl

theorem sole_of_pinned (hb : b.flags.pinned = true) (roots : List Value) :
    ((Value.array b).ownership roots).sole = false := by
  simp [Value.ownership, Value.isSole, Value.isSole.sole, hb]

/-- The register keeps its content for as long as it is there. -/
theorem Session.Backed.eq_of_leadsBeside (hσ : σ.Backed st) (hx : σ.registers.get? name = some x)
    (h : σ.LeadsBeside name σ') {v : Value} (hv : σ'.registers.get? name = some v) : v = x := by
  obtain ⟨-, -, hkept⟩ := h.exists_backed hσ
  exact Option.some.inj ((hkept v hv).symm.trans hx)

theorem pinsAt_of_pinned (hσ : σ.Backed st) (hx : σ.registers.get? name = some x)
    (hb : x.part? ps = some (.array b)) (hpinned : b.flags.pinned = true) :
    σ.PinsAt name ps b := by
  refine ⟨hpinned, fun σ' x' hleads hx' => ?_⟩
  cases hσ.eq_of_leadsBeside hx hleads hx'
  have hlocate := locate_eq_ok.2 ⟨x, hx', hb⟩
  obtain ⟨σ'', hask⟩ := exists_step_ownership hlocate
  exact ⟨hlocate, σ'', _, hask, sole_of_pinned hpinned _⟩

theorem sparesPinned_of_backed (hσ : σ.Backed st) (hx : σ.registers.get? name = some x) :
    σ.SparesPinned name := by
  intro σ' σ'' reply form y f z hleads hstep
  obtain ⟨change', registers, n, x', x'', answer, hread, hx', hrun, rfl, -⟩ := step_change hstep
  obtain ⟨hwithin, -, -⟩ := (takes_change σ'.site (.amend form y f z)).made hread
  cases hσ.eq_of_leadsBeside hx hleads (hwithin.get? hx')
  have hread' := hread
  obtain ⟨⟨y', _⟩, -, hread⟩ := refusal_bind_eq_ok hread
  obtain ⟨⟨f', _⟩, -, hread⟩ := refusal_bind_eq_ok hread
  obtain ⟨⟨z', _⟩, -, hread⟩ := refusal_bind_eq_ok hread
  cases hread
  cases hrun
  let I : Inputs := ⟨x, y', .ofValue σ'.settings f', z', σ'.site.sub 0⟩
  refine ⟨I, ⟨hwithin.get? hx', ⟨f', registers, n, hread', rfl⟩, rfl⟩, fun ps b' hb' => ?_⟩
  obtain ⟨x'', hx'', hb'⟩ := locate_eq_ok.1 hb'
  cases (Registers.get?_set ..).symm.trans hx''
  have hmoves := @moves_amendBy σ'.settings I form
    ⟨(registers.erase name).contents ++ (y' :: f' :: z'.toList), σ'.site.sub 0⟩ rfl
  by_cases hreaches : AmendReaches (form.levels y') ps
  · rcases hmoves.reached ps b' hreaches hb' with hnew | ⟨b, hb, hstays⟩
    · -- The step makes its objects at sites that nothing had before it.
      refine .inl fun hnames => hσ.contents.ne_none hnames ?_
      exact hσ.free σ'.steps hleads.le_steps _ (Site.Covers.of_sub hnew)
    · exact .inr (.inl ⟨b, locate_eq_ok.2 ⟨x, hx, hb⟩, hstays⟩)
  · exact .inr (.inr ⟨hreaches, hmoves.beyond_of (Inputs.Brings.slot.beyond _) ps _ hreaches hb'⟩)

/-- Freezing a register always goes through. It pins every array in the register, at any depth, to
which a way leads through containers that have one handle each; the array of the register itself
is among them, whoever shares it. Amends through the register write to none of them in place. -/
theorem freeze_pins (h : σ.Reachable) (hx : σ.registers.get? name = some x) :
    ∃ σ₁ reply, σ.step (.change name .freeze) = .ok (σ₁, reply) ∧
      (∀ ps a, x.part? ps = some (.array a) → x.UnsharedTo σ.registers.contents ps →
        ∃ b, b.storage = a.storage ∧ Alike b a ∧ σ₁.PinsAt name ps b) ∧
      σ₁.SparesPinned name := by
  obtain ⟨st, hσ⟩ := h.exists_backed
  let c : Scope := ⟨(σ.registers.erase name).contents, σ.site.sub 0⟩
  let σ₁ : Session := { σ with
    registers := (σ.registers.erase name).set name (x.freeze c), steps := σ.steps + 1 }
  have hstep : σ.step (.change name .freeze) =
      .ok (σ₁, ⟨.ok .nothing, some (x.freeze c)⟩) := by
    -- A freeze has no operands, so that it finds all registers.
    have hread : ((Change.freeze : Change Term).mapM (Reading.operand σ.site)).run
        (σ.registers, 1) = .ok (.freeze, σ.registers, 1) := rfl
    have hheld : (σ.registers.erase name).contents ++ Change.operands .freeze = c.held :=
      List.append_nil _
    unfold Session.step
    simp only
    rw [show Site.step σ.steps = σ.site from rfl, hread]
    simp only [hx, hheld, bind, Except.bind, pure, Except.pure]
    rfl
  obtain ⟨st₁, hσ₁, -⟩ := hσ.step hstep
  obtain ⟨n, away, haway⟩ := exists_away hx (σ.site.sub 0)
  have hx₁ : σ₁.registers.get? name = some (x.freeze c) := Registers.get?_set ..
  refine ⟨σ₁, _, hstep, fun ps a ha hps => ?_, sparesPinned_of_backed hσ₁ hx₁⟩
  obtain ⟨b, hb, hpinned, hstorage, halike⟩ :=
    haway.part?_freeze (Registers.everywhere_get? hσ.contents hx) hps ha
  exact ⟨b, hstorage, halike, pinsAt_of_pinned hσ₁ hx₁ hb hpinned⟩

/-- A list is frozen while another register holds it, and then that register is dropped. The array
in the list was not pinned. It is reported as sole, and an amend through the register writes to its
buffer in place. -/
theorem shared_list_not_frozen :
    ∃ σ₁ σ₂ σ₃ σ₄ σ₅ σ₆ reply₁ reply₂ reply₃ reply₄ reply₆ o a b,
      ({} : Session).step (.produce (.value (.list {} [.ints {} [1], .str "x"])) (some "r")) =
        .ok (σ₁, reply₁) ∧
      σ₁.step (.produce (.value (.ref "r")) (some "s")) = .ok (σ₂, reply₂) ∧
      σ₂.step (.change "r" .freeze) = .ok (σ₃, reply₃) ∧
      σ₃.step (.drop "s") = .ok (σ₄, reply₄) ∧ (σ₂.Reachable ∧ σ₃.LeadsBeside "r" σ₄) ∧
      σ₄.step (.ask (.ownership ⟨"r", [.element 0]⟩)) =
        .ok (σ₅, ⟨.ok (.ownership o), none⟩) ∧ o.sole = true ∧
      σ₄.step (.change "r" (.amend .path (.ints {} [0, 0]) (.builtin .right) (some (.int 5)))) =
        .ok (σ₆, reply₆) ∧
      σ₃.registers.locate ⟨"r", [.element 0]⟩ = .ok (.array (.ints a)) ∧ a.items = [1] ∧
      σ₆.registers.locate ⟨"r", [.element 0]⟩ = .ok (.array (.ints b)) ∧ b.items = [5] ∧
      b.storage = a.storage := by
  refine ⟨_, _, _, _, _, _, _, _, _, _, _, _, _, _, rfl, rfl, rfl, rfl, ⟨?_, ?_⟩, rfl, rfl, rfl,
    rfl, ?_, rfl, ?_, rfl⟩
  · have hfirst : Session.step {}
      (.produce (.value (.list {} [.ints {} [1], .str "x"])) (some "r")) = .ok (_, _) := rfl
    exact .step (.step (.start {}) hfirst)
      (show Session.step _ (.produce (.value (.ref "r")) (some "s")) = .ok (_, _) from rfl)
  · exact @Session.LeadsBeside.step _ _ _ _ (.drop "s") _ .refl (by decide) rfl
  · decide
  · decide

/-- An array that stands in a dictionary in a list is pinned by way of the list, although another
register is on its buffer. Dropping that register does not change what is reported. -/
theorem freeze_pins_nested :
    let ps : List Part := [.element 0, .vals, .element 0]
    ∃ σ₁ σ₂ σ₃ σ₄ reply₁ reply₂ reply₃ reply₄ b,
      ({} : Session).step (.produce (.value (.ints {} [1, 2])) (some "s")) = .ok (σ₁, reply₁) ∧
      σ₁.step (.produce (.value (.list {} [.dict (.strs {} ["a"]) (.list {} [.ref "s"])]))
        (some "r")) = .ok (σ₂, reply₂) ∧
      σ₂.step (.change "r" .freeze) = .ok (σ₃, reply₃) ∧ σ₃.PinsAt "r" ps b ∧
      σ₃.step (.drop "s") = .ok (σ₄, reply₄) ∧
      handleCount σ₄.registers.contents b.storage = 1 ∧
      σ₄.registers.locate ⟨"r", ps⟩ = .ok (.array b) ∧
      ∃ σ₅ o, σ₄.step (.ask (.ownership ⟨"r", ps⟩)) = .ok (σ₅, ⟨.ok (.ownership o), none⟩) ∧
        o.sole = false := by
  intro ps
  have hfirst : Session.step {} (.produce (.value (.ints {} [1, 2])) (some "s")) =
    .ok (_, _) := rfl
  have hreachable := Session.Reachable.step (.step (.start {}) hfirst)
    (show Session.step _ (.produce (.value
      (.list {} [.dict (.strs {} ["a"]) (.list {} [.ref "s"])])) (some "r")) = .ok (_, _) from rfl)
  obtain ⟨σ₃, reply₃, hfreeze, hpins, -⟩ :=
    freeze_pins hreachable (show Registers.get? _ "r" = _ from rfl)
  obtain ⟨b, hstorage, -, hpinsAt⟩ := hpins ps _ rfl
    ⟨fun s hs => by cases hs; rfl, fun u hu => by
      cases hu
      exact ⟨fun s hs => by cases hs; rfl, fun u hu => by
        cases hu
        exact ⟨fun s hs => by cases hs; rfl, fun u hu => by cases hu; trivial⟩⟩⟩
  cases hfreeze.symm.trans (show Session.step _ _ = .ok (_, _) from rfl)
  refine ⟨_, _, _, _, _, _, _, _, b, rfl, rfl, rfl, hpinsAt, rfl, ?_, hpinsAt.notSole _ _ ?_ rfl⟩
  · rw [hstorage]
    rfl
  · exact @Session.LeadsBeside.step _ _ _ _ (.drop "s") _ .refl (by decide) rfl

end Pins

end SharedArrays
