import SharedArrays.Proofs.WellFormed.Session
import SharedArrays.Proofs.Alike.Commands

/-!
# Value semantics of sessions

One store stands behind all registers of a session, and handles that share a buffer name one entry
of it. What a step writes, it writes into the store. This file shows that no write can be seen
through another handle: through the other registers, through windows on the same buffer, from inside
of other containers, or through the operands of the step itself. In this sense each handle has a
list of its own.

## Main definitions

* `Store.Spares` — a write that shows through none of the other handles
* `Session.Backed` — the store behind a session
* `Change.Isolated`, `Production.Isolated` — a command that is seen through no other handle
* `Session.ValueSemantics` — all that the next step of a session leaves alone

## Main results

* `Scope.Turns.spares` — what an operation allows, in terms of the writes to the store
* `Session.Backed.step` — a step keeps the store behind the session
* `valueSemantics_of_reachable` — every reachable session has value semantics
-/

namespace SharedArrays

/-! ## Writing back -/

section WriteBack

variable {α β : Type} [HasNodes α] [HasNodes β] {c : Scope} {S T : Site → Prop}
  {st st' : Store} {x : α} {y : β} {t : Site}

theorem writeBack_of_not_names (ht : ¬Names t y) : st.writeBack y t = st t := by
  unfold Store.writeBack
  split
  · rename_i u hu
    have hbeq := List.find?_some hu
    exact absurd ⟨u, List.mem_of_find?_eq_some hu, eq_of_beq hbeq⟩ ht
  · rfl

theorem writeBack_of_names (h : LiesIn st' y) (ht : Names t y) : st.writeBack y t = st' t := by
  unfold Store.writeBack
  split
  · rename_i u hu
    have hbeq := List.find?_some hu
    have hname : u.name? = some t := eq_of_beq hbeq
    obtain ⟨⟨s, o⟩, htarget, hs⟩ := Option.map_eq_some_iff.1 hname
    cases hs
    rw [htarget]
    exact (h u (List.mem_of_find?_eq_some hu) _ _ htarget).symm
  · rename_i hnone
    obtain ⟨u, hu, hname⟩ := ht
    exact absurd (beq_iff_eq.2 hname) (List.find?_eq_none.1 hnone u hu)

theorem liesIn_writeBack (h : LiesIn st' y) : LiesIn (st.writeBack y) y :=
  h.congr fun _ => writeBack_of_names h

/-- Writing `y` into the store shows through none of the values `others`. -/
structure Store.Spares (st : Store) (others : List Value) (y : β) : Prop where
  /-- What the others reach has the content that it had. -/
  same : ∀ t, Names t others → st.writeBack y t = st t
  /-- The store has what is written. -/
  written : LiesIn (st.writeBack y) y

theorem Store.Spares.liesIn {others : List Value} (h : st.Spares others y)
    (hothers : LiesIn st others) : LiesIn (st.writeBack y) others :=
  hothers.congr h.same

/-- What surroundings allow shows through nothing that they hold, when it is written back. -/
theorem Scope.Allows.spares (h : c.Allows S st st') (hfree : ∀ t, S t → st t = none)
    (hheld : LiesIn st c.held) (hy : LiesIn st' y) : st.Spares c.held y := by
  refine ⟨fun t ht => ?_, liesIn_writeBack hy⟩
  by_cases hname : Names t y
  · rw [writeBack_of_names hy hname]
    exact h.held t (not_mem_of_liesIn hfree hheld t ht) ((scope_holds_iff c).2 ht)
  · exact writeBack_of_not_names hname

/-- Nothing is written at the sites of other operations. -/
theorem Scope.Allows.free_writeBack (h : c.Allows S st st') (hy : LiesIn st' y)
    (hT : ∀ t, T t → st t = none) (hTS : ∀ t, T t → ¬S t) : ∀ t, T t → st.writeBack y t = none := by
  intro t ht
  by_cases hname : Names t y
  · exact absurd (h.fresh t (hTS t ht) (hT t ht)) (hy.ne_none hname)
  · rw [writeBack_of_not_names hname, hT t ht]

theorem Scope.Turns.spares (h : c.Turns S x y) (hfree : ∀ t, S t → st t = none)
    (hheld : LiesIn st c.held) (hx : LiesIn st x) : st.Spares c.held y := by
  obtain ⟨st', hallows, hy⟩ := h st hfree hheld hx
  exact hallows.spares hfree hheld hy

theorem Scope.Turns.free_writeBack (h : c.Turns S x y) (hfree : ∀ t, S t → st t = none)
    (hheld : LiesIn st c.held) (hx : LiesIn st x) (hT : ∀ t, T t → st t = none)
    (hTS : ∀ t, T t → ¬S t) : ∀ t, T t → st.writeBack y t = none := by
  obtain ⟨st', hallows, hy⟩ := h st hfree hheld hx
  exact hallows.free_writeBack hy hT hTS

end WriteBack

/-! ## The store behind a session -/

namespace Session

/-- The registers lie in the store, which has nothing yet at the sites of steps to come. -/
structure Backed (σ : Session) (st : Store) : Prop where
  contents : LiesIn st σ.registers.contents
  free : ∀ n, σ.steps ≤ n → st.Free (Site.step n)

end Session

/-- Different steps have no sites in common. -/
theorem Site.step_apart {m n : Nat} (hmn : m ≠ n) {t : Site} (h : (Site.step m).Covers t) :
    ¬(Site.step n).Covers t :=
  Site.apart_sub (s := ⟨[]⟩) hmn t h

section Operands

variable {α : Type} [HasNodes α] {σ : Session} {st : Store} {r : Reading α} {b : α}
  {registers : Registers} {n : Nat}

/-- What holds of the store once the operands of a step have been read. -/
structure Session.Ready (σ : Session) (st : Store) (registers : Registers) (b : α) : Prop where
  within : registers.Within σ.registers
  spares : st.Spares σ.registers.contents b
  contents : LiesIn (st.writeBack b) registers.contents
  /-- The command makes its objects at the first site below the step. -/
  command : ∀ t, (σ.site.sub 0).Covers t → st.writeBack b t = none
  later : ∀ m, σ.steps < m → (st.writeBack b).Free (Site.step m)

theorem Session.Backed.ready (hσ : σ.Backed st) (hr : r.Takes σ.site Value.nil)
    (h : r.run (σ.registers, 1) = .ok (b, registers, n)) : σ.Ready st registers b := by
  obtain ⟨hwithin, hmade, -⟩ := hr.made h
  have hturns : (⟨σ.registers.contents, σ.site⟩ : Scope).Turns (σ.site.From 1)
      σ.registers.contents b := hmade.turns_of_input
  have hfree : ∀ t, σ.site.From 1 t → st t = none :=
    fun t ht => hσ.free _ (Nat.le_refl _) t ht.covers
  have hspares := hturns.spares hfree hσ.contents hσ.contents
  refine ⟨hwithin, hspares, hwithin.everywhere (hspares.liesIn hσ.contents), ?_, fun m hm => ?_⟩
  · refine hturns.free_writeBack hfree hσ.contents hσ.contents ?_ fun t ht => ?_
    · exact fun t ht => hσ.free _ (Nat.le_refl _) t ht.of_sub
    · exact Site.not_from_of_sub Nat.zero_lt_one ht
  · refine hturns.free_writeBack hfree hσ.contents hσ.contents ?_ fun t ht hfrom => ?_
    · exact hσ.free m (Nat.le_of_lt hm)
    · exact Site.step_apart (Nat.ne_of_gt hm) ht hfrom.covers

end Operands

/-! ## Carrying out commands -/

theorem kept_subset_operands (p : Production Value) : ∀ v ∈ p.kept, v ∈ p.operands := by
  intro v hv
  cases p with
  | amend form x y f z => exact List.mem_cons_of_mem x hv
  | canonical x => cases hv
  | reuse x => cases hv
  | _ => exact hv

section CarryOut

variable {α β γ : Type} [HasNodes α] [HasNodes β] [HasNodes γ] {σ : Session} {st : Store}
  {registers : Registers} {b : β} {c : Scope} {x : α} {y : γ}

/-- The command of a step, once its operands have been read. -/
theorem Session.Ready.carryOut (h : σ.Ready st registers b)
    (hturns : c.Turns (σ.site.sub 0).Covers x y) (hheld : LiesIn (st.writeBack b) c.held)
    (hx : LiesIn (st.writeBack b) x) :
    (st.writeBack b).Spares c.held y ∧
      ∀ m, σ.steps < m → ((st.writeBack b).writeBack y).Free (Site.step m) := by
  refine ⟨hturns.spares h.command hheld hx, fun m hm => ?_⟩
  refine hturns.free_writeBack h.command hheld hx (h.later m hm) fun t ht hsub => ?_
  exact Site.step_apart (Nat.ne_of_gt hm) ht hsub.of_sub

theorem Session.Ready.liesIn_kept {p : Production Value} (h : σ.Ready st registers p) :
    LiesIn (st.writeBack p) (registers.contents ++ p.kept) := by
  have hoperands : LiesIn (st.writeBack p) p.operands := h.spares.written
  exact (everywhere_append ..).2
    ⟨h.contents, everywhere_of_subset hoperands (kept_subset_operands p)⟩

theorem Session.Ready.production {p : Production Value} {answer : Result Value}
    (h : σ.Ready st registers p)
    (hrun : p.run σ.settings ⟨registers.contents, σ.site.sub 0⟩ = .ok answer) :
    (st.writeBack p).Spares (registers.contents ++ p.kept) answer ∧
      ∀ m, σ.steps < m → ((st.writeBack p).writeBack answer).Free (Site.step m) :=
  h.carryOut (turns_production hrun) h.liesIn_kept h.spares.written

/-- An amend by value on its way. -/
theorem Session.Ready.amendUntil {p : Production Value} (h : σ.Ready st registers p) {form : Form}
    {x y f : Value} {z : Option Value} (hp : p = .amend form x y f z) (stop : Site → Bool) :
    (st.writeBack p).Spares (registers.contents ++ p.kept)
      (x.amendUntil σ.settings form ⟨registers.contents ++ p.kept, σ.site.sub 0⟩ y f z stop) := by
  subst hp
  have hkept := h.liesIn_kept
  let c : Scope := ⟨registers.contents ++ (y :: f :: z.toList), σ.site.sub 0⟩
  have hturns : c.Turns c.site.Covers x (x.amendUntil σ.settings form c y f z stop) :=
    turns_amendUntil (keeps_beside ⟨registers.contents, σ.site.sub 0⟩ (y :: f :: z.toList)) x stop
  exact (h.carryOut hturns hkept ((everywhere_cons ..).1 h.spares.written).1).1

/-- The slot, the other registers and the operands of a change lie in one store. -/
theorem Session.Ready.liesIn_slot {change : Change Value} (h : σ.Ready st registers change)
    {name : String} {x : Value} (hx : registers.get? name = some x) :
    LiesIn (st.writeBack change)
      (x :: ((registers.erase name).contents ++ change.operands)) := by
  have hoperands : LiesIn (st.writeBack change) change.operands := h.spares.written
  have hothers := (registers.erase_within name).everywhere h.contents
  exact (everywhere_cons ..).2
    ⟨Registers.everywhere_get? h.contents hx, (everywhere_append ..).2 ⟨hothers, hoperands⟩⟩

theorem Session.Ready.change {change : Change Value} (h : σ.Ready st registers change)
    {name : String} {x x' : Value} {answer : Result Answer} (hx : registers.get? name = some x)
    (hrun : change.run σ.settings
      ⟨(registers.erase name).contents ++ change.operands, σ.site.sub 0⟩ x = .ok (x', answer)) :
    (st.writeBack change).Spares ((registers.erase name).contents ++ change.operands)
      (x', answer) ∧
      ∀ m, σ.steps < m → ((st.writeBack change).writeBack (x', answer)).Free (Site.step m) := by
  obtain ⟨hslot, hothers⟩ := (everywhere_cons ..).1 (h.liesIn_slot hx)
  have hkeeps := keeps_beside ⟨(registers.erase name).contents, σ.site.sub 0⟩ change.operands
  exact h.carryOut (turns_change hkeeps hrun) hothers hslot

/-- An amend in place on its way. -/
theorem Session.Ready.amendSlotUntil {change : Change Value} (h : σ.Ready st registers change)
    {name : String} {x : Value} (hx : registers.get? name = some x) {form : Form} {y f : Value}
    {z : Option Value} (hchange : change = .amend form y f z) (stop : Site → Bool) :
    (st.writeBack change).Spares ((registers.erase name).contents ++ change.operands)
      (x.amendUntil σ.settings form
        ⟨(registers.erase name).contents ++ change.operands, σ.site.sub 0⟩ y f z stop) := by
  obtain ⟨hslot, hothers⟩ := (everywhere_cons ..).1 (h.liesIn_slot hx)
  have hkeeps := keeps_beside ⟨(registers.erase name).contents, σ.site.sub 0⟩ change.operands
  subst hchange
  let c : Scope := ⟨(registers.erase name).contents ++ (y :: f :: z.toList), σ.site.sub 0⟩
  have hturns : c.Turns c.site.Covers x (x.amendUntil σ.settings form c y f z stop) :=
    turns_amendUntil hkeeps x stop
  exact (h.carryOut hturns hothers hslot).1

end CarryOut

/-! ## Steps -/

section Steps

variable {σ σ' : Session} {st : Store} {reply : Reply}

/-- The register that a command writes to. -/
def Command.target? {τ : Type} : Command τ → Option String
  | .produce _ dest => dest
  | .change name _ => some name
  | _ => none

/-- On the way from `σ` to `σ'` nothing changes in the registers but `target`, as far as they are
still there: neither their handles, nor what the store has for them. -/
def Session.Steady (σ σ' : Session) (st st' : Store) (target : Option String) : Prop :=
  ∀ name v, target ≠ some name → σ'.registers.get? name = some v →
    σ.registers.get? name = some v ∧ ∀ t, Names t v → st' t = st t

/-- What lies in two stores has the same content in both. -/
theorem LiesIn.same {α : Type} [HasNodes α] {x : α} {st' : Store} (h : LiesIn st x)
    (h' : LiesIn st' x) : ∀ t, Names t x → st' t = st t := by
  rintro t ⟨u, hu, hname⟩
  obtain ⟨⟨s, o⟩, htarget, hs⟩ := Option.map_eq_some_iff.1 hname
  cases hs
  rw [h u hu _ _ htarget, h' u hu _ _ htarget]

theorem Session.Backed.steady {st' : Store} {target : Option String} (hσ : σ.Backed st)
    (hσ' : σ'.Backed st') (h : ∀ name v, target ≠ some name → σ'.registers.get? name = some v →
      σ.registers.get? name = some v) : σ.Steady σ' st st' target := by
  intro name v hname hv
  have hv' := h name v hname hv
  have hbefore : LiesIn st v := Registers.everywhere_get? hσ.contents hv'
  exact ⟨hv', hbefore.same (Registers.everywhere_get? hσ'.contents hv)⟩

/-- A step keeps the store behind the session, with what it writes, and no register changes but
the one that the command names. -/
theorem Session.Backed.step {command : Command Term} (hσ : σ.Backed st)
    (h : σ.step command = .ok (σ', reply)) :
    ∃ st', σ'.Backed st' ∧ σ.Steady σ' st st' command.target? := by
  cases command with
  | produce p dest =>
    obtain ⟨p', registers, n, answer, hread, hrun, rfl, -⟩ := step_produce h
    have hready := hσ.ready (takes_production σ.site p) hread
    obtain ⟨hspares, hfree⟩ := hready.production hrun
    have hregisters := ((everywhere_append ..).1 (hspares.liesIn hready.liesIn_kept)).1
    -- The operands are written back as they are now, and the answer on top of them.
    refine ⟨(st.writeBack p').writeBack answer, ?_⟩
    have hσ' : Session.Backed
        { σ with registers := registers.store answer dest, steps := σ.steps + 1 }
        ((st.writeBack p').writeBack answer) :=
      ⟨Registers.everywhere_store hregisters hspares.written dest, hfree⟩
    refine ⟨hσ', hσ.steady hσ' fun name v hname hv => hready.within.get? ?_⟩
    exact (Registers.get?_store hname).symm.trans hv
  | change name change =>
    obtain ⟨change', registers, n, x, x', answer, hread, hx, hrun, rfl, -⟩ := step_change h
    have hready := hσ.ready (takes_change σ.site change) hread
    obtain ⟨hspares, hfree⟩ := hready.change hx hrun
    have hothers := ((everywhere_cons ..).1 (hready.liesIn_slot hx)).2
    have hregisters := ((everywhere_append ..).1 (hspares.liesIn hothers)).1
    refine ⟨(st.writeBack change').writeBack (x', answer), ?_⟩
    have hσ' : Session.Backed
        { σ with registers := (registers.erase name).set name x', steps := σ.steps + 1 }
        ((st.writeBack change').writeBack (x', answer)) :=
      ⟨Registers.everywhere_set hregisters ((everywhere_pair ..).1 hspares.written).1 name, hfree⟩
    refine ⟨hσ', hσ.steady hσ' fun name' v hname hv => hready.within.get? ?_⟩
    -- Any other register is still there, and the store has spared it.
    have hne : name' ≠ name := fun heq => hname (heq ▸ rfl)
    exact (registers.erase_within name).get? ((Registers.get?_set_of_ne hne).symm.trans hv)
  | ask q =>
    obtain ⟨q', registers, n, -, hread, -, rfl, -⟩ := step_ask h
    have hwithin := within_question hread
    have hσ' : Session.Backed { σ with registers, steps := σ.steps + 1 } st :=
      ⟨hwithin.everywhere hσ.contents, fun n hn => hσ.free n (Nat.le_of_succ_le hn)⟩
    exact ⟨st, hσ', hσ.steady hσ' fun _ _ _ => hwithin.get?⟩
  | drop name =>
    obtain ⟨rfl, -⟩ := step_drop h
    have hwithin := σ.registers.erase_within name
    have hσ' : Session.Backed
        { σ with registers := σ.registers.erase name, steps := σ.steps + 1 } st :=
      ⟨hwithin.everywhere hσ.contents, fun n hn => hσ.free n (Nat.le_of_succ_le hn)⟩
    exact ⟨st, hσ', hσ.steady hσ' fun _ _ _ => hwithin.get?⟩

/-- A new session has an empty store behind it. -/
theorem backed_start (settings : Settings) :
    Session.Backed { settings } fun _ => none :=
  ⟨everywhere_empty, fun _ _ _ _ => rfl⟩

theorem Session.Reachable.exists_backed (h : σ.Reachable) : ∃ st, σ.Backed st := by
  induction h with
  | start settings => exact ⟨_, backed_start settings⟩
  | step _ hstep ih =>
    obtain ⟨st, hσ⟩ := ih
    obtain ⟨st', hσ', -⟩ := hσ.step hstep
    exact ⟨st', hσ'⟩

end Steps

/-! ## Value semantics -/

/-- A change that turns the content `x` of a slot into `x'`, as the store sees it. The values
`others` are alive beside the slot. -/
structure Change.Isolated (settings : Settings) (st : Store) (others : List Value) (s : Site)
    (change : Change Value) (x x' : Value) (answer : Result Answer) : Prop where
  /-- The slot and the others read what the store has. -/
  before : LiesIn st (x :: others)
  /-- Whenever an amend calls its function, what it has written by then shows through none of the
  others. -/
  during : ∀ form y f z, change = .amend form y f z → ∀ stop,
    st.Spares others (x.amendUntil settings form ⟨others, s⟩ y f z stop)
  /-- What is written in the end shows through none of the others, also if the change fails. -/
  after : st.Spares others (x', answer)
  /-- On a value that owns all of its lists, with nothing else alive, the change does the same. -/
  independent : change.IsPure settings → change.Agrees settings x.bare x' answer

/-- A production with the answer `answer`, as the store sees it. The values `others` are alive
beside the value that an amend or a reuse works on. -/
structure Production.Isolated (settings : Settings) (st : Store) (others : List Value) (s : Site)
    (p : Production Value) (answer : Result Value) : Prop where
  before : LiesIn st others
  during : ∀ form x y f z, p = .amend form x y f z → ∀ stop,
    st.Spares others (x.amendUntil settings form ⟨others, s⟩ y f z stop)
  after : st.Spares others answer
  independent : ∀ form x y f z, p = .amend form x y f z →
    f.IsPure settings (updateArity z.isSome) → ∀ c,
      Alike answer (x.bare.amended settings form c y f z)

/-- One store stands behind the registers of a session, and whatever the next step is, what it
writes into the store shows through none of the handles that it does not name. -/
structure Session.ValueSemantics (σ : Session) : Prop where
  backed : ∃ st, σ.Backed st
  /-- A step changes nothing in the registers but the one that its command names. -/
  step : ∀ st, σ.Backed st → ∀ command σ' reply, σ.step command = .ok (σ', reply) →
    ∃ st', σ'.Backed st' ∧ σ.Steady σ' st st' command.target?
  /-- A change in place spares the other registers and its own operands. -/
  change : ∀ st, σ.Backed st → ∀ name change σ' reply,
    σ.step (.change name change) = .ok (σ', reply) →
      ∃ change' registers n x x' answer,
        (change.mapM (Reading.operand σ.site)).run (σ.registers, 1) = .ok (change', registers, n) ∧
        registers.Within σ.registers ∧ registers.get? name = some x ∧
        σ'.registers = (registers.erase name).set name x' ∧
        st.Spares σ.registers.contents change' ∧
        change'.Isolated σ.settings (st.writeBack change')
          ((registers.erase name).contents ++ change'.operands) (σ.site.sub 0) x x' answer
  /-- A production spares all registers, and the operands that it leaves to its caller. -/
  produce : ∀ st, σ.Backed st → ∀ p dest σ' reply,
    σ.step (.produce p dest) = .ok (σ', reply) →
      ∃ p' registers n answer,
        (p.mapM (Reading.operand σ.site)).run (σ.registers, 1) = .ok (p', registers, n) ∧
        registers.Within σ.registers ∧ σ'.registers = registers.store answer dest ∧
        st.Spares σ.registers.contents p' ∧
        p'.Isolated σ.settings (st.writeBack p') (registers.contents ++ p'.kept) (σ.site.sub 0)
          answer

section ValueSemantics

variable {σ σ' : Session} {st : Store} {reply : Reply}

theorem Session.Backed.change_isolated (hσ : σ.Backed st) (hwf : WellFormed σ.registers.contents)
    {name : String} {change : Change Term} (h : σ.step (.change name change) = .ok (σ', reply)) :
    ∃ change' registers n x x' answer,
      (change.mapM (Reading.operand σ.site)).run (σ.registers, 1) = .ok (change', registers, n) ∧
      registers.Within σ.registers ∧ registers.get? name = some x ∧
      σ'.registers = (registers.erase name).set name x' ∧
      st.Spares σ.registers.contents change' ∧
      change'.Isolated σ.settings (st.writeBack change')
        ((registers.erase name).contents ++ change'.operands) (σ.site.sub 0) x x' answer := by
  obtain ⟨change', registers, n, x, x', answer, hread, hx, hrun, rfl, -⟩ := step_change h
  have hready := hσ.ready (takes_change σ.site change) hread
  obtain ⟨hwithin, -, hchange⟩ := (takes_change σ.site change).made hread
  have hwfx : WellFormed x := Registers.everywhere_get? (hwithin.everywhere hwf) hx
  refine ⟨change', registers, n, x, x', answer, hread, hwithin, hx, rfl, hready.spares, ?_⟩
  exact
    { before := hready.liesIn_slot hx
      during := fun form y f z hp stop => hready.amendSlotUntil hx hp stop
      after := (hready.change hx hrun).1
      independent := fun hpure =>
        alike_change hwfx (wellFormed_bare hwfx) (alike_bare x) (hchange hwf) hpure hrun }

theorem Session.Backed.produce_isolated (hσ : σ.Backed st) (hwf : WellFormed σ.registers.contents)
    {p : Production Term} {dest : Option String}
    (h : σ.step (.produce p dest) = .ok (σ', reply)) :
    ∃ p' registers n answer,
      (p.mapM (Reading.operand σ.site)).run (σ.registers, 1) = .ok (p', registers, n) ∧
      registers.Within σ.registers ∧ σ'.registers = registers.store answer dest ∧
      st.Spares σ.registers.contents p' ∧
      p'.Isolated σ.settings (st.writeBack p') (registers.contents ++ p'.kept) (σ.site.sub 0)
        answer := by
  obtain ⟨p', registers, n, answer, hread, hrun, rfl, -⟩ := step_produce h
  have hready := hσ.ready (takes_production σ.site p) hread
  obtain ⟨hwithin, -, hp⟩ := (takes_production σ.site p).made hread
  have hoperands : WellFormed p'.operands := hp hwf
  refine ⟨p', registers, n, answer, hread, hwithin, rfl, hready.spares, ?_⟩
  refine
    { before := hready.liesIn_kept
      during := fun form x y f z heq stop => hready.amendUntil heq stop
      after := (hready.production hrun).1
      independent := ?_ }
  rintro form x y f z rfl hpure c
  cases hrun
  simp only [Production.operands, everywhere_cons] at hoperands
  obtain ⟨hx, hy, hf, hz⟩ := hoperands
  exact alike_amended hx (wellFormed_bare hx) (alike_bare x) hy hf (everywhere_toList.1 hz) hpure

/-- Every session that steps lead to has value semantics: a write is seen through the handle that
it is made through, and through no other. -/
theorem valueSemantics_of_reachable (h : σ.Reachable) : σ.ValueSemantics where
  backed := h.exists_backed
  step _ hσ _ _ _ hstep := hσ.step hstep
  change _ hσ _ _ _ _ hstep := hσ.change_isolated h.wellFormed hstep
  produce _ hσ _ _ _ _ hstep := hσ.produce_isolated h.wellFormed hstep

/-- Two registers share a buffer. A change of the first one, with the second as its operand, leaves
the second as it was. -/
theorem valueSemantics_shared_buffer :
    ∃ σ₁ σ₂ σ₃ reply₁ reply₂ reply₃,
      ({} : Session).step (.produce (.value (.ints {} [1, 2, 3])) (some "a")) =
        .ok (σ₁, reply₁) ∧
      σ₁.step (.produce (.slice (.ref "a") 1 3) (some "b")) = .ok (σ₂, reply₂) ∧
      σ₂.step (.change "a" (.amend .flat (.ints {} [1, 0]) (.builtin .add) (some (.ref "b")))) =
        .ok (σ₃, reply₃) ∧
      (σ₂.Reachable ∧ σ₂.ValueSemantics) ∧
      (∃ a b, σ₂.registers.get? "a" = some (.array (.ints a)) ∧
        σ₂.registers.get? "b" = some (.array (.ints b)) ∧ a.storage = b.storage) ∧
      ∃ a b, σ₃.registers.get? "a" = some (.array (.ints a)) ∧ a.items = [4, 4, 3] ∧
        σ₃.registers.get? "b" = some (.array (.ints b)) ∧ b.items = [2, 3] := by
  refine ⟨_, _, _, _, _, _, rfl, rfl, rfl, ?_, ⟨_, _, rfl, rfl, rfl⟩, _, _, rfl, by decide, rfl,
    by decide⟩
  have hfirst : Session.step {} (.produce (.value (.ints {} [1, 2, 3])) (some "a")) =
    .ok (_, _) := rfl
  have hreachable := Session.Reachable.step (.step (.start {}) hfirst)
    (show Session.step _ (.produce (.slice (.ref "a") 1 3) (some "b")) = .ok (_, _) from rfl)
  exact ⟨hreachable, valueSemantics_of_reachable hreachable⟩

end ValueSemantics

end SharedArrays
