import SharedArrays.Proofs.Closed.Commands
import SharedArrays.Proofs.Flags.Amend
import SharedArrays.Proofs.Flags.Reading
import SharedArrays.Proofs.Representation

/-!
# Flags never lie

Flags are set by hand in one place only, namely by the command that is there for it; every other
command keeps registers truthful and gives a truthful reply, whether it goes through or fails. So
in a session that starts with true flags, and whose literals state true ones, all flags are true at
all times, and a binary search can rely on them.

## Main definitions

* `Session.HonestRun` — steps that state no false facts themselves

## Main results

* `flagsHold_closedUnderCommands`, `truthful_change` — commands
* `truthful_step` — steps
* `flags_never_lie` — runs
-/

namespace SharedArrays

variable {settings : Settings} {c : Scope}

/-! ## Commands -/

theorem truthful_merge {l r : Dict Value} {f : Value} (hl : Truthful l) (hr : Truthful r)
    (hf : Truthful f) : Truthful (l.merge settings c r f) := by
  refine truthful_mergeWith hl hr fun common => ?_
  refine everywhere_bind (truthful_select (everywhere_entries.1 hr).2) fun z _ hz => ?_
  have hz : Truthful (some (.array z) : Option Value) := hz
  have hcallee := (flagsHold_closedUnderCalls settings).ofValue hf
  exact everywhere_toResult (truthful_amendAt hcallee (everywhere_entries.1 hl).2 hz)

/-- An answer that is turned into a dictionary. -/
theorem truthful_map_dict {s : Site} {r : Result (Dict Value)} (h : Truthful r) :
    Truthful (r.map (Value.dict s)) := by
  cases r with
  | ok d => exact truthful_dict.2 h
  | error e => exact h

theorem flagsHold_closedUnderCommands (settings : Settings) :
    ClosedUnderCommands settings Value.FlagsHold where
  toClosedUnderCalls := flagsHold_closedUnderCalls settings
  til s n := truthful_til s n
  slice ha hs := truthful_slice ha hs
  copy _ _ ha := truthful_copy ha
  canonical _ _ ha := truthful_canonical ha
  makePrivate _ _ ha := truthful_makePrivate ha
  freeze c _ hv := truthful_freeze hv c
  pin ha := truthful_pin ha
  asList _ _ ha := truthful_asList ha
  put _ _ _ _ ha hv := truthful_put ha hv
  push _ _ _ ha hv := truthful_push ha hv
  extend _ _ _ ha hb := truthful_extend? ha hb
  named _ _ _ hd := truthful_dict.2 (truthful_dict.1 hd)
  ofArrays _ _ _ hk hv := truthful_map_dict (truthful_ofArrays? hk hv)
  merge _ _ _ _ _ _ _ hl hr hf :=
    truthful_map_dict (truthful_merge (truthful_dict.1 hl) (truthful_dict.1 hr) hf)
  appendKey _ _ _ _ hd hk := truthful_dict.2 (truthful_appendKey (truthful_dict.1 hd) hk)
  appendEntries _ _ _ _ _ hd hk hv :=
    truthful_map_dict (truthful_append? (truthful_dict.1 hd) hk hv)

/-- A change that states no facts leaves a truthful value in its register, also if it fails, and
answers truthfully. -/
theorem truthful_change {change : Change Value} (hchange : change.Forall Truthful) {x x' : Value}
    {answer : Result Answer} (hx : Truthful x)
    (h : change.run settings c x = .ok (x', answer)) : Truthful x' ∧ Truthful answer := by
  refine (flagsHold_closedUnderCommands settings).change hchange.everywhere ?_ hx h
  rintro flags a rfl ha
  have hsilent : flags.Silent := hchange
  exact truthful_setFlags ha (hsilent.hold _)

/-! ## Steps and runs -/

section Steps

variable {σ τ τ' : Session} {command : Command Term} {reply : Reply}

theorem truthful_reply {answer : Result Answer} {slot : Option Value} (hanswer : Truthful answer)
    (hslot : Truthful slot) : Truthful (⟨answer, slot⟩ : Reply) :=
  List.forall_mem_append.2 ⟨hanswer, hslot⟩

/-- A step that states no false facts keeps flags true, and shows none that are false. -/
theorem truthful_step (hσ : Truthful σ.registers.contents) (hcommand : command.Honest)
    (h : σ.step command = .ok (τ, reply)) :
    Truthful τ.registers.contents ∧ Truthful reply := by
  cases command with
  | produce p dest =>
    obtain ⟨p', registers, n, answer, hread, hrun, rfl, rfl⟩ := step_produce h
    obtain ⟨hregisters, hp⟩ := supplies_production hcommand _ _ _ _ _ hread hσ
    have hanswer :=
      (flagsHold_closedUnderCommands σ.settings).production hp.everywhere hrun
    refine ⟨Registers.everywhere_store hregisters hanswer dest,
      truthful_reply ?_ everywhere_none⟩
    cases answer <;> exact hanswer
  | change name change =>
    obtain ⟨change', registers, n, x, x', answer, hread, hx, hrun, rfl, rfl⟩ := step_change h
    obtain ⟨hregisters, hchange⟩ := supplies_change hcommand _ _ _ _ _ hread hσ
    obtain ⟨hx', hanswer⟩ :=
      truthful_change hchange (Registers.everywhere_get? hregisters hx) hrun
    have hothers := (registers.erase_within name).everywhere hregisters
    exact ⟨Registers.everywhere_set hothers hx' name, truthful_reply hanswer hx'⟩
  | ask q =>
    obtain ⟨q', registers, n, answer, hread, hanswer, rfl, rfl⟩ := step_ask h
    obtain ⟨hregisters, hq⟩ := supplies_question hcommand _ _ _ _ _ hread hσ
    have hanswer := (flagsHold_closedUnderCommands σ.settings).answer hq.everywhere hanswer
    exact ⟨hregisters, truthful_reply hanswer everywhere_none⟩
  | drop name =>
    obtain ⟨rfl, rfl⟩ := step_drop h
    exact ⟨(σ.registers.erase_within name).everywhere hσ,
      truthful_reply (everywhere_atomic rfl) everywhere_none⟩

/-- The sessions to which steps lead that state no false facts themselves. -/
inductive Session.HonestRun (σ : Session) : Session → Prop
  | refl : HonestRun σ σ
  | step {τ τ' : Session} {command : Command Term} {reply : Reply} :
    HonestRun σ τ → command.Honest → τ.step command = .ok (τ', reply) → HonestRun σ τ'

theorem Session.HonestRun.truthful (h : σ.HonestRun τ) (hσ : Truthful σ.registers.contents) :
    Truthful τ.registers.contents := by
  induction h with
  | refl => exact hσ
  | step _ hcommand hstep ih => exact (truthful_step ih hcommand hstep).1

/-- From a session with true flags, no steps lead to a false one, neither in a register nor in a
reply, as long as no false facts are stated by hand. At all times, arrays whose flags say so do not
decrease, hold no two equal elements, and hold nothing but 0 and 1. -/
theorem flags_never_lie (hσ : Truthful σ.registers.contents) (hrun : σ.HonestRun τ)
    (hcommand : command.Honest) (h : τ.step command = .ok (τ', reply)) :
    (∀ a, .array a ∈ allNodes τ.registers.contents → a.flags.Hold a.values) ∧
      (∀ a, .array a ∈ allNodes τ'.registers.contents → a.flags.Hold a.values) ∧
      ∀ a, .array a ∈ allNodes reply → a.flags.Hold a.values := by
  have hτ := hrun.truthful hσ
  obtain ⟨hτ', hreply⟩ := truthful_step hτ hcommand h
  exact ⟨fun a ha => hτ _ ha, fun a ha => hτ' _ ha, fun a ha => hreply _ ha⟩

/-- A slice of ascending elements in the middle of a buffer keeps the flags, and an append to the
slice takes them back. -/
theorem flags_never_lie_slice_push :
    let flags : Flags := { ascending := true, distinct := true }
    let a : Arr Value := .ints ⟨.step 0, [3, 1, 2, 5, 0], 1, 3, flags⟩
    let σ : Session := { registers := [("a", .array a)], steps := 1 }
    ∃ τ τ' reply reply' b b',
      σ.step (.produce (.slice (.ref "a") 1 3) (some "b")) = .ok (τ, reply) ∧
      τ.step (.change "b" (.push (.int 4))) = .ok (τ', reply') ∧
      τ.registers.get? "b" = some (.array b) ∧ b.flags = flags ∧ b.flags.Hold b.values ∧
      τ'.registers.get? "b" = some (.array b') ∧ b'.flags = {} ∧ b'.flags.Hold b'.values := by
  intro flags a σ
  have hσ : Truthful σ.registers.contents := by decide
  have hslice : σ.step (.produce (.slice (.ref "a") 1 3) (some "b")) = .ok (_, _) := rfl
  have hhonest : Command.Honest (.produce (.slice (.ref "a") 1 3) (some "b")) := trivial
  obtain ⟨hτ, hτ', -⟩ := flags_never_lie hσ (.step .refl hhonest hslice)
    (show Command.Honest (.change "b" (.push (.int 4))) from trivial)
    (show Session.step _ (.change "b" (.push (.int 4))) = .ok (_, _) from rfl)
  refine ⟨_, _, _, _, _, _, hslice, rfl, rfl, rfl, hτ _ ?_, rfl, rfl, hτ' _ ?_⟩
  · exact List.mem_append_left _ (List.mem_cons_self ..)
  · exact List.mem_append_left _ (List.mem_cons_self ..)

end Steps

end SharedArrays
