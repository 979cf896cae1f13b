import SharedArrays.Proofs.Closed.Commands
import SharedArrays.Proofs.Store.Reading
import SharedArrays.Proofs.WellFormed.Call

/-!
# Sessions keep values well-formed

Literals make well-formed values, and so do all commands from well-formed operands. Hence the
registers of every reachable session are well-formed, whatever the session has done before.

## Main results

* `fits_closedUnderCommands`, `wellFormed_change` — commands
* `Session.Reachable.wellFormed` — reachable sessions
-/

namespace SharedArrays

variable {settings : Settings} {c : Scope}

/-! ## Arrays and dictionaries -/

/-- Values are combined by an amend, which keeps their number. -/
theorem answers_combine {t : Site} {r : Dict Value} {f : Value} {a : Arr Value}
    (ha : WellFormed a) (hr : WellFormed r.vals) (hf : WellFormed f)
    (common : List (Nat × Nat)) :
    Answers (fun vals => WellFormed vals ∧ vals.len = a.len) (do
      let z ← r.vals.select t (common.map (·.2))
      (a.amendAt settings c (.many (common.map (·.1))) (.ofValue settings f)
        (some (.array z))).toResult) := by
  refine answers_bind (answers_select hr) fun z hz => ?_
  have hleaves : (a.amendAt settings c (.many (common.map (·.1))) (.ofValue settings f)
      (some (.array z))).Leaves (Arr.Sound a.len) :=
    leaves_amendAt (safe_ofValue hf) ⟨ha, rfl⟩
      ((everywhere_some _).2 ((everywhere_array z).2 hz.1))
  exact answers_toResult (everywhere_outcome.2 ⟨hleaves.1.1, hleaves.2⟩) hleaves.1.2

/-- Merging keeps as many values as keys. -/
theorem answers_merge {l r : Dict Value} {f : Value} (hl : l.Paired) (hr : r.Paired)
    (hf : WellFormed f) : Answers Dict.Paired (l.merge settings c r f) :=
  answers_mergeWith hl hr fun common => answers_combine hl.2.2 hr.2.2 hf common

/-- An answer that is turned into a dictionary. -/
theorem wellFormed_map_dict {s : Site} {r : Result (Dict Value)} (h : Answers Dict.Paired r) :
    WellFormed (r.map (Value.dict s)) := by
  cases r with
  | ok d => exact wellFormed_dict.2 h
  | error e => exact h

theorem answers_ofArrays? {keys vals : Arr Value} (hk : WellFormed keys) (hv : WellFormed vals) :
    Answers Dict.Paired (Dict.ofArrays? keys vals) := by
  unfold Dict.ofArrays?
  split
  · rename_i hlen
    exact ⟨hlen, hk, hv⟩
  · exact everywhere_failure rfl

theorem wellFormed_makePrivate {a : Arr Value} (ha : WellFormed a) :
    WellFormed (a.makePrivate c) :=
  wellFormed_update (fun _ hw _ => hw.makePrivate c) (fun _ _ hv => Window.mem_makePrivate hv) ha

theorem wellFormed_copy {s : Site} {a : Arr Value} (ha : WellFormed a) : WellFormed (a.copy s) :=
  wellFormed_update (fun _ _ _ => Window.inBounds_ofList ..)
    (fun _ _ hv => Window.mem_of_mem_items hv) ha

theorem wellFormed_setFlags {a : Arr Value} (ha : WellFormed a) (flags : Flags) :
    WellFormed (a.setFlags flags) :=
  wellFormed_update (fun _ hw _ => hw) (fun _ _ hv => hv) ha

theorem wellFormed_extend? {a b : Arr Value} (ha : WellFormed a) (hb : WellFormed b) :
    WellFormed (a.extend? c b) := by
  cases a <;> cases b <;> first | exact everywhere_none | skip
  case list.list v w =>
    refine wellFormed_arr.2 ⟨Window.inBounds_append .., everywhere_iff_forall.2 fun y hy => ?_⟩
    rcases Window.mem_append hy with hy | hy
    · exact everywhere_iff_forall.1 (wellFormed_arr.1 ha).2 y hy
    · exact everywhere_iff_forall.1 (everywhere_values hb) y hy
  all_goals exact wellFormed_arr.2 ⟨Window.inBounds_append .., everywhere_empty⟩

/-! ## Commands -/

theorem fits_closedUnderCommands (settings : Settings) :
    ClosedUnderCommands settings Value.Fits where
  toClosedUnderCalls := fits_closedUnderCalls settings
  til _ _ := wellFormed_arr.2 ⟨Window.inBounds_ofList .., everywhere_empty⟩
  slice ha hs := wellFormed_slice ha hs
  copy _ _ ha := wellFormed_copy ha
  canonical _ _ ha := wellFormed_canonical ha
  makePrivate _ _ ha := wellFormed_makePrivate ha
  freeze c _ hv := wellFormed_freeze hv c
  pin ha := wellFormed_setFlags ha _
  asList _ _ ha := wellFormed_asList ha
  put _ _ _ _ ha hv := wellFormed_put ha hv
  push _ _ _ ha hv := wellFormed_push ha hv
  extend _ _ _ ha hb := wellFormed_extend? ha hb
  named _ _ _ hd := wellFormed_dict.2 (wellFormed_dict.1 hd)
  ofArrays _ _ _ hk hv := wellFormed_map_dict (answers_ofArrays? hk hv)
  merge _ _ _ _ _ _ _ hl hr hf :=
    wellFormed_map_dict (answers_merge (wellFormed_dict.1 hl) (wellFormed_dict.1 hr) hf)
  appendKey _ _ _ _ hd hk := wellFormed_dict.2 (paired_appendKey (wellFormed_dict.1 hd) hk)
  appendEntries _ _ _ _ _ hd hk hv :=
    wellFormed_map_dict (answers_append? (wellFormed_dict.1 hd) hk hv)

theorem wellFormed_change {change : Change Value} (hchange : WellFormed change) {x x' : Value}
    {answer : Result Answer} (hx : WellFormed x)
    (h : change.run settings c x = .ok (x', answer)) : WellFormed x' ∧ WellFormed answer :=
  (fits_closedUnderCommands settings).change hchange
    (fun flags _ _ ha => wellFormed_setFlags ha flags) hx h

/-! ## Reachable sessions -/

theorem wellFormed_step {σ σ' : Session} {command : Command Term} {reply : Reply}
    (hσ : WellFormed σ.registers.contents) (h : σ.step command = .ok (σ', reply)) :
    WellFormed σ'.registers.contents := by
  cases command with
  | produce p dest =>
    obtain ⟨p', registers, n, answer, hread, hrun, rfl, -⟩ := step_produce h
    obtain ⟨hwithin, -, hp⟩ := (takes_production σ.site p).made hread
    have hregisters := hwithin.everywhere hσ
    have hanswer := (fits_closedUnderCommands σ.settings).production (hp hσ) hrun
    exact Registers.everywhere_store hregisters hanswer dest
  | change name change =>
    obtain ⟨change', registers, n, x, x', answer, hread, hx, hrun, rfl, -⟩ := step_change h
    obtain ⟨hwithin, -, hchange⟩ := (takes_change σ.site change).made hread
    have hregisters := hwithin.everywhere hσ
    obtain ⟨hx', -⟩ :=
      wellFormed_change (hchange hσ) (Registers.everywhere_get? hregisters hx) hrun
    exact Registers.everywhere_set ((registers.erase_within name).everywhere hregisters) hx' name
  | ask q =>
    obtain ⟨q', registers, n, -, hread, -, rfl, -⟩ := step_ask h
    exact (within_question hread).everywhere hσ
  | drop name =>
    obtain ⟨rfl, -⟩ := step_drop h
    exact (σ.registers.erase_within name).everywhere hσ

theorem Session.Reachable.wellFormed {σ : Session} (h : σ.Reachable) :
    WellFormed σ.registers.contents := by
  induction h with
  | start settings => exact everywhere_empty
  | step _ hstep ih => exact wellFormed_step ih hstep

end SharedArrays
