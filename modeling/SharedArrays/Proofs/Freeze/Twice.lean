import SharedArrays.Arr.Freeze
import SharedArrays.Proofs.Everywhere

/-!
# Freezing twice

Freezing sets pins and does nothing else. In particular it makes no handle and drops none, so that
every question for the holders of an object has the same answer before and after it. How far a
freeze gets is decided by such questions alone. A second freeze in the same surroundings therefore
gets just as far as the first one, and finds nothing to do.

## Main results

* `handles_freeze`, `holds_freeze` — freezing leaves all handles where they are
* `freeze_freeze` — the second freeze changes nothing
-/

namespace SharedArrays

/-! ## Handles -/

/-- Cells with the same handles, one by one, have the same handles. -/
theorem handlesOfCells_congr {s : Site} {us vs : List Value} (hlen : us.length = vs.length)
    (h : ∀ i (hu : i < us.length) (hv : i < vs.length) p, us[i].handles p = vs[i].handles p)
    (k : Nat) : handlesOfCells s k us = handlesOfCells s k vs := by
  induction us generalizing vs k with
  | nil => rw [List.eq_nil_of_length_eq_zero hlen.symm]
  | cons u us ih =>
    obtain ⟨v, vs, rfl⟩ := List.exists_cons_of_length_eq_add_one hlen.symm
    rw [handlesOfCells, handlesOfCells]
    congr 1
    · exact h 0 (Nat.succ_pos _) (Nat.succ_pos _) _
    · exact ih (Nat.succ.inj hlen) (fun i hu hv => h (i + 1) (by simpa) (by simpa)) (k + 1)

/-- Freezing leaves all handles where they are. -/
theorem handles_freeze (c : Scope) (v : Value) (p : Place) :
    (v.freeze c).handles p = v.handles p := by
  induction v using Value.nest_induction generalizing c p with
  | leaf v hleaf => cases v <;> first | rfl | cases hleaf
  | error s v _ => rfl
  | dict s keys vals ihk ihv =>
    rw [Value.freeze]
    split
    · rfl
    · have hkeys := ihk (c.beside [.array vals]) (.inside s [0])
      have hvals := ihv (c.beside [.array keys]) (.inside s [1])
      simp only [Value.freeze, Value.handles] at hkeys hvals
      simp only [Value.handles, hkeys, hvals]
  | array a ih =>
    cases a with
    | list w =>
      rw [Value.freeze, Arr.freeze_list, Value.handles, Value.handles, Arr.handles, Arr.handles]
      congr 1
      split
      · rfl
      · -- A cell is frozen beside the others, or left as it is.
        refine handlesOfCells_congr (by simp [Window.frozenCells]) (fun i hu hv q => ?_) 0
        simp only [Window.frozenCells, List.getElem_mapIdx]
        split
        · exact ih _ (List.getElem_mem hv) _ _
        · rfl
    | _ w => rfl

@[simp] theorem holds_freeze (c : Scope) (v : Value) (t : Site) :
    (v.freeze c).holds t = v.holds t := by
  rw [Value.holds, Value.holds, handles_freeze]

/-! ## Surroundings -/

/-- The surroundings hold the same objects. -/
def Scope.HoldsAlike (c c' : Scope) : Prop := ∀ t, c.holds t = c'.holds t

theorem Scope.HoldsAlike.beside {c c' : Scope} (h : c.HoldsAlike c') (us vs : List Value)
    (huv : ∀ t, us.any (·.holds t) = vs.any (·.holds t)) :
    (c.beside us).HoldsAlike (c'.beside vs) := by
  intro t
  rw [Scope.holds_beside, Scope.holds_beside, h t, huv t]

/-- Beside a cell, the frozen cells hold what the cells have held. -/
theorem any_holds_frozenCells (c : Scope) (w : Window Value) (i : Nat) (t : Site) :
    ((w.frozenCells c).eraseIdx i).any (·.holds t) = (w.buf.eraseIdx i).any (·.holds t) := by
  have hcell (j : Nat) :
      ((w.frozenCells c)[j]?).map (·.holds t) = (w.buf[j]?).map (·.holds t) := by
    rw [Window.frozenCells, List.getElem?_mapIdx, Option.map_map]
    refine congrArg (Option.map · w.buf[j]?) (funext fun v => ?_)
    simp only [Function.comp_apply]
    split
    · exact holds_freeze ..
    · rfl
  have hiff (us : List Value) : (us.eraseIdx i).any (·.holds t) = true ↔
      ∃ j, j ≠ i ∧ (us[j]?).map (·.holds t) = some true := by
    simp only [List.any_eq_true, List.mem_eraseIdx_iff_getElem?, Option.map_eq_some_iff]
    constructor
    · rintro ⟨v, ⟨j, hj, hv⟩, ht⟩
      exact ⟨j, hj, v, hv, ht⟩
    · rintro ⟨j, hj, v, hv, ht⟩
      exact ⟨v, ⟨j, hj, hv⟩, ht⟩
  rw [Bool.eq_iff_iff, hiff, hiff]
  simp only [hcell]

/-- The second of two freezes in the same surroundings changes nothing. -/
theorem freeze_freeze {c c' : Scope} (h : c.HoldsAlike c') (v : Value) :
    (v.freeze c).freeze c' = v.freeze c := by
  induction v using Value.nest_induction generalizing c c' with
  | leaf v hleaf => cases v <;> first | rfl | cases hleaf
  | error s v _ => rfl
  | dict s keys vals ihk ihv =>
    by_cases hheld : c.holds s = true
    · rw [Value.freeze, if_pos hheld, Value.freeze, if_pos (h s ▸ hheld)]
    · -- The arrays hold what they held, so that each is frozen in the same surroundings again.
      have hkeys := Value.array.inj (ihk (h.beside [.array vals]
        [(Value.array vals).freeze (c.beside [.array keys])] fun t => by
          simp only [List.any_cons, holds_freeze]))
      have hvals := Value.array.inj (ihv (h.beside [.array keys]
        [(Value.array keys).freeze (c.beside [.array vals])] fun t => by
          simp only [List.any_cons, holds_freeze]))
      rw [Value.freeze, if_neg hheld, Value.freeze, if_neg (h s ▸ hheld)]
      simp only [Value.freeze] at hkeys hvals
      rw [hkeys, hvals]
  | array a ih =>
    cases a with
    | list w =>
      rw [Value.freeze, Arr.freeze_list, Value.freeze, Arr.freeze_list]
      by_cases hheld : c.holds w.storage = true
      · simp only [if_pos hheld, if_pos (h w.storage ▸ hheld)]
      · simp only [if_neg hheld, if_neg (h w.storage ▸ hheld)]
        congr 3
        refine List.ext_getElem (by simp [Window.frozenCells]) fun i hi hi' => ?_
        have hcell : i < w.buf.length := by simpa [Window.frozenCells] using hi'
        have hbeside := h.beside (w.buf.eraseIdx i) _ fun t =>
          (any_holds_frozenCells c w i t).symm
        simp only [Window.frozenCells, List.getElem_mapIdx] at hbeside ⊢
        split
        · exact ih _ (List.getElem_mem hcell) hbeside
        · rfl
    | _ w => rfl

end SharedArrays
