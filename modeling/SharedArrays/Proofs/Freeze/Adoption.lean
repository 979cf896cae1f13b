import SharedArrays.Proofs.Alike.Commands
import SharedArrays.Proofs.Freeze.Session

/-!
# Handles for a place in a container

Adopting gives one more handle on a value, which is to go into a container. If the container is
pinned, the new handle is frozen. The handle from which it was made is still there at that moment,
so that the object they are on is shared, and freezing does not go into shared objects. Of an array
the new handle is pinned and no array in it, of a dictionary nothing is pinned at all. When the
other handle is gone, what is inside can be owned alone like any other value.

## Main definitions

* `Arr.Adopts` — the new handle, compared with the value it was made from

## Main results

* `adopts_adopt` — what adopting gives
* `adopt_pins_outermost` — adopting into a register, and who owns what is in it from then on
* `adopted_elements_not_pinned` — arrays in a list and in a dictionary that are not pinned
-/

namespace SharedArrays

/-! ## The new handle -/

/-- What a new handle `u` on the value `x` is, when it is made for a place in the container `a`. -/
structure Arr.Adopts (a : Arr Value) (x u : Value) : Prop where
  eqv : u.eqv x = true
  unpinned : a.flags.pinned = false → u = x
  /-- All arrays are at their places on the buffers that they were on. A pin is added at most to
  the outermost one. -/
  arrays : ∀ ps b, u.part? ps = some (.array b) ↔ ∃ b₀, x.part? ps = some (.array b₀) ∧
    b = if a.flags.pinned ∧ ps = [] then b₀.pin else b₀

section Handle

variable {a b : Arr Value} {x : Value}

/-- An array that is frozen beside another handle on its buffer is pinned, and that is all. -/
theorem freeze_array_of_holds {c : Scope} (h : c.holds a.storage = true) :
    (Value.array a).freeze c = .array a.pin := by
  cases a with
  | list w =>
    rw [Value.freeze, Arr.freeze_list, if_pos (show c.holds w.storage = true from h)]
    rfl
  | _ w => rfl

theorem freeze_dict_of_holds {c : Scope} {s : Site} {d : Dict Value} (h : c.holds s = true) :
    (Value.dict s d).freeze c = .dict s d := by
  obtain ⟨keys, vals⟩ := d
  rw [Value.freeze, if_pos h]

/-- The handle from which the new one is made is on the same object. -/
theorem holds_beside_self (c : Scope) {s : Site} (h : x.name? = some s) :
    (c.beside [x]).holds s = true := by
  have hself : x.holds s = true := (holds_iff s x).2 (names_of_name h)
  rw [Scope.holds_beside, List.any_cons, hself, Bool.true_or, Bool.or_true]

theorem adopt_array (c : Scope) (a b : Arr Value) :
    a.adopt c (.array b) = .array (if a.flags.pinned then b.pin else b) := by
  have hholds : (c.beside [.array b]).holds b.storage = true := holds_beside_self c rfl
  unfold Arr.adopt
  split
  · exact freeze_array_of_holds hholds
  · rfl

/-- Only arrays get a pin of their own. -/
theorem adopt_of_not_array (c : Scope) (a : Arr Value) (h : x.array? = none) :
    a.adopt c x = x := by
  unfold Arr.adopt
  split
  · cases x with
    | array b => cases h
    | dict s d => exact freeze_dict_of_holds (holds_beside_self c rfl)
    | _ => rfl
  · rfl

/-- Below the outermost array, nothing is seen of its pin. -/
theorem part?_pin (b : Arr Value) {ps : List Part} (h : ps ≠ []) :
    (Value.array b.pin).part? ps = (Value.array b).part? ps := by
  cases ps with
  | nil => exact absurd rfl h
  | cons p ps =>
    cases b with
    | list w => cases p <;> (unfold Value.part?; rfl)
    | _ w => rfl

theorem adopts_pin (ha : a.flags.pinned = true) (b : Arr Value) :
    a.Adopts (.array b) (.array b.pin) where
  eqv := (alike_array.2 (alike_pin b)).eqv
  unpinned h := by
    rw [ha] at h
    cases h
  arrays ps b' := by
    -- The pin is on the outermost array. Further in, the ways lead to the same arrays.
    by_cases hps : ps = []
    · subst hps
      rw [Value.part?, Value.part?]
      constructor
      · rintro ⟨⟩
        exact ⟨b, rfl, (if_pos ⟨ha, rfl⟩).symm⟩
      · rintro ⟨_, ⟨⟩, rfl⟩
        rw [if_pos ⟨ha, rfl⟩]
    · simp only [if_neg (show ¬(a.flags.pinned = true ∧ ps = []) from fun h => hps h.2),
        part?_pin b hps, exists_eq_right']

/-- Nothing changes if the container is not pinned, and never for a value that is no array. -/
theorem adopts_self (h : a.flags.pinned = true → x.array? = none) : a.Adopts x x where
  eqv := Alike.eqv rfl
  unpinned _ := rfl
  arrays ps b := by
    have hself {b₀ : Arr Value} (hb₀ : x.part? ps = some (.array b₀)) :
        ¬(a.flags.pinned = true ∧ ps = []) := by
      rintro ⟨hpinned, rfl⟩
      cases hb₀
      cases h hpinned
    constructor
    · intro hb
      exact ⟨b, hb, (if_neg (hself hb)).symm⟩
    · rintro ⟨b₀, hb₀, rfl⟩
      rw [if_neg (hself hb₀)]
      exact hb₀

/-- What adopting gives. -/
theorem adopts_adopt (c : Scope) (a : Arr Value) (x : Value) : a.Adopts x (a.adopt c x) := by
  cases harray : x.array? with
  | none =>
    rw [adopt_of_not_array c a harray]
    exact adopts_self fun _ => harray
  | some b =>
    obtain rfl : x = .array b := by
      cases x <;> cases harray
      rfl
    rw [adopt_array]
    split
    · exact adopts_pin ‹_› b
    · exact adopts_self fun hpinned => absurd hpinned ‹_›

end Handle

/-! ## In a register -/

section Registers

variable {σ σ' : Session} {name : String} {x : Value} {ps : List Part}

/-- An array in a register that is not written to stays there, and is owned alone just if it is not
pinned and no other handle on its buffer is left. -/
theorem Session.Backed.sole_iff_of_leadsBeside {st : Store} {b : Arr Value} (hσ : σ.Backed st)
    (hx : σ.registers.get? name = some x) (hb : x.part? ps = some (.array b))
    (hleads : σ.LeadsBeside name σ') {x' : Value} (hx' : σ'.registers.get? name = some x') :
    σ'.registers.locate ⟨name, ps⟩ = .ok (.array b) ∧
      ∃ σ'' o, σ'.step (.ask (.ownership ⟨name, ps⟩)) = .ok (σ'', ⟨.ok (.ownership o), none⟩) ∧
        (o.sole = true ↔
          b.flags.pinned = false ∧ handleCount σ'.registers.contents b.storage = 1) := by
  cases hσ.eq_of_leadsBeside hx hleads hx'
  have hlocate := locate_eq_ok.2 ⟨x, hx', hb⟩
  obtain ⟨σ'', hask⟩ := exists_step_ownership hlocate
  refine ⟨hlocate, σ'', _, hask, ?_⟩
  simp [Value.ownership, Value.isSole, Value.isSole.sole]

/-- Adopting goes through for every value and every container. The new handle is equal to the value
it was made from and shares all buffers with it. For a pinned container, the outermost array gets a
pin; no other array does, and an unpinned container pins nothing. Whatever happens to the other
handles, an array in the register is owned alone just if it has no pin and the last handle. -/
theorem adopt_pins_outermost {container v : Term} {a : Arr Value} {registers : Registers} {n : Nat}
    (h : σ.Reachable)
    (hread : ((Production.adopt container v).mapM (Reading.operand σ.site)).run (σ.registers, 1) =
      .ok (.adopt (.array a) x, registers, n)) (name : String) :
    ∃ σ₁ u, σ.step (.produce (.adopt container v) (some name)) =
        .ok (σ₁, ⟨.ok (.value u), none⟩) ∧
      σ₁.registers.get? name = some u ∧ a.Adopts x u ∧
      ∀ σ' u', σ₁.LeadsBeside name σ' → σ'.registers.get? name = some u' →
        ∀ ps b, u.part? ps = some (.array b) →
          σ'.registers.locate ⟨name, ps⟩ = .ok (.array b) ∧
          ∃ σ'' o,
            σ'.step (.ask (.ownership ⟨name, ps⟩)) = .ok (σ'', ⟨.ok (.ownership o), none⟩) ∧
            (o.sole = true ↔
              b.flags.pinned = false ∧ handleCount σ'.registers.contents b.storage = 1) := by
  -- The operands have been read, and nothing can fail from here on.
  let c : Scope := ⟨registers.contents, σ.site.sub 0⟩
  let u := a.adopt (c.beside [.array a]) x
  let σ₁ : Session := { σ with registers := registers.set name u, steps := σ.steps + 1 }
  have hstep : σ.step (.produce (.adopt container v) (some name)) =
      .ok (σ₁, ⟨.ok (.value u), none⟩) := by
    unfold Session.step
    simp only
    rw [show Site.step σ.steps = σ.site from rfl, hread]
    rfl
  have hu : σ₁.registers.get? name = some u := Registers.get?_set ..
  obtain ⟨st₁, hσ₁⟩ := (Session.Reachable.step h hstep).exists_backed
  exact ⟨σ₁, u, hstep, hu, adopts_adopt _ a x, fun σ' u' hleads hu' ps b hb =>
    hσ₁.sole_iff_of_leadsBeside hu hb hleads hu'⟩

/-- A list is adopted for a pinned container. When the register it came from is dropped, its handle
is the last one on the buffer, and it is still not owned alone. -/
theorem adopt_pins_outermost_dropped :
    ∃ σ₁ σ₂ σ₃ σ₄ reply₁ reply₃ u b o,
      ({} : Session).step (.produce (.value (.list {} [.ints {} [1], .str "x"])) (some "s")) =
        .ok (σ₁, reply₁) ∧
      σ₁.step (.produce (.adopt (.list { pinned := true } []) (.ref "s")) (some "r")) =
        .ok (σ₂, ⟨.ok (.value u), none⟩) ∧
      σ₂.step (.drop "s") = .ok (σ₃, reply₃) ∧
      σ₃.registers.locate ⟨"r", []⟩ = .ok (.array b) ∧
      handleCount σ₃.registers.contents b.storage = 1 ∧
      σ₃.step (.ask (.ownership ⟨"r", []⟩)) = .ok (σ₄, ⟨.ok (.ownership o), none⟩) ∧
      o.sole = false := by
  have hfirst : Session.step {} (.produce (.value (.list {} [.ints {} [1], .str "x"])) (some "s")) =
    .ok (_, _) := rfl
  obtain ⟨σ₂, u, hadopt, -, hadopts, howner⟩ :=
    adopt_pins_outermost (.step (.start {}) hfirst)
      (show ((Production.adopt (.list { pinned := true } []) (.ref "s")).mapM
        (Reading.operand _)).run (_, 1) = .ok (.adopt (.array _) (.array _), _, _) from rfl) "r"
  have hb := (hadopts.arrays [] _).2 ⟨_, rfl, rfl⟩
  cases hadopt.symm.trans (show Session.step _ _ = .ok (_, _) from rfl)
  obtain ⟨hlocate, σ₄, o, hask, hsole⟩ := howner _ _
    (@Session.LeadsBeside.step _ _ _ _ (.drop "s") _ .refl (by decide) rfl) rfl [] _ hb
  refine ⟨_, _, _, σ₄, _, _, _, _, o, hfirst, rfl, rfl, hlocate, rfl, hask, ?_⟩
  rw [← Bool.not_eq_true, hsole]
  rintro ⟨hpinned, -⟩
  cases hpinned

/-- An array in a list and one in a dictionary, both adopted for a pinned container. No other
handle was on them, none is left on what they are in, and they are owned alone. -/
theorem adopted_elements_not_pinned :
    ∃ σ₁ σ₂ σ₃ σ₄ reply₁ reply₂ o o',
      ({} : Session).step (.produce (.adopt (.list { pinned := true } [])
        (.list {} [.ints {} [1], .str "x"])) (some "r")) = .ok (σ₁, reply₁) ∧
      σ₁.step (.ask (.ownership ⟨"r", [.element 0]⟩)) = .ok (σ₂, ⟨.ok (.ownership o), none⟩) ∧
      o.sole = true ∧
      σ₂.step (.produce (.adopt (.list { pinned := true } [])
        (.dict (.strs {} ["a"]) (.ints {} [1]))) (some "r")) = .ok (σ₃, reply₂) ∧
      σ₃.step (.ask (.ownership ⟨"r", [.vals]⟩)) = .ok (σ₄, ⟨.ok (.ownership o'), none⟩) ∧
      o'.sole = true :=
  ⟨_, _, _, _, _, _, _, _, rfl, rfl, rfl, rfl, rfl, rfl⟩

end Registers

end SharedArrays
