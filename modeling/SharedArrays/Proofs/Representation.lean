import SharedArrays.Proofs.WellFormed.Session

/-!
# The representation invariant

The offset and the length of a window are kept apart from its buffer, and the keys of a dictionary
apart from its values. That they fit together is an invariant of sessions: it holds at the start,
every command keeps it, also one that fails half-way, and what a command answers has it too.

An append shows best what could go wrong. It first drops what lies outside of the window, then
moves the offset, then lets the buffer grow, and counts the length up at the end. For a window
inside its buffer these four steps make a window on the whole of the grown buffer; for any other
window they do not.

## Main definitions

* `Window.trim`, `Window.grow` — the steps of an append

## Main results

* `Window.InBounds.append_eq_grow` — an append is its steps
* `wellFormed_reply` — what commands answer
* `representation_invariant` — sessions keep the invariant
-/

namespace SharedArrays

/-! ## The steps of an append -/

namespace Window

variable {α : Type} {w : Window α}

/-- What the window shows becomes the whole of its buffer. -/
def trim (w : Window α) : Window α :=
  if w.off ≠ 0 ∨ w.buf.length ≠ w.len then
    { w with buf := (w.buf.take (w.off + w.len)).drop w.off, off := 0 }
  else w

/-- Elements go to the end of the buffer, and the length is counted up. -/
def grow (w : Window α) (xs : List α) : Window α :=
  { w with buf := w.buf ++ xs, len := w.len + xs.length }

theorem trim_eq (w : Window α) : w.trim = { w with buf := w.items, off := 0 } := by
  have hitems : w.items = (w.buf.take (w.off + w.len)).drop w.off := by
    rw [items, stretch, List.drop_take, Nat.add_sub_cancel_left]
  unfold trim
  split
  · rw [hitems]
  · rename_i hwhole
    obtain ⟨hoff, hlen⟩ := not_or.1 hwhole
    have hoff : w.off = 0 := Decidable.of_not_not hoff
    have hlen : w.buf.length = w.len := Decidable.of_not_not hlen
    -- The window is the whole buffer already.
    have hbuf : w.items = w.buf := by simp [items, stretch, hoff, ← hlen]
    rw [hbuf, ← hoff]

theorem InBounds.trim (h : w.InBounds) : w.trim.InBounds := by
  rw [trim_eq]
  simp [InBounds, h.length_items]

theorem InBounds.grow (h : w.InBounds) (xs : List α) : (w.grow xs).InBounds := by
  simp only [InBounds, Window.grow, List.length_append] at *
  omega

/-- Making private, trimming, growing and counting add up to one append, because the length that
is counted up agrees with what the trimmed buffer holds. -/
theorem InBounds.append_eq_grow (h : w.InBounds) (c : Scope) (xs : List α) :
    w.append c xs = ((w.makePrivate c).trim).grow xs := by
  have hlen : (w.makePrivate c).items.length = (w.makePrivate c).len :=
    (h.makePrivate c).length_items
  rw [trim_eq, append, Window.grow, ofList, List.length_append, hlen, flags_makePrivate]

end Window

/-! ## Steps -/

instance : HasNodes Reply := ⟨fun reply => allNodes reply.answer ++ allNodes reply.slot⟩

theorem wellFormed_reply_iff {reply : Reply} :
    WellFormed reply ↔ WellFormed reply.answer ∧ WellFormed reply.slot :=
  List.forall_mem_append

section Steps

variable {σ σ' : Session} {reply : Reply}

/-- The operands of a question come from literals and registers. -/
theorem wellFormed_question {s : Site} {q : Question Term} {q' : Question Value}
    {registers registers' : Registers} {n n' : Nat}
    (h : (q.mapM (Reading.operand s) fun e => e.read (s.sub 0)).run (registers, n) =
      .ok (q', registers', n')) (hregisters : WellFormed registers.contents) : WellFormed q' := by
  by_cases hq : ∃ e, q = .failure e
  · obtain ⟨e, rfl⟩ := hq
    obtain ⟨⟨e', registers₁, n₁⟩, hrun, hnext⟩ := refusal_bind_eq_ok h
    cases hnext
    have he : WellFormed e' :=
      (makes_readFailure (s.sub 0) e registers n e' registers' n' hrun).2.2.2
        ((everywhere_pair ..).2 ⟨everywhere_nil, hregisters⟩)
    obtain ⟨cause, op, hint⟩ := e'
    cases cause with
    | raised v => exact everywhere_singleton.2 he
    | _ => exact everywhere_empty (α := Value)
  · exact ((takes_question fun e he => hq ⟨e, he⟩).made h).2.2 hregisters

theorem wellFormed_reply {command : Command Term} (hσ : WellFormed σ.registers.contents)
    (h : σ.step command = .ok (σ', reply)) : WellFormed reply := by
  cases command with
  | produce p dest =>
    obtain ⟨p', registers, n, answer, hread, hrun, -, rfl⟩ := step_produce h
    obtain ⟨-, -, hp⟩ := (takes_production σ.site p).made hread
    have hanswer := (fits_closedUnderCommands σ.settings).production (hp hσ) hrun
    refine wellFormed_reply_iff.2 ⟨?_, everywhere_none⟩
    cases answer with
    | ok v => exact hanswer
    | error e => exact hanswer
  | change name change =>
    obtain ⟨change', registers, n, x, x', answer, hread, hx, hrun, -, rfl⟩ := step_change h
    obtain ⟨hwithin, -, hchange⟩ := (takes_change σ.site change).made hread
    have hx := Registers.everywhere_get? (hwithin.everywhere hσ) hx
    obtain ⟨hx', hanswer⟩ := wellFormed_change (hchange hσ) hx hrun
    exact wellFormed_reply_iff.2 ⟨hanswer, hx'⟩
  | ask q =>
    obtain ⟨q', registers, n, answer, hread, hanswer, -, rfl⟩ := step_ask h
    have hq := wellFormed_question hread hσ
    exact wellFormed_reply_iff.2
      ⟨(fits_closedUnderCommands σ.settings).answer hq hanswer, everywhere_none⟩
  | drop name =>
    obtain ⟨-, rfl⟩ := step_drop h
    exact wellFormed_reply_iff.2 ⟨everywhere_atomic rfl, everywhere_none⟩

/-- In every session that steps lead to, all windows lie inside their buffers, and all dictionaries
have as many keys as values, at every depth. A step keeps this, whether what it carries out goes
through or fails, and so does an append that drops, shifts, grows and counts one after the other. -/
theorem representation_invariant :
    (∀ σ : Session, σ.Reachable → WellFormed σ.registers.contents) ∧
    (∀ (σ σ' : Session) (command : Command Term) (reply : Reply),
      WellFormed σ.registers.contents → σ.step command = .ok (σ', reply) →
        WellFormed σ'.registers.contents ∧ WellFormed reply) ∧
    ∀ {α : Type} (w : Window α) (c : Scope) (xs : List α), w.InBounds →
      (w.makePrivate c).trim.InBounds ∧ ((w.makePrivate c).trim.grow xs).InBounds ∧
        w.append c xs = (w.makePrivate c).trim.grow xs := by
  refine ⟨fun σ hσ => hσ.wellFormed,
    fun σ σ' command reply hσ h => ⟨wellFormed_step hσ h, wellFormed_reply hσ h⟩,
    fun w c xs hw => ?_⟩
  have htrim := (hw.makePrivate c).trim
  exact ⟨htrim, htrim.grow xs, hw.append_eq_grow c xs⟩

/-- A part of a part of an array, the only window left on its buffer, is appended to: the buffer is
trimmed and keeps its name. -/
theorem representation_invariant_slice_push :
    ∃ σ₁ σ₂ σ₃ reply₁ reply₂ reply₃,
      ({} : Session).step (.produce (.value (.ints {} [1, 2, 3, 4, 5])) (some "a")) =
        .ok (σ₁, reply₁) ∧
      σ₁.step (.produce (.slice (.take "a") 1 4) (some "b")) = .ok (σ₂, reply₂) ∧
      σ₂.step (.produce (.slice (.take "b") 1 3) (some "c")) = .ok (σ₃, reply₃) ∧
      WellFormed σ₃.registers.contents ∧
      ∃ w σ₄ reply₄, σ₃.registers.get? "c" = some (.array (.ints w)) ∧
        w.buf = [1, 2, 3, 4, 5] ∧ w.off = 2 ∧ w.len = 2 ∧
        w.append ⟨[], σ₃.site⟩ [9] = (w.makePrivate ⟨[], σ₃.site⟩).trim.grow [9] ∧
        σ₃.step (.change "c" (.push (.int 9))) = .ok (σ₄, reply₄) ∧
        WellFormed σ₄.registers.contents ∧ WellFormed reply₄ ∧
        ∃ u, σ₄.registers.get? "c" = some (.array (.ints u)) ∧ u.storage = w.storage ∧
          u.buf = [3, 4, 9] := by
  obtain ⟨hreachable, hstep, -⟩ := representation_invariant
  have hfirst : Session.step {} (.produce (.value (.ints {} [1, 2, 3, 4, 5])) (some "a")) =
    .ok (_, _) := rfl
  have hreach := Session.Reachable.step (Session.Reachable.step (.step (.start {}) hfirst)
    (show Session.step _ (.produce (.slice (.take "a") 1 4) (some "b")) = .ok (_, _) from rfl))
    (show Session.step _ (.produce (.slice (.take "b") 1 3) (some "c")) = .ok (_, _) from rfl)
  have hwf := hreachable _ hreach
  have hpush := hstep _ _ _ _ hwf
    (show Session.step _ (.change "c" (.push (.int 9))) = .ok (_, _) from rfl)
  refine ⟨_, _, _, _, _, _, rfl, rfl, rfl, hwf, _, _, _, rfl, rfl, rfl, rfl, ?_, rfl, hpush.1,
    hpush.2, _, rfl, rfl, by decide⟩
  exact (representation_invariant.2.2 _ _ _ (by decide)).2.2

end Steps

end SharedArrays
