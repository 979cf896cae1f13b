import SharedArrays.Proofs.Store.Call
import SharedArrays.Proofs.Session

/-!
# Commands and the store

A command of a session is carried out while the registers and its operands are alive. It changes
the value that it works on, and nothing that is held beside it.

## Main definitions

* `Production.kept` — the operands that a production leaves to its caller
* `Callee.stopped` — a function that fails at chosen calls, to look at an amend on its way

## Main results

* `made_merge`, `turns_callAmend` — the interface
* `turns_production`, `turns_change` — the commands
-/

namespace SharedArrays

variable {settings : Settings} {c : Scope}

/-! ## Amends on their way -/

/-- The function up to the calls that `stop` chooses. An amend with it ends there, and leaves what
has been written by then. -/
def Callee.stopped (f : Callee) (stop : Site → Bool) : Callee where
  value := f.value
  call s args := if stop s then .error (.domain "stopped") else f.call s args

theorem Callee.Makes.stopped {f : Callee} (hf : f.Makes) (stop : Site → Bool) :
    (f.stopped stop).Makes := by
  intro s args
  simp only [Callee.stopped]
  split
  · exact made_error rfl
  · exact hf s args

/-- What an amend has written by the call of its function that `stop` chooses. -/
def Value.amendUntil (settings : Settings) (form : Form) (c : Scope) (x y f : Value)
    (z : Option Value) (stop : Site → Bool) : Outcome Value :=
  x.amendBy settings form c y ((Callee.ofValue settings f).stopped stop) z

/-- An amend whose operands are all alive. -/
theorem turns_amendOperands {f : Callee} (hf : f.Makes) {form : Form} {y : Value}
    {z : Option Value} (hkeeps : c.Keeps (y :: f.value :: z.toList)) (x : Value) :
    c.Turns c.site.Covers x (x.amendBy settings form c y f z) := by
  have hparts (st : Store) (h : LiesIn st c.held) :
      LiesIn st y ∧ LiesIn st f.value ∧ LiesIn st z := by
    have h := hkeeps st h
    rw [LiesIn, everywhere_cons, everywhere_cons] at h
    exact ⟨h.1, h.2.1, everywhere_toList.1 h.2.2⟩
  exact turns_amendBy hf (fun st h => (hparts st h).2.1) (fun st h => (hparts st h).1)
    (fun st h => (hparts st h).2.2) x

theorem turns_amendUntil {form : Form} {y f : Value} {z : Option Value}
    (hkeeps : c.Keeps (y :: f :: z.toList)) (x : Value) (stop : Site → Bool) :
    c.Turns c.site.Covers x (x.amendUntil settings form c y f z stop) :=
  turns_amendOperands ((makes_ofValue settings f).stopped stop) hkeeps x

/-- What stands beside is alive. -/
theorem keeps_beside (c : Scope) (vs : List Value) : (c.beside vs).Keeps vs :=
  fun _ h => ((everywhere_append ..).1 h).2

/-! ## The interface -/

/-- Merging dictionaries that are held, with a function that is held. -/
theorem made_merge {l r : Dict Value} {f : Value} (hl : c.Keeps l) (hr : c.Keeps r)
    (hf : c.Keeps f) : Made c.site.Below c.held (l.merge settings c r f) := by
  refine made_mergeWith (S := c.site.From 1) (fun st h => ⟨hl st h, hr st h⟩) (fun common => ?_)
    (fun t ht => ?_) (fun _ => Site.From.below) fun t ht => ?_
  · refine made_of_turns (Made.turns_next (i := 1) ?_ fun z hz => ?_)
    · exact (made_select (c.site.sub 1) r.vals _).of_input fun st h =>
        (everywhere_entries.1 (hr st h)).2
    · have hoperand (operands : Operands)
          (hop : (Callee.ofValue settings f).operands (some (.array z))
            (.many (common.map (·.1))) = .ok operands) (k : Nat) :
          ((c.sub 2).beside [.array l.vals]).Keeps (operands.at? k) := by
        -- The selected values are new on their buffer, but they are all values of `r`.
        have hvalues : c.Keeps z.values := fun st h => values_subset_cells <|
          liesIn_cells_select (liesIn_arr.1 (everywhere_entries.1 (hr st h)).2).2 hz
        have hz : operands = .each z := by
          unfold Callee.operands Operands.ofSelection Operands.forMany at hop
          split at hop
          · simp only at hop
            split at hop <;> cases hop
            rfl
          · cases hop
        subst hz
        refine Scope.Keeps.beside (fun st h => ?_) _
        cases hk : z.at? k with
        | none => simp [Operands.at?, hk]
        | some v =>
          rw [Operands.at?, hk]
          exact everywhere_iff_forall.1 (hvalues st h) v (List.mem_of_getElem? hk)
      have hcallee := makes_ofValue settings f
      have htidy : l.vals.Tidy ((c.sub 2).beside [.array l.vals]) (c.sub 2).site.Covers
          (l.vals.amendAt settings _ _ _ _) :=
        tidy_amendAt_of_operands (c := (c.sub 2).beside [.array l.vals]) hcallee (hf.beside _)
          hoperand l.vals
      refine (((turns_of_tidy htidy).frame.of_sub.of_input fun st h => ?_).to_output
        fun st h => ?_).mono fun _ => Site.from_of_sub (Nat.le_refl 2)
      · have hvals := (everywhere_entries.1 (hl st ((everywhere_pair ..).1 h).1)).2
        exact (everywhere_pair ..).2 ⟨everywhere_singleton.2 hvals, hvals⟩
      · exact everywhere_toResult ((everywhere_pair ..).1 h).2
  · rintro ⟨k, hk, hbefore⟩
    exact Site.not_from_of_sub Nat.zero_lt_one hbefore.of_sub ht
  · exact Site.below_of_sub (Site.Before.from_zero ht).covers

/-- A failure as an error value. -/
theorem made_ofFailure (s : Site) (e : Failure Value) : Made s.Covers e (Value.ofFailure s e) := by
  unfold Value.ofFailure
  split
  · rename_i v hcause _
    refine made_object rfl fun st h => ?_
    obtain ⟨cause, op, hint⟩ := e
    cases hcause
    exact h
  · exact made_object rfl fun st _ => everywhere_str _

/-- An amend by text works on a value that stays with the caller. -/
theorem turns_callAmend (verb : String) (args : List Value) :
    (c.beside args).Turns c.site.Covers args (callAmend settings c verb args) := by
  -- The amend works at one site below, and its failure is boxed at another.
  have hamend : (c.beside args).Turns (c.site.sub 0).Covers args
      (amendOfArgs settings (c.sub 0) verb args) := by
    have hbad {e : Failure Value} (h : e.cause.holdsValue = false) :
        (c.beside args).Turns (c.site.sub 0).Covers args (.error e : Result Value) :=
      turns_of_liesIn fun _ _ => everywhere_error_of_cause h
    unfold amendOfArgs Failure.ensureArity
    split
    · exact hbad rfl
    · simp only [bind, Except.bind]
      split
      · rename_i form x y f z _ _
        have hparts {st : Store} (h : LiesIn st (c.held ++ (x :: y :: f :: z))) :
            LiesIn st x ∧ LiesIn st y ∧ LiesIn st f ∧ LiesIn st z.head? := by
          have h := ((everywhere_append ..).1 h).2
          simp only [everywhere_cons] at h
          refine ⟨h.1, h.2.1, h.2.2.1, ?_⟩
          cases z with
          | nil => exact everywhere_none
          | cons z zs => exact ((everywhere_cons ..).1 h.2.2.2).1
        have hturns : Scope.Turns ((c.beside (x :: y :: f :: z)).sub 0) (c.site.sub 0).Covers x
            (x.amendSlot settings form ((c.beside (x :: y :: f :: z)).sub 0) y f z.head?) :=
          turns_amendBy (makes_ofValue settings f) (fun st h => (hparts h).2.2.1)
            (fun st h => (hparts h).2.1) (fun st h => (hparts h).2.2.2) x
        exact (hturns.of_sub.of_kept fun st h => (hparts h).1).to_output
          fun _ => everywhere_toResult
      · exact hbad rfl
  unfold callAmend
  generalize amendOfArgs settings (c.sub 0) verb args = r at hamend ⊢
  cases r with
  | ok v => exact hamend.mono fun _ => Site.Covers.of_sub
  | error e =>
    have herror : (c.beside args).Turns (c.site.sub 0).Covers args e :=
      hamend.to_output fun _ h => h
    exact herror.trans (made_ofFailure (c.site.sub 1) e).turns_of_input
      (Site.apart_sub (by omega)) (fun _ => Site.Covers.of_sub) fun _ => Site.Covers.of_sub

/-! ## Productions -/

/-- The operands that a production leaves to its caller. An amend by value, a move to canonical
storage and a reuse use up the value that they work on. -/
def Production.kept : Production Value → List Value
  | .amend _ _ y f z => y :: f :: z.toList
  | .canonical _ => []
  | .reuse _ => []
  | p => p.operands

/-- A handle on another stretch of the buffer, or with other flags. -/
theorem liesIn_sameObject {st : Store} {a b : Arr Value} (h : LiesIn st a)
    (hs : b.storage = a.storage) (ho : b.object = a.object) (hcells : b.cells = a.cells) :
    LiesIn st b := by
  obtain ⟨hobject, ha⟩ := liesIn_arr.1 h
  exact liesIn_arr.2 ⟨hs ▸ ho ▸ hobject, hcells ▸ ha⟩

theorem liesIn_slice {st : Store} {a : Arr Value} (h : LiesIn st a) (i j : Nat) :
    LiesIn st (a.slice i j) := by
  unfold Arr.slice
  split
  · exact everywhere_error_of_cause rfl
  split
  · exact everywhere_error_of_cause rfl
  · cases a <;> exact liesIn_sameObject h rfl rfl rfl

theorem liesIn_setFlags {st : Store} {a : Arr Value} (h : LiesIn st a) (flags : Flags) :
    LiesIn st (a.setFlags flags) := by
  cases a <;> exact liesIn_sameObject h rfl rfl rfl

theorem Scope.Turns.beside_nil {α β : Type} [HasNodes α] [HasNodes β] {S : Site → Prop} {x : α}
    {y : β} (h : c.Turns S x y) : (c.beside []).Turns S x y := by
  have hnil : c.beside [] = c := by rw [Scope.beside, List.append_nil]
  rwa [hnil]

theorem turns_freeze {S : Site → Prop} (v : Value) : c.Turns S v (v.freeze c) := by
  intro st _ _ hv
  obtain ⟨st', hedits, hfrozen⟩ := exists_freeze v c st hv
  exact ⟨st', hedits.allows, hfrozen⟩

theorem liesIn_get {st : Store} {a : Arr Value} (h : LiesIn st a) (i : Int64) :
    LiesIn st (a.get i) := by
  unfold Arr.get
  split
  · rename_i v hv
    split at hv
    · exact everywhere_iff_forall.1 (everywhere_values h) v (List.mem_of_getElem? hv)
    · cases hv
  · exact everywhere_error_of_cause rfl

/-- A copy of a list has its cells; a typed buffer holds no cells at all. -/
theorem made_copy (s : Site) (a : Arr Value) : Made s.Covers a (a.copy s) := by
  have hcells : Made s.Below a a.cells := made_of_liesIn fun st h => (liesIn_arr.1 h).2
  cases a with
  | list w => exact hcells.newArr rfl fun st h =>
      everywhere_of_subset h fun u hu => Window.mem_of_mem_items hu
  | _ w => exact hcells.newArr rfl fun st h => everywhere_empty

theorem made_ofArrays? (s : Site) (k v : Arr Value) :
    Made s.Covers (k, v) ((Dict.ofArrays? k v).map (Value.dict s)) := by
  unfold Dict.ofArrays?
  split
  · exact made_object (o := .dict ⟨k, v⟩) rfl fun st h =>
      everywhere_entries.2 ((everywhere_pair ..).1 h)
  · exact made_error rfl

/-- A merge makes a new dictionary, and leaves both dictionaries and the function as they are. -/
theorem turns_mergeDicts (s t : Site) (l r : Dict Value) (f : Value) :
    (c.beside [.dict s l, .dict t r, f]).Turns c.site.Covers [.dict s l, .dict t r, f]
      ((l.merge settings (c.beside [.dict s l, .dict t r, f]) r f).map (Value.dict c.site)) := by
  let inner : Scope := c.beside [.dict s l, .dict t r, f]
  have hparts {st : Store} (h : LiesIn st inner.held) :
      LiesIn st l ∧ LiesIn st r ∧ LiesIn st f := by
    have h := ((everywhere_append ..).1 h).2
    simp only [everywhere_cons] at h
    exact ⟨everywhere_entries.2 ((everywhere_dict ..).1 h.1).2,
      everywhere_entries.2 ((everywhere_dict ..).1 h.2.1).2, h.2.2.1⟩
  have hmerge : Made c.site.Below inner.held (l.merge settings inner r f) :=
    made_merge (c := inner) (fun _ h => (hparts h).1) (fun _ h => (hparts h).2.1)
      fun _ h => (hparts h).2.2
  have hmap (m : Result (Dict Value)) :
      m.map (Value.dict c.site) = (do return .dict c.site (← m)) := by cases m <;> rfl
  rw [hmap]
  exact Made.turns ((made_newDict hmerge).of_input fun _ h => ((everywhere_pair ..).1 h).2)

/-- A production changes nothing that is held, and none of the operands that it leaves to its
caller. -/
theorem turns_production {p : Production Value} {r : Result Value}
    (h : p.run settings c = .ok r) : (c.beside p.kept).Turns c.site.Covers p.operands r := by
  have hhead {v : Value} {vs : List Value} {st : Store} (h : LiesIn st (v :: vs)) : LiesIn st v :=
    ((everywhere_cons ..).1 h).1
  have hsecond {u v : Value} {vs : List Value} {st : Store} (h : LiesIn st (u :: v :: vs)) :
      LiesIn st v := hhead ((everywhere_cons ..).1 h).2
  cases p with
  | value x =>
    cases h
    exact turns_of_liesIn fun _ => hhead
  | amend form x y f z =>
    cases h
    have hturns : (c.beside (y :: f :: z.toList)).Turns c.site.Covers x
        (x.amendSlot settings form (c.beside (y :: f :: z.toList)) y f z) :=
      turns_amendOperands (makes_ofValue settings f) (keeps_beside c (y :: f :: z.toList)) x
    exact (hturns.of_input fun _ => hhead).to_output fun _ => everywhere_toResult
  | apply f args =>
    cases h
    exact (makes_ofValue settings f c.site args).turns_of_input
  | callAmend verb args =>
    cases h
    exact turns_callAmend verb args
  | merge left right f =>
    obtain ⟨s, l, rfl, hrun⟩ := toDict_bind_eq_ok h
    obtain ⟨t, r, rfl, hrun⟩ := toDict_bind_eq_ok hrun
    cases hrun
    exact turns_mergeDicts s t l r f
  | monadic b x =>
    cases h
    exact ((made_monadic b c.site x).of_input fun _ => hhead).turns_of_input
  | dyadic b x y =>
    cases h
    exact ((made_dyadic b c.site x y).of_input fun _ h =>
      (everywhere_pair ..).2 ⟨hhead h, hsecond h⟩).turns_of_input
  | list items =>
    cases h
    exact Made.turns_of_input (made_ofValues (made_of_liesIn fun _ h => h))
  | dict keys vals =>
    cases h
    have hbad {e : Failure Value} (h : e.cause.holdsValue = false) :
        (c.beside [keys, vals]).Turns c.site.Covers [keys, vals] (.error e : Result Value) :=
      turns_of_liesIn fun _ _ => everywhere_error_of_cause h
    split
    · exact ((made_ofArrays? c.site _ _).of_input fun _ h =>
        (everywhere_pair ..).2 ⟨hhead h, hsecond h⟩).turns_of_input
    · exact hbad rfl
    · exact hbad rfl
  | canonical x =>
    cases h
    refine Scope.Turns.beside_nil ?_
    -- The value is used up, so its buffer may be rewritten when nothing else refers to it.
    cases x with
    | array a => exact ((turns_canonical c a).of_input fun _ => hhead)
    | _ => exact turns_of_liesIn fun _ => hhead
  | til n =>
    cases h
    exact Made.turns_of_input (made_object (v := .array (.til c.site n)) rfl fun _ _ => nofun)
  | empty kind =>
    cases h
    exact (made_empty c.site kind).turns_of_input
  | emptyDict =>
    cases h
    exact (made_emptyDict c.site).turns_of_input
  | get x i =>
    obtain ⟨a, rfl, hrun⟩ := toArr_bind_eq_ok h
    cases hrun
    exact turns_of_liesIn fun _ h => liesIn_get (hhead h) i
  | slice x i j =>
    obtain ⟨a, rfl, hrun⟩ := toArr_bind_eq_ok h
    cases hrun
    exact turns_of_liesIn fun st h => everywhere_mapArray.2 (liesIn_slice (hhead h) i j)
  | select x ps =>
    obtain ⟨a, rfl, hrun⟩ := toArr_bind_eq_ok h
    cases hrun
    exact (((made_select c.site a ps).of_input fun _ => hhead).to_output fun _ =>
      everywhere_mapArray.2).turns_of_input
  | concat x y =>
    obtain ⟨a, rfl, hrun⟩ := toArr_bind_eq_ok h
    obtain ⟨b, rfl, hrun⟩ := toArr_bind_eq_ok hrun
    cases hrun
    exact Made.turns_of_input (Made.concat (made_of_liesIn fun st h =>
      (everywhere_pair ..).2 ⟨hhead h, hsecond h⟩))
  | padding x =>
    obtain ⟨a, rfl, hrun⟩ := toArr_bind_eq_ok h
    cases hrun
    exact (made_padding c.site a).turns_of_input
  | copy x =>
    obtain ⟨a, rfl, hrun⟩ := toArr_bind_eq_ok h
    cases hrun
    exact ((made_copy c.site a).of_input fun _ => hhead).turns_of_input
  | reuse x =>
    obtain ⟨a, rfl, hrun⟩ := toArr_bind_eq_ok h
    cases hrun
    refine Scope.Turns.beside_nil ?_
    exact (turns_of_written (writtenAs_makePrivate a) fun _ _ => everywhere_nil).of_input
      fun _ => hhead
  | adopt container v =>
    obtain ⟨a, rfl, hrun⟩ := toArr_bind_eq_ok h
    cases hrun
    unfold Arr.adopt
    -- Only a pinned container freezes what it takes in.
    split
    · have hfrozen := turns_freeze (c := (c.beside [.array a]).beside [v]) (S := c.site.Covers) v
      have hbeside : (c.beside [.array a]).beside [v] = c.beside [.array a, v] := by
        simp [Scope.beside]
      rw [hbeside] at hfrozen ⊢
      exact hfrozen.of_input fun _ => hsecond
    · exact turns_of_liesIn fun _ => hsecond

/-! ## Changes -/

/-- A list made from an array has a buffer of its own, unless the array is a list already. -/
theorem turns_asList (a : Arr Value) :
    c.Turns c.site.Covers (Value.array a) (Value.array (a.asList c.site)) := by
  cases a with
  | list w => exact turns_of_liesIn fun _ h => h
  | _ w =>
    exact turns_of_written (x := Value.nil)
      (writtenAs_newList _ fun st h _ => values_subset_cells h) fun _ _ => everywhere_nil

/-- A dictionary keeps its own object when its entries change. -/
theorem turns_ownDict {s : Site} {d e : Dict Value} (h : c.Turns c.site.Below d e) :
    c.Turns c.site.Covers (Value.dict s d) (Value.dict (c.own s) e) :=
  (turns_dict (turns_done h)).to_output fun _ h => (everywhere_outcome.1 h).1

theorem turns_append? {k v : Arr Value} (hkeeps : c.Keeps [Value.array k, .array v])
    (d : Dict Value) : c.Turns c.site.Below d (d.append? (c.site.sub 0) k v) := by
  refine ((made_append? (c.site.sub 0) d k v).of_input fun st h => ?_).turns.mono
    fun _ => Site.below_of_sub
  obtain ⟨hd, hheld⟩ := (everywhere_pair ..).1 h
  obtain ⟨hk, hv⟩ := (everywhere_cons ..).1 (hkeeps st hheld)
  exact (everywhere_pair ..).2
    ⟨(everywhere_pair ..).2 ⟨hd, hk⟩, everywhere_singleton.1 hv⟩

/-- A change works on one value and answers. It changes nothing that is held, its operands
included. -/
theorem turns_change {change : Change Value} (hkeeps : c.Keeps change.operands) {x x' : Value}
    {answer : Result Answer} (h : change.run settings c x = .ok (x', answer)) :
    c.Turns c.site.Covers x (x', answer) := by
  have hquiet {y : Value} {a : Answer} (hturns : c.Turns c.site.Covers x y)
      (ha : ∀ P, Everywhere P a) : c.Turns c.site.Covers x (y, (.ok a : Result Answer)) :=
    hturns.to_output fun st hy => (everywhere_pair ..).2 ⟨hy, ha _⟩
  have hhead {v : Value} {vs : List Value} {st : Store} (h : LiesIn st (v :: vs)) : LiesIn st v :=
    ((everywhere_cons ..).1 h).1
  cases change with
  | amend form y f z =>
    cases h
    have hturns : c.Turns c.site.Covers x (x.amendSlot settings form c y f z) :=
      turns_amendOperands (makes_ofValue settings f) hkeeps x
    refine hturns.to_output fun st ho => ?_
    obtain ⟨hslot, hfailure⟩ := everywhere_outcome.1 ho
    refine (everywhere_pair ..).2 ⟨hslot, ?_⟩
    have hfailure : LiesIn st (x.amendSlot settings form c y f z).failure := hfailure
    generalize x.amendSlot settings form c y f z = o at hfailure ⊢
    obtain ⟨slot, failure⟩ := o
    -- The answer holds nothing but what the failure of the amend raises.
    cases failure with
    | none => exact List.forall_mem_nil _
    | some e => exact hfailure
  | setAt i v =>
    obtain ⟨a, rfl, hrun⟩ := toArr_bind_eq_ok h
    have hv : c.Keeps v := fun st h => hhead (hkeeps st h)
    split at hrun
    · rename_i b hb
      cases hrun
      exact hquiet (turns_of_written (writtenAs_set hb) hv) fun P => List.forall_mem_nil P
    -- A refused value goes back to the caller, and nothing has been written.
    · rename_i w hw
      cases hrun
      have hwv : w = v := Arr.eq_of_store_error hw
      subst hwv
      intro st _ hheld hx
      exact ⟨st, .refl c _ st, (everywhere_pair ..).2 ⟨hx, hv st hheld⟩⟩
  | put i v =>
    obtain ⟨a, rfl, hrun⟩ := toArr_bind_eq_ok h
    cases hrun
    exact hquiet (turns_of_written (writtenAs_put a i v) fun st h => hhead (hkeeps st h))
      fun P => List.forall_mem_nil P
  | push v =>
    obtain ⟨a, rfl, hrun⟩ := toArr_bind_eq_ok h
    cases hrun
    exact hquiet (turns_of_written (writtenAs_push a v) fun st h => hhead (hkeeps st h))
      fun P => List.forall_mem_nil P
  | extend w =>
    obtain ⟨a, rfl, hrun⟩ := toArr_bind_eq_ok h
    obtain ⟨b, rfl, hextend⟩ := toArr_bind_eq_ok hrun
    split at hextend
    · rename_i e he
      cases hextend
      exact hquiet (turns_of_written (writtenAs_extend? he) fun st h => hhead (hkeeps st h))
        fun P => List.forall_mem_nil P
    · cases hextend
  | asList =>
    obtain ⟨a, rfl, hrun⟩ := toArr_bind_eq_ok h
    cases hrun
    exact hquiet (turns_asList a) fun P => List.forall_mem_nil P
  | appendKey k =>
    cases x with
    | dict s d =>
      cases h
      have happend := (turns_appendKey (c := c.sub 0) (fun st h => hhead (hkeeps st h)) d).of_sub
      have hbelow := happend.mono (T := c.site.Below) fun _ h => Site.below_of_sub h.covers
      exact hquiet (turns_ownDict hbelow) fun P => List.forall_mem_nil P
    | _ => cases h
  | appendEntries keys vals =>
    cases x with
    | dict s d =>
      obtain ⟨k, rfl, hrun⟩ := toArr_bind_eq_ok h
      obtain ⟨v, rfl, hentries⟩ := toArr_bind_eq_ok hrun
      have happend : c.Turns c.site.Below d (d.append? (c.site.sub 0) k v) :=
        turns_append? hkeeps d
      split at hentries
      · rename_i e he
        cases hentries
        rw [he] at happend
        exact hquiet (turns_ownDict happend) fun P => List.forall_mem_nil P
      · rename_i e he
        cases hentries
        have hfailed : c.Turns c.site.Below d (Outcome.failed d e) := by
          refine turns_failed fun P => ?_
          unfold Dict.append? at he
          split at he <;> cases he
          exact everywhere_failure rfl
        exact (turns_dict hfailed).to_output fun _ h =>
          (everywhere_pair ..).2 (everywhere_outcome.1 h)
    | _ => cases h
  | setFlags flags =>
    obtain ⟨a, rfl, hrun⟩ := toArr_bind_eq_ok h
    cases hrun
    exact hquiet (turns_of_liesIn fun st h => liesIn_setFlags h flags)
      fun P => List.forall_mem_nil P
  | pin =>
    obtain ⟨a, rfl, hrun⟩ := toArr_bind_eq_ok h
    cases hrun
    exact hquiet (turns_of_liesIn fun st h => liesIn_setFlags h _) fun P => List.forall_mem_nil P
  | freeze =>
    cases h
    exact hquiet (turns_freeze x) fun P => List.forall_mem_nil P
  | makePrivate =>
    obtain ⟨a, rfl, hrun⟩ := toArr_bind_eq_ok h
    cases hrun
    exact hquiet (turns_of_written (writtenAs_makePrivate a) fun _ _ => everywhere_nil)
      fun P => List.forall_mem_nil P

end SharedArrays
