import SharedArrays.Proofs.Closed.Calls
import SharedArrays.Proofs.Session

/-!
# Properties that commands keep

A session keeps a property of handles that calls keep and that reading and writing arrays and
dictionaries keeps too. What a production answers has the property if its operands have it, and so
have what a change leaves in its register and what it answers, whether it goes through or fails.

## Main definitions

* `ClosedUnderCommands` — what commands make has a property that their operands have

## Main results

* `ClosedUnderCommands.production`, `ClosedUnderCommands.change`, `ClosedUnderCommands.answer` —
  the commands
-/

namespace SharedArrays

variable {P : Value → Prop} {settings : Settings} {c : Scope}

/-! ## Reading -/

theorem everywhere_get {a : Arr Value} (ha : Everywhere P a) (i : Int64) :
    Everywhere P (a.get i) := by
  unfold Arr.get
  split
  · rename_i v hv
    split at hv
    · exact everywhere_of_at? ha hv
    · cases hv
  · exact everywhere_error_of_cause rfl

theorem everywhere_get? {d : Dict Value} (hvals : Everywhere P d.vals) (k : Value) :
    Everywhere P (d.get? k) := by
  unfold Dict.get?
  cases d.find? k with
  | none => exact everywhere_none
  | some i => exact everywhere_at? hvals i

/-- What matters of a slice are its handles, as the failure holds none. -/
theorem everywhere_slice {a : Arr Value} {i j : Nat}
    (h : ∀ {b}, a.slice i j = .ok b → Everywhere P b) : Everywhere P (a.slice i j) := by
  cases hs : a.slice i j with
  | ok b => exact h hs
  | error e =>
    unfold Arr.slice at hs
    split at hs
    · cases hs
      exact everywhere_error_of_cause rfl
    split at hs <;> cases hs
    exact everywhere_error_of_cause rfl

/-- Answers that hold no value have every property. -/
theorem everywhere_atomic {answer : Answer} (h : allNodes answer = []) :
    Everywhere P (.ok answer : Result Answer) := by
  show ∀ u ∈ allNodes answer, P u
  rw [h]
  exact List.forall_mem_nil _

/-! ## Closed properties -/

/-- What commands make has a property that their operands have. Flags that are set by hand are left
out, since what they say is up to the one who sets them. -/
structure ClosedUnderCommands (settings : Settings) (P : Value → Prop) : Prop
    extends ClosedUnderCalls settings P where
  til (s : Site) (n : Nat) : Everywhere P (Arr.til s n)
  slice {i j : Nat} {a b : Arr Value} : Everywhere P a → a.slice i j = .ok b → Everywhere P b
  copy (s : Site) {a : Arr Value} : Everywhere P a → Everywhere P (a.copy s)
  canonical (c : Scope) {a : Arr Value} : Everywhere P a → Everywhere P (a.canonical c)
  makePrivate (c : Scope) {a : Arr Value} : Everywhere P a → Everywhere P (a.makePrivate c)
  freeze (c : Scope) {v : Value} : Everywhere P v → Everywhere P (v.freeze c)
  pin {a : Arr Value} : Everywhere P a → Everywhere P a.pin
  asList (s : Site) {a : Arr Value} : Everywhere P a → Everywhere P (a.asList s)
  put (c : Scope) (i : Nat) {a : Arr Value} {v : Value} :
    Everywhere P a → Everywhere P v → Everywhere P (a.put c i v)
  push (c : Scope) {a : Arr Value} {v : Value} :
    Everywhere P a → Everywhere P v → Everywhere P (a.push c v)
  extend (c : Scope) {a b : Arr Value} :
    Everywhere P a → Everywhere P b → Everywhere P (a.extend? c b)
  named (s : Site) {t : Site} {d : Dict Value} :
    Everywhere P (.dict t d : Value) → Everywhere P (.dict s d : Value)
  ofArrays (s : Site) {keys vals : Arr Value} : Everywhere P keys → Everywhere P vals →
    Everywhere P ((Dict.ofArrays? keys vals).map (Value.dict s))
  merge (c : Scope) (s : Site) {t u : Site} {l r : Dict Value} {f : Value} :
    Everywhere P (.dict t l : Value) → Everywhere P (.dict u r : Value) → Everywhere P f →
      Everywhere P ((l.merge settings c r f).map (Value.dict s))
  appendKey (c : Scope) (s : Site) {d : Dict Value} {k : Value} :
    Everywhere P (.dict s d : Value) → Everywhere P k →
      Everywhere P (.dict s (d.appendKey c k) : Value)
  appendEntries (s t : Site) {d : Dict Value} {keys vals : Arr Value} :
    Everywhere P (.dict t d : Value) → Everywhere P keys → Everywhere P vals →
      Everywhere P ((d.append? s keys vals).map (Value.dict t))

namespace ClosedUnderCommands

variable (hP : ClosedUnderCommands settings P)
include hP

theorem production {p : Production Value} {r : Result Value} (hp : Everywhere P p)
    (h : p.run settings c = .ok r) : Everywhere P r := by
  have hp : Everywhere P p.operands := hp
  cases p with
  | value x =>
    cases h
    exact everywhere_singleton.1 hp
  | amend form x y f z =>
    cases h
    simp only [Production.operands, everywhere_cons] at hp
    exact hP.amended hp.1 hp.2.1 hp.2.2.1 (everywhere_toList.1 hp.2.2.2)
  | apply f args =>
    cases h
    obtain ⟨hf, hargs⟩ := (everywhere_cons ..).1 hp
    have hcallee : (Callee.ofValue settings f).Maintains P := hP.ofValue hf
    exact hcallee c.site args hargs
  | callAmend verb args =>
    cases h
    exact hP.callAmend hp
  | merge left right f =>
    -- Operands of another form are refused, and the command gives no answer.
    obtain ⟨s, l, rfl, hrun⟩ := toDict_bind_eq_ok h
    obtain ⟨t, r, rfl, hrun⟩ := toDict_bind_eq_ok hrun
    cases hrun
    simp only [Production.operands, everywhere_cons] at hp
    exact hP.merge _ c.site hp.1 hp.2.1 hp.2.2.1
  | monadic b x =>
    cases h
    exact hP.monadic b c.site (everywhere_singleton.1 hp)
  | dyadic b x y =>
    cases h
    obtain ⟨hx, hy⟩ := (everywhere_cons ..).1 hp
    exact hP.dyadic b c.site hx (everywhere_singleton.1 hy)
  | list items =>
    cases h
    exact (everywhere_array _).2 (hP.ofValues c.site hp)
  | dict keys vals =>
    cases h
    obtain ⟨hk, hv⟩ := (everywhere_cons ..).1 hp
    split
    · exact hP.ofArrays c.site ((everywhere_array _).1 hk) (everywhere_singleton.1 hv)
    · exact everywhere_error_of_cause rfl
    · exact everywhere_error_of_cause rfl
  | canonical x =>
    cases h
    have hx : Everywhere P x := everywhere_singleton.1 hp
    cases x with
    | array a => exact (everywhere_array _).2 (hP.canonical c ((everywhere_array a).1 hx))
    | _ => exact hx
  | til n =>
    cases h
    exact (everywhere_array _).2 (hP.til c.site n)
  | empty kind =>
    cases h
    exact (everywhere_array _).2 (hP.empty c.site kind)
  | emptyDict =>
    cases h
    exact hP.emptyDict c.site
  | get x i =>
    obtain ⟨a, rfl, hrun⟩ := toArr_bind_eq_ok h
    cases hrun
    exact everywhere_get (everywhere_singleton.1 hp) i
  | slice x i j =>
    obtain ⟨a, rfl, hrun⟩ := toArr_bind_eq_ok h
    cases hrun
    exact everywhere_mapArray.2 (everywhere_slice (hP.slice (everywhere_singleton.1 hp)))
  | select x ps =>
    obtain ⟨a, rfl, hrun⟩ := toArr_bind_eq_ok h
    cases hrun
    exact everywhere_mapArray.2 (hP.select c.site ps (everywhere_singleton.1 hp))
  | concat x y =>
    obtain ⟨a, rfl, hrun⟩ := toArr_bind_eq_ok h
    obtain ⟨b, rfl, hrun⟩ := toArr_bind_eq_ok hrun
    cases hrun
    obtain ⟨ha, hb⟩ := (everywhere_cons ..).1 hp
    exact (everywhere_array _).2 (hP.concat c.site ha (everywhere_singleton.1 hb))
  | padding x =>
    obtain ⟨a, rfl, hrun⟩ := toArr_bind_eq_ok h
    cases hrun
    exact hP.padding c.site a
  | copy x =>
    obtain ⟨a, rfl, hrun⟩ := toArr_bind_eq_ok h
    cases hrun
    exact (everywhere_array _).2 (hP.copy c.site (everywhere_singleton.1 hp))
  | reuse x =>
    obtain ⟨a, rfl, hrun⟩ := toArr_bind_eq_ok h
    cases hrun
    exact (everywhere_array _).2 (hP.makePrivate c (everywhere_singleton.1 hp))
  | adopt container v =>
    obtain ⟨a, rfl, hrun⟩ := toArr_bind_eq_ok h
    cases hrun
    have hv : Everywhere P v := everywhere_singleton.1 ((everywhere_cons ..).1 hp).2
    unfold Arr.adopt
    split
    · exact hP.freeze _ hv
    · exact hv

/-- What a change leaves in the register and what it answers: nothing, the value that it refused, or
the failure that ended it. -/
theorem change {change : Change Value} (hchange : Everywhere P change)
    (hflags : ∀ flags (a : Arr Value), change = .setFlags flags → Everywhere P a →
      Everywhere P (a.setFlags flags))
    {x x' : Value} {answer : Result Answer} (hx : Everywhere P x)
    (h : change.run settings c x = .ok (x', answer)) : Everywhere P x' ∧ Everywhere P answer := by
  have hops : Everywhere P change.operands := hchange
  have hnothing : Everywhere P (.ok .nothing : Result Answer) := everywhere_atomic rfl
  cases change with
  | amend form y f z =>
    cases h
    simp only [Change.operands, everywhere_cons] at hops
    have hslot : Everywhere P (x.amendSlot settings form c y f z) :=
      hP.amendSlot hx hops.1 hops.2.1 (everywhere_toList.1 hops.2.2)
    refine ⟨(everywhere_outcome.1 hslot).1, ?_⟩
    have hresult := everywhere_toResult hslot
    generalize (x.amendSlot settings form c y f z).toResult = r at hresult ⊢
    cases r with
    | ok v => exact hnothing
    | error e => exact hresult
  | setAt i v =>
    obtain ⟨a, rfl, hrun⟩ := toArr_bind_eq_ok h
    have hv : Everywhere P v := everywhere_singleton.1 hops
    split at hrun
    · rename_i b hb
      cases hrun
      have hput : a.put c i v = b := by rw [Arr.put, hb]
      exact ⟨(everywhere_array b).2 (hput ▸ hP.put c i hx hv), hnothing⟩
    · rename_i w hw
      cases hrun
      -- What the array does not take comes back as the answer.
      have hwv : w = v := Arr.eq_of_store_error hw
      exact ⟨hx, hwv ▸ hv⟩
  | put i v =>
    obtain ⟨a, rfl, hrun⟩ := toArr_bind_eq_ok h
    cases hrun
    exact ⟨(everywhere_array _).2 (hP.put c i hx (everywhere_singleton.1 hops)), hnothing⟩
  | push v =>
    obtain ⟨a, rfl, hrun⟩ := toArr_bind_eq_ok h
    cases hrun
    exact ⟨(everywhere_array _).2 (hP.push c hx (everywhere_singleton.1 hops)), hnothing⟩
  | extend w =>
    obtain ⟨a, rfl, hrun⟩ := toArr_bind_eq_ok h
    obtain ⟨b, rfl, hextend⟩ := toArr_bind_eq_ok hrun
    have hboth : Everywhere P (a.extend? c b) := hP.extend c hx (everywhere_singleton.1 hops)
    split at hextend
    · rename_i e he
      cases hextend
      rw [he] at hboth
      exact ⟨(everywhere_array e).2 hboth, hnothing⟩
    · cases hextend
  | asList =>
    obtain ⟨a, rfl, hrun⟩ := toArr_bind_eq_ok h
    cases hrun
    exact ⟨(everywhere_array _).2 (hP.asList c.site hx), hnothing⟩
  | appendKey k =>
    cases x with
    | dict s d =>
      cases h
      -- A dictionary that is shared takes a new site before the key is appended.
      have hd : Everywhere P (.dict (c.own s) d : Value) := hP.named _ hx
      exact ⟨hP.appendKey _ _ hd (everywhere_singleton.1 hops), everywhere_atomic rfl⟩
    | _ => cases h
  | appendEntries keys vals =>
    cases x with
    | dict s d =>
      obtain ⟨k, rfl, hrun⟩ := toArr_bind_eq_ok h
      obtain ⟨v, rfl, hentries⟩ := toArr_bind_eq_ok hrun
      obtain ⟨hk, hv⟩ := (everywhere_cons ..).1 hops
      have hd : Everywhere P (.dict (c.own s) d : Value) := hP.named _ hx
      have happend := hP.appendEntries (c.site.sub 0) (c.own s) hd ((everywhere_array k).1 hk)
        ((everywhere_array v).1 (everywhere_singleton.1 hv))
      split at hentries
      · rename_i e he
        cases hentries
        rw [he] at happend
        exact ⟨happend, hnothing⟩
      · rename_i e he
        cases hentries
        rw [he] at happend
        exact ⟨hd, happend⟩
    | _ => cases h
  | setFlags flags =>
    obtain ⟨a, rfl, hrun⟩ := toArr_bind_eq_ok h
    cases hrun
    exact ⟨(everywhere_array _).2 (hflags flags a rfl hx), hnothing⟩
  | pin =>
    obtain ⟨a, rfl, hrun⟩ := toArr_bind_eq_ok h
    cases hrun
    exact ⟨(everywhere_array _).2 (hP.pin hx), hnothing⟩
  | freeze =>
    cases h
    exact ⟨hP.freeze c hx, hnothing⟩
  | makePrivate =>
    obtain ⟨a, rfl, hrun⟩ := toArr_bind_eq_ok h
    cases hrun
    exact ⟨(everywhere_array _).2 (hP.makePrivate c hx), everywhere_atomic rfl⟩

theorem answer {q : Question Value} (hq : Everywhere P q) {registers : Registers} {s : Site}
    {answer : Result Answer} (h : q.answer registers s = .ok answer) : Everywhere P answer := by
  have hops : Everywhere P q.operands := hq
  cases q with
  | «at» x i =>
    obtain ⟨a, rfl, hrun⟩ := toArr_bind_eq_ok h
    cases hrun
    exact everywhere_at? (everywhere_singleton.1 hops) i
  | find x v | canStore x v =>
    obtain ⟨a, rfl, hrun⟩ := toArr_bind_eq_ok h
    cases hrun
    exact everywhere_atomic rfl
  | lookup d k =>
    obtain ⟨t, d, rfl, hrun⟩ := toDict_bind_eq_ok h
    cases hrun
    obtain ⟨-, -, hvals⟩ := (everywhere_dict ..).1 ((everywhere_cons ..).1 hops).1
    exact everywhere_get? hvals k
  | positions d keys threshold =>
    obtain ⟨t, d, rfl, hrun⟩ := toDict_bind_eq_ok h
    obtain ⟨a, rfl, hrun⟩ := toArr_bind_eq_ok hrun
    cases hrun
    exact everywhere_atomic rfl
  | describe x =>
    cases h
    exact List.forall_mem_append.2 ⟨everywhere_singleton.1 hops, hP.neutral s x⟩
  | failure e =>
    cases h
    -- A failure refers to no value but the one that was raised.
    have he : Everywhere P e := by
      obtain ⟨cause, op, hint⟩ := e
      cases cause with
      | raised v => exact everywhere_singleton.1 hops
      | _ => exact everywhere_failure rfl
    exact List.forall_mem_append.2 ⟨he, hP.ofFailure he⟩
  | arity name args lo hi =>
    cases h
    unfold Failure.ensureArity
    split
    · exact everywhere_error_of_cause rfl
    · exact everywhere_atomic rfl
  | ownership l =>
    obtain ⟨v, -, hrun⟩ := refusal_bind_eq_ok h
    cases hrun
    exact everywhere_atomic rfl
  | sameness l m =>
    obtain ⟨v, -, hrun⟩ := refusal_bind_eq_ok h
    obtain ⟨a, -, hrun⟩ := refusal_bind_eq_ok hrun
    obtain ⟨w, -, hrun⟩ := refusal_bind_eq_ok hrun
    obtain ⟨b, -, hrun⟩ := refusal_bind_eq_ok hrun
    cases hrun
    exact everywhere_atomic rfl
  | display x | equal x y | symbol t | amendText verb f dyadic
  | settings t p i defaults loops limit threshold =>
    cases h
    exact everywhere_atomic rfl

end ClosedUnderCommands

end SharedArrays
