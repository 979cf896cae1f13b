import SharedArrays.Proofs.WellFormed.Amend
import SharedArrays.Call

/-!
# A loop leaves what the steps leave

A loop over the untagged elements of an array copies the buffer at most once, before it starts.
The steps of the same update decide at each write whether to copy. The two agree because after
the first write the window is where a copy would put it, so that no later write copies again in
a way that could be seen.

## Main definitions

* `Window.Ready` — making the window private changes nothing
* `Untagged` — a storage variant without tags
* `Untagged.Mirrors` — a step that does to tagged elements what a loop does to untagged ones

## Main results

* `runSteps_eq_updateEach` — steps that mirror a loop leave what the loop leaves
* `revise_eq_of_loop?` — a loop that applies leaves what the steps of the update leave
-/

namespace SharedArrays

/-! ## Windows that are private already -/

namespace Window

variable {α β : Type} {c : Scope} {w : Window α}

/-- Making the window private changes nothing. -/
def Ready (c : Scope) (w : Window α) : Prop := w.makePrivate c = w

theorem ready_makePrivate (c : Scope) (w : Window α) : (w.makePrivate c).Ready c := by
  unfold Ready
  by_cases hw : w.isPrivate c = true
  · have hpriv : w.makePrivate c = { w with flags := {} } := if_pos hw
    have hagain : ({ w with flags := {} } : Window α).isPrivate c = true := by
      simp only [isPrivate, Bool.and_eq_true] at hw ⊢
      exact ⟨rfl, hw.2⟩
    rw [hpriv]
    exact if_pos hagain
  · have hcopy : w.makePrivate c = ofList c.site w.items := if_neg hw
    rw [hcopy]
    unfold makePrivate
    split
    · rfl
    · rw [items_ofList]

/-- The contents of the buffer do not matter, as long as its length stays. -/
theorem Ready.setBuf (h : w.Ready c) {buf : List α} (hlen : buf.length = w.buf.length) :
    ({ w with buf := buf } : Window α).Ready c := by
  unfold Ready at h ⊢
  by_cases hw : w.isPrivate c = true
  · have hflags : w.flags = {} := by
      rw [← h]
      exact flags_makePrivate c w
    have hpriv : ({ w with buf := buf } : Window α).makePrivate c =
        { w with buf := buf, flags := {} } := if_pos hw
    rw [hpriv, ← hflags]
  · have hcopy : ofList c.site w.items = w := (if_neg hw).symm.trans h
    have hpriv : ({ w with buf := buf } : Window α).makePrivate c =
        ofList c.site (stretch w.off w.len buf) := if_neg hw
    -- The window is all of its buffer.
    have hoff : w.off = 0 := by rw [← hcopy]; rfl
    have hlen' : w.len = buf.length := by rw [hlen, ← hcopy]; rfl
    have hbuf : stretch w.off w.len buf = buf := by simp [stretch, hoff, hlen']
    rw [hpriv, hbuf]
    have hstorage : w.storage = c.site := by rw [← hcopy]; rfl
    have hflags : w.flags = {} := by rw [← hcopy]; rfl
    simp only [ofList, ← hlen', hoff, hstorage, hflags]

theorem Ready.write (h : w.Ready c) (i : Nat) (x : α) :
    w.write c i x = { w with buf := w.buf.set (w.off + i) x } := by
  unfold Window.write
  rw [h]

theorem write_makePrivate (c : Scope) (w : Window α) (i : Nat) (x : α) :
    (w.makePrivate c).write c i x = w.write c i x := by
  unfold Window.write
  rw [ready_makePrivate c w]

theorem getElem?_items {i : Nat} (hi : i < w.len) : w.items[i]? = w.buf[w.off + i]? := by
  simp [items, stretch, hi]

end Window

/-! ## Storage variants without tags -/

/-- A storage variant without tags: its arrays, and the values that it stores. -/
structure Untagged (β : Type) where
  wrap : Window β → Arr Value
  tag : β → Value
  values_wrap : ∀ w, (wrap w).values = w.items.map tag
  put_wrap : ∀ c w i x, (wrap w).put c i (tag x) = wrap (w.write c i x)
  canonical_wrap : ∀ c w, (wrap w).canonical c = wrap w

namespace Untagged

/-- Truth values, which are the integers 0 and 1. -/
def bools : Untagged Bool where
  wrap := .bools
  tag b := .int (if b then 1 else 0)
  values_wrap _ := rfl
  put_wrap c w i x := by cases x <;> rfl
  canonical_wrap _ _ := rfl

def ints : Untagged Int64 := ⟨.ints, .int, fun _ => rfl, fun _ _ _ _ => rfl, fun _ _ => rfl⟩

def floats : Untagged Double :=
  ⟨.floats, .float, fun _ => rfl, fun _ _ _ _ => rfl, fun _ _ => rfl⟩

def strs : Untagged String := ⟨.strs, .str, fun _ => rfl, fun _ _ _ _ => rfl, fun _ _ => rfl⟩

variable {β γ : Type} {t : Untagged β}

/-- The step does to a tagged element what `f` with the entry does to an untagged one. -/
def Mirrors (t : Untagged β) (f : β → γ → β) (s : Step) (e : Nat × γ) : Prop :=
  s.position = e.1 ∧ ∀ x, s.run (t.tag x) = .ok (t.tag (f x e.2))

end Untagged

theorem modify_eq_set_of_getElem? {α : Type} {xs : List α} {i : Nat} {x : α} {g : α → α}
    (h : xs[i]? = some x) : xs.modify i g = xs.set i (g x) := by
  have : Inhabited α := ⟨x⟩
  rw [List.modify_eq_set, h]
  rfl

section Mirrors

variable {β γ ε : Type} {t : Untagged β} {f : β → γ → β} {step : ε → Step}
  {entry : ε → Nat × γ} {es : List ε} {c : Scope}

theorem at?_wrap (t : Untagged β) (w : Window β) (i : Nat) :
    (t.wrap w).at? i = w.items[i]?.map t.tag := by
  rw [Arr.at?, t.values_wrap, List.getElem?_map]

/-- From a window that is ready on, each step writes in place, as the loop does. -/
theorem runSteps_of_ready {w : Window β} (hready : w.Ready c) (hw : w.InBounds)
    (hes : ∀ e ∈ es, t.Mirrors f (step e) (entry e)) (hlt : ∀ e ∈ es, (entry e).1 < w.len) :
    (t.wrap w).runSteps c (es.map step) = .done (t.wrap (w.updateEach c f (es.map entry))) := by
  induction es generalizing w with
  | nil =>
    have hnone : w.updateEach c f [] = w := hready
    rw [List.map_nil, List.map_nil, hnone]
    rfl
  | cons e es ih =>
    obtain ⟨⟨hpos, hrun⟩, hes⟩ := List.forall_mem_cons.1 hes
    obtain ⟨hi, hlt⟩ := List.forall_mem_cons.1 hlt
    obtain ⟨old, hold⟩ : ∃ old, w.buf[w.off + (entry e).1]? = some old := by
      have hbuf : w.off + (entry e).1 < w.buf.length := by
        unfold Window.InBounds at hw
        omega
      exact ⟨_, List.getElem?_eq_getElem hbuf⟩
    have hat : (t.wrap w).at? (step e).position = some (t.tag old) := by
      rw [at?_wrap, hpos, Window.getElem?_items hi, hold]
      rfl
    -- What the step writes is what the loop writes.
    let w' : Window β := { w with buf := w.buf.set (w.off + (entry e).1) (f old (entry e).2) }
    have hready' : w'.Ready c := hready.setBuf (by simp)
    have hput : (t.wrap w).put c (step e).position (t.tag (f old (entry e).2)) = t.wrap w' := by
      rw [t.put_wrap, hready.write, hpos]
    have hloop : w.updateEach c f ((e :: es).map entry) = w'.updateEach c f (es.map entry) := by
      have hmodify : w.buf.modify (w.off + (entry e).1) (f · (entry e).2) = w'.buf := by
        exact modify_eq_set_of_getElem? hold
      simp only [Window.updateEach, List.map_cons, List.foldl_cons]
      rw [hready, hready', hmodify]
    have hw' : w'.InBounds := by
      simpa [Window.InBounds, w'] using hw
    rw [hloop, ← ih hready' hw' hes hlt]
    simp only [List.map_cons, Arr.runSteps, hat, hrun, hput]

/-- The first write may copy the buffer, as the loop does before it starts. -/
theorem runSteps_makePrivate (t : Untagged β) {w : Window β} {s : Step} (rest : List Step)
    (hs : ∀ x, ∃ y, s.run (t.tag x) = .ok (t.tag y)) (hi : s.position < w.items.length) :
    (t.wrap (w.makePrivate c)).runSteps c (s :: rest) = (t.wrap w).runSteps c (s :: rest) := by
  obtain ⟨y, hy⟩ := hs w.items[s.position]
  have hat : (t.wrap w).at? s.position = some (t.tag w.items[s.position]) := by
    rw [at?_wrap, List.getElem?_eq_getElem hi]
    rfl
  have hat' : (t.wrap (w.makePrivate c)).at? s.position = some (t.tag w.items[s.position]) := by
    rw [← hat, at?_wrap, at?_wrap, Window.items_makePrivate]
  simp only [Arr.runSteps, hat, hat', hy, t.put_wrap, Window.write_makePrivate]

/-- Steps that mirror a loop leave what the loop leaves. -/
theorem runSteps_eq_updateEach {w : Window β} (hw : w.InBounds) (hne : es ≠ [])
    (hes : ∀ e ∈ es, t.Mirrors f (step e) (entry e)) (hlt : ∀ e ∈ es, (entry e).1 < w.len) :
    (t.wrap w).runSteps c (es.map step) = .done (t.wrap (w.updateEach c f (es.map entry))) := by
  have hready := Window.ready_makePrivate c w
  have hlen := hw.len_makePrivate c
  have hloop : (w.makePrivate c).updateEach c f (es.map entry) =
      w.updateEach c f (es.map entry) := by
    simp only [Window.updateEach]
    rw [hready]
  obtain ⟨e, rest, rfl⟩ := List.exists_cons_of_ne_nil hne
  have hfirst : (step e).position < w.items.length := by
    obtain ⟨hpos, -⟩ := hes e (by simp)
    have := hlt e (by simp)
    rw [hw.length_items]
    omega
  have hrun : ∀ x, ∃ y, (step e).run (t.tag x) = .ok (t.tag y) := fun x =>
    ⟨_, (hes e (by simp)).2 x⟩
  rw [List.map_cons, ← runSteps_makePrivate t _ hrun hfirst, ← List.map_cons, ← hloop]
  exact runSteps_of_ready hready (hw.makePrivate c) hes (by rwa [hlen])

theorem revise_eq_updateEach {w : Window β} (hw : w.InBounds) (hne : es ≠ [])
    (hes : ∀ e ∈ es, t.Mirrors f (step e) (entry e)) (hlt : ∀ e ∈ es, (entry e).1 < w.len) :
    (t.wrap w).revise c (es.map step) = .done (t.wrap (w.updateEach c f (es.map entry))) := by
  rw [Arr.revise, runSteps_eq_updateEach hw hne hes hlt]
  simp only [Outcome.map, Outcome.done, t.canonical_wrap]

end Mirrors

/-! ## Right operands without tags -/

/-- The operands reach for `n` positions. -/
def Operands.Covers (n : Nat) : Operands → Prop
  | each a => WellFormed a ∧ a.len = n
  | _ => True

theorem covers_forMany {n : Nat} {z : Option Value} {operands : Operands} (hz : WellFormed z)
    (h : Operands.forMany n z = .ok operands) : operands.Covers n := by
  unfold Operands.forMany at h
  split at h
  · cases h
    trivial
  · split at h
    · cases h
      exact ⟨(everywhere_array _).1 hz, ‹_›⟩
    · cases h
  · cases h
    trivial

theorem covers_ofSelection {z : Option Value} {sel : Selection} {operands : Operands}
    (hz : WellFormed z) (h : Operands.ofSelection z sel = .ok operands) :
    operands.Covers sel.positions.length := by
  cases sel with
  | one i =>
    cases h
    cases z <;> trivial
  | many ps => exact covers_forMany hz h

/-- The operands are those of `xs`, one for each of `n` positions. -/
def Operands.Lists {β : Type} [Inhabited β] (t : Untagged β) (n : Nat) (z : Operands)
    (xs : List β) : Prop :=
  xs.length = n ∧ ∀ k < n, z.at? k = some (t.tag (xs[k]?.getD default))

section Lists

variable {n : Nat} {z : Operands}

theorem lists_whole {β : Type} [Inhabited β] (t : Untagged β) (n : Nat) (x : β) :
    (Operands.whole (t.tag x)).Lists t n (List.replicate n x) := by
  refine ⟨List.length_replicate .., fun k hk => ?_⟩
  rw [List.getElem?_replicate, if_pos hk]
  rfl

theorem lists_each {β : Type} [Inhabited β] {t : Untagged β} {w : Window β} (hw : w.InBounds)
    (hn : w.len = n) : (Operands.each (t.wrap w)).Lists t n w.items := by
  have hlen : w.items.length = n := hw.length_items.trans hn
  refine ⟨hlen, fun k hk => ?_⟩
  have hk' : k < w.items.length := hlen ▸ hk
  rw [Operands.at?, at?_wrap, List.getElem?_eq_getElem hk']
  rfl

theorem lists_ints? {ns : List Int64} (hz : z.Covers n) (h : z.ints? n = some ns) :
    z.Lists .ints n ns := by
  unfold Operands.ints? at h
  split at h <;> cases h
  · exact lists_whole .ints n _
  · exact lists_each (t := .ints) hz.1.inBounds hz.2

theorem lists_floats? {xs : List Double} (hz : z.Covers n) (h : z.floats? n = some xs) :
    z.Lists .floats n xs := by
  unfold Operands.floats? at h
  split at h <;> cases h
  · exact lists_whole .floats n _
  · exact lists_each (t := .floats) hz.1.inBounds hz.2

theorem lists_strs? {ss : List String} (hz : z.Covers n) (h : z.strs? n = some ss) :
    z.Lists .strs n ss := by
  unfold Operands.strs? at h
  split at h <;> cases h
  · exact lists_whole .strs n _
  · exact lists_each (t := .strs) hz.1.inBounds hz.2

end Lists

/-! ## The loops of the operators -/

theorem zip_eq_map_zipIdx {α β : Type} [Inhabited β] {xs : List α} {ys : List β}
    (h : ys.length = xs.length) :
    xs.zip ys = xs.zipIdx.map fun (x, k) => (x, ys[k]?.getD default) := by
  apply List.ext_getElem
  · simp [h]
  · intro k hk hk'
    have hy : k < ys.length := by
      rw [List.length_zip] at hk
      omega
    simp [hy]

section Operators

variable {settings : Settings} {b : Builtin} {f : Callee} {c c₀ : Scope} {β γ : Type}
  {t : Untagged β} {w : Window β} {sel : Selection}

/-- The callee calls the operator `b`. -/
def Callee.Calls (settings : Settings) (f : Callee) (b : Builtin) : Prop :=
  ∀ s args, f.call s args = (Value.builtin b).apply settings s args

theorem revise_loopOne (hf : f.Calls settings b) (hw : w.InBounds)
    (hne : sel.positions ≠ []) (hlt : ∀ i ∈ sel.positions, i < w.len) (op : β → β)
    (hop : ∀ s x, (Value.builtin b).apply settings s [t.tag x] = .ok (t.tag (op x))) :
    (t.wrap w).revise c (Arr.steps c₀ f .absent sel) =
      .done (t.wrap (w.updateEach c (fun x _ => op x) (sel.positions.map (·, ())))) := by
  have hentries : sel.positions.map (·, ()) = sel.positions.zipIdx.map fun e => (e.1, ()) := by
    calc sel.positions.map (·, ())
        = (sel.positions.zipIdx.map Prod.fst).map (·, ()) := by rw [List.zipIdx_map_fst]
      _ = sel.positions.zipIdx.map fun e => (e.1, ()) := List.map_map ..
  rw [hentries]
  apply revise_eq_updateEach hw (by simpa using hne)
  · intro e _
    exact ⟨rfl, fun x => (hf _ _).trans (hop _ x)⟩
  · intro e he
    exact hlt _ (List.fst_mem_of_mem_zipIdx he)

theorem revise_loopTwo [Inhabited γ] {u : Untagged γ} {xs : List γ} {z : Operands}
    (hf : f.Calls settings b) (hw : w.InBounds) (hne : sel.positions ≠ [])
    (hlt : ∀ i ∈ sel.positions, i < w.len) (hz : z.Lists u sel.positions.length xs)
    (op : β → γ → β) (hop : ∀ s x, ∀ y ∈ xs,
      (Value.builtin b).apply settings s [t.tag x, u.tag y] = .ok (t.tag (op x y))) :
    (t.wrap w).revise c (Arr.steps c₀ f z sel) =
      .done (t.wrap (w.updateEach c op (sel.positions.zip xs))) := by
  obtain ⟨hlen, hat⟩ := hz
  rw [zip_eq_map_zipIdx hlen]
  apply revise_eq_updateEach hw (by simpa using hne)
  · rintro ⟨i, k⟩ he
    have hk : k < sel.positions.length := by simpa using List.snd_lt_of_mem_zipIdx he
    have hmem : xs[k]?.getD default ∈ xs := by
      rw [List.getElem?_eq_getElem (hlen ▸ hk)]
      exact List.getElem_mem _
    refine ⟨rfl, fun x => ?_⟩
    -- The step finds the operand that the loop took from the list.
    simp only [hat k hk, Option.toList_some]
    exact (hf _ _).trans (hop _ x _ hmem)
  · intro e he
    exact hlt _ (List.fst_mem_of_mem_zipIdx he)

end Operators

/-- What an integer loop computes is what the operator answers. -/
theorem apply_of_intLoop? {settings : Settings} {b : Builtin} {op : Int64 → Int64 → Int64}
    (h : b.intLoop? = some op) (s : Site) (m n : Int64) :
    (Value.builtin b).apply settings s [.int m, .int n] = .ok (.int (op m n)) := by
  cases b <;> cases h <;> rfl

/-- What a float loop computes is what the operator answers. -/
theorem apply_of_floatLoop? {settings : Settings} {b : Builtin} {op : Double → Double → Double}
    (h : b.floatLoop? = some op) (s : Site) (x y : Double) :
    (Value.builtin b).apply settings s [.float x, .float y] = .ok (.float (op x y)) := by
  cases b <;> cases h <;> rfl

/-- An integer on the right of a float counts as a float, in the loop and in the operator. -/
theorem apply_of_floatLoop?_int {settings : Settings} {b : Builtin}
    {op : Double → Double → Double} (h : b.floatLoop? = some op) (s : Site) (x : Double)
    (n : Int64) : (Value.builtin b).apply settings s [.float x, .int n] =
      .ok (.float (op x (.ofInt n))) := by
  cases b <;> cases h <;> rfl

section Revise

variable {settings : Settings} {b : Builtin} {f : Callee} {c c₀ : Scope} {a e : Arr Value}
  {sel : Selection}

theorem revise_eq_of_loopOne? (hf : f.Calls settings b) (ha : WellFormed a)
    (hne : sel.positions ≠ []) (hlt : ∀ i ∈ sel.positions, i < a.len)
    (h : a.loopOne? c b sel.positions = some e) :
    a.revise c (Arr.steps c₀ f .absent sel) = .done e := by
  have hb := ha.inBounds
  cases a with
  | bools w =>
    cases b <;> cases h
    exact revise_loopOne (t := .bools) hf hb hne hlt (fun x => !x) fun s x => by cases x <;> rfl
  | ints w =>
    cases b <;> cases h
    · exact revise_loopOne (t := .ints) hf hb hne hlt (fun n => -n) fun _ _ => rfl
    · exact revise_loopOne (t := .ints) hf hb hne hlt (fun n => if n == 0 then 1 else 0)
        fun _ _ => rfl
  | floats w =>
    cases b <;> cases h
    exact revise_loopOne (t := .floats) hf hb hne hlt (fun x => -x) fun _ _ => rfl
  | strs w => cases h
  | list w => cases h

theorem revise_eq_of_loopTwo? {z : Operands} (hf : f.Calls settings b) (ha : WellFormed a)
    (hne : sel.positions ≠ []) (hlt : ∀ i ∈ sel.positions, i < a.len)
    (hz : z.Covers sel.positions.length) (h : a.loopTwo? c b sel.positions z = some e) :
    a.revise c (Arr.steps c₀ f z sel) = .done e := by
  have hb := ha.inBounds
  cases a with
  | bools w =>
    simp only [Arr.loopTwo?] at h
    split at h
    · rename_i hright
      subst hright
      obtain ⟨ns, hns, h⟩ := Option.bind_eq_some_iff.1 h
      split at h
      · rename_i htruth
        cases h
        refine revise_loopTwo (t := .bools) hf hb hne hlt (lists_ints? hz hns)
          (fun _ n => n == 1) fun s x n hn => ?_
        -- A truth value reads back as the integer that was written.
        have hn01 : n = 0 ∨ n = 1 := by simpa using List.all_eq_true.1 htruth n hn
        rcases hn01 with rfl | rfl <;> rfl
      · cases h
    · cases h
  | ints w =>
    obtain ⟨op, hop, h⟩ := Option.bind_eq_some_iff.1 h
    obtain ⟨ns, hns, h⟩ := Option.bind_eq_some_iff.1 h
    cases h
    exact revise_loopTwo (t := .ints) hf hb hne hlt (lists_ints? hz hns) op
      fun s m n _ => apply_of_intLoop? hop s m n
  | floats w =>
    simp only [Arr.loopTwo?] at h
    split at h
    · rename_i hright
      subst hright
      obtain ⟨xs, hxs, h⟩ := Option.bind_eq_some_iff.1 h
      cases h
      exact revise_loopTwo (t := .floats) hf hb hne hlt (lists_floats? hz hxs)
        (fun _ x => x) fun _ _ _ _ => rfl
    · obtain ⟨op, hop, h⟩ := Option.bind_eq_some_iff.1 h
      split at h
      · rename_i xs _ hxs
        cases h
        exact revise_loopTwo (t := .floats) hf hb hne hlt (lists_floats? hz hxs) op
          fun s x y _ => apply_of_floatLoop? hop s x y
      · rename_i ns _ hns
        cases h
        exact revise_loopTwo (t := .floats) hf hb hne hlt (lists_ints? hz hns)
          (fun x n => op x (.ofInt n)) fun s x n _ => apply_of_floatLoop?_int hop s x n
      · cases h
  | strs w =>
    simp only [Arr.loopTwo?] at h
    split at h
    · rename_i hright
      subst hright
      obtain ⟨ss, hss, h⟩ := Option.bind_eq_some_iff.1 h
      cases h
      exact revise_loopTwo (t := .strs) hf hb hne hlt (lists_strs? hz hss) (fun _ s => s)
        fun _ _ _ _ => rfl
    · cases h
  | list w => cases h

/-- A loop that applies leaves what the steps of the update leave, and no step fails. -/
theorem revise_eq_of_loop? {z : Operands}
    (hf : ∀ s args, f.call s args = f.value.apply settings s args)
    (ha : WellFormed a) (hlt : ∀ i ∈ sel.positions, i < a.len)
    (hz : z.Covers sel.positions.length) (h : a.loop? c f.value sel.positions z = some e) :
    a.revise c (Arr.steps c₀ f z sel) = .done e := by
  unfold Arr.loop? at h
  split at h
  · rename_i b hb
    have hcalls : f.Calls settings b := fun s args => by rw [hf, hb]
    split at h
    · cases h
    · rename_i hempty
      have hne : sel.positions ≠ [] := by simpa using hempty
      split at h
      · exact revise_eq_of_loopOne? hcalls ha hne hlt h
      · exact revise_eq_of_loopTwo? hcalls ha hne hlt hz h
  · cases h

end Revise

end SharedArrays
