import SharedArrays.Proofs.Canonical.Lossless

/-!
# Joining arrays

Arrays that are joined show their elements in a row. In which variant they are stored is a matter of
three rules: arrays of one untagged variant keep it, an array without elements gives way to the
other one, whatever that is stored as, and everything else goes to canonical storage. Three arrays
can be joined in two orders, and the orders need not meet the same rules on their way. Truth values
joined to truth values are still truth values when the integers come; joined to the integers first,
they are integers at once.

The rules are one rule in disguise. Where both sides have elements, the elements decide, except that
truth values among themselves stay truth values: arrays of any other untagged variant keep it
because their elements ask for it. So the variant of a join can be told from the variants and the
elements of its sides, and the law is one about these.

## Main definitions

* `joinedKind` — the variant of a join, from the variants and the elements of its sides

## Main results

* `kind_concat` — how a join is stored
* `joinedKind_assoc` — the order of joins does not matter to it
* `canonical_ofValues` — what goes to canonical storage has arrived there
* `concat_associative` — joining arrays is associative, in elements and in variant
-/

namespace SharedArrays

/-! ## Variants and elements -/

/-- The variant in which the elements `us` of an array of variant `j` are stored with the elements
`vs` of an array of variant `k` behind them. -/
def joinedKind (j : Kind) (us : List Value) (k : Kind) (vs : List Value) : Kind :=
  if vs = [] then j
  else if us = [] then k
  else if j = .bools ∧ k = .bools then .bools
  else tightKind (us ++ vs)

section JoinedKind

variable {i j k : Kind} {us vs ws : List Value}

@[simp] theorem joinedKind_nil_right (j k : Kind) (us : List Value) :
    joinedKind j us k [] = j := rfl

theorem joinedKind_nil_left (j k : Kind) (hvs : vs ≠ []) : joinedKind j [] k vs = k := by
  rw [joinedKind, if_neg hvs, if_pos rfl]

theorem joinedKind_of_ne_nil (j k : Kind) (hus : us ≠ []) (hvs : vs ≠ []) :
    joinedKind j us k vs = if j = .bools ∧ k = .bools then .bools else tightKind (us ++ vs) := by
  rw [joinedKind, if_neg hvs, if_neg hus]

/-- Where both sides have elements, only truth values make truth values. -/
theorem joinedKind_eq_bools_iff (hus : us ≠ []) (hvs : vs ≠ []) :
    joinedKind j us k vs = .bools ↔ j = .bools ∧ k = .bools := by
  rw [joinedKind_of_ne_nil j k hus hvs]
  split
  · rename_i hbools
    exact iff_of_true rfl hbools
  · rename_i hbools
    exact iff_of_false (tightKind_ne_bools _) hbools

/-- The order of joins does not matter to how the result is stored. -/
theorem joinedKind_assoc (i j k : Kind) (us vs ws : List Value) :
    joinedKind (joinedKind i us j vs) (us ++ vs) k ws =
      joinedKind i us (joinedKind j vs k ws) (vs ++ ws) := by
  by_cases hws : ws = []
  · simp [hws]
  by_cases hvs : vs = []
  · simp [hvs, joinedKind_nil_left _ _ hws]
  have hvsws : vs ++ ws ≠ [] := List.append_ne_nil_of_left_ne_nil hvs ws
  by_cases hus : us = []
  · simp [hus, joinedKind_nil_left _ _ hvs, joinedKind_nil_left _ _ hvsws]
  have husvs : us ++ vs ≠ [] := List.append_ne_nil_of_left_ne_nil hus vs
  -- All three sides have elements: in both orders these decide, unless all are truth values.
  rw [joinedKind_of_ne_nil _ _ husvs hws, joinedKind_of_ne_nil _ _ hus hvsws, List.append_assoc]
  simp only [joinedKind_eq_bools_iff hus hvs, joinedKind_eq_bools_iff hvs hws, and_assoc]

end JoinedKind

/-! ## Joins -/

section Joins

variable {a b : Arr Value} {s : Site}

/-- The elements of an array without tags ask for its variant, if they are not truth values. -/
theorem atomKind_of_mem_values (hlist : a.kind ≠ .list) (hbools : a.kind ≠ .bools) {v : Value}
    (hv : v ∈ a.values) : v.atomKind = a.kind := by
  cases a with
  | bools w => exact absurd rfl hbools
  | list w => exact absurd rfl hlist
  | _ w =>
    obtain ⟨x, -, rfl⟩ := List.mem_map.1 hv
    rfl

/-- Two arrays of one untagged variant keep it, and their elements would have asked for it. -/
theorem joinedKind_self (ha : a.kind ≠ .list) (hab : a.kind = b.kind) :
    joinedKind a.kind a.values b.kind b.values = a.kind := by
  by_cases hb : b.values = []
  · rw [hb, joinedKind_nil_right]
  by_cases hanil : a.values = []
  · rw [hanil, joinedKind_nil_left _ _ hb, hab]
  rw [joinedKind_of_ne_nil _ _ hanil hb]
  split
  · rename_i hbools
    exact hbools.1.symm
  · rename_i hbools
    have hbools : a.kind ≠ .bools := fun h => hbools ⟨h, hab.symm.trans h⟩
    refine tightKind_of_forall (List.append_ne_nil_of_left_ne_nil hanil _) fun v hv => ?_
    rcases List.mem_append.1 hv with hv | hv
    · exact atomKind_of_mem_values ha hbools hv
    · rw [hab] at ha hbools ⊢
      exact atomKind_of_mem_values ha hbools hv

theorem values_ne_nil (ha : a.InBounds) (h : a.len ≠ 0) : a.values ≠ [] := by
  intro hnil
  rw [← Arr.length_values ha, hnil] at h
  exact h rfl

theorem kind_concat_of_kind_eq (ha : a.kind ≠ .list) (hab : a.kind = b.kind) :
    (a.concat s b).kind = a.kind := by
  cases a <;> cases b <;> first | rfl | exact absurd rfl ha | cases hab

/-- The way of two lists, and of two arrays of different variants. -/
theorem concat_of_mixed (hmixed : a.kind = b.kind → a.kind = .list) :
    a.concat s b =
      if b.len = 0 then a else if a.len = 0 then b else .ofValues s (a.values ++ b.values) := by
  unfold Arr.concat
  split
  · cases hmixed rfl
  · cases hmixed rfl
  · cases hmixed rfl
  · cases hmixed rfl
  · rfl

/-- How a join is stored can be told from the variants and the elements of its sides. -/
theorem kind_concat (s : Site) (ha : a.InBounds) (hb : b.InBounds) :
    (a.concat s b).kind = joinedKind a.kind a.values b.kind b.values := by
  by_cases hmixed : a.kind = b.kind → a.kind = .list
  · rw [concat_of_mixed hmixed]
    split
    · rename_i hblen
      rw [Arr.values_eq_nil hblen, joinedKind_nil_right]
    rename_i hblen
    split
    · rename_i halen
      rw [Arr.values_eq_nil halen, joinedKind_nil_left _ _ (values_ne_nil hb hblen)]
    · rename_i halen
      have hbools : ¬(a.kind = .bools ∧ b.kind = .bools) := by
        rintro ⟨ha, hb⟩
        cases ha.symm.trans (hmixed (ha.trans hb.symm))
      rw [kind_ofValues, joinedKind_of_ne_nil _ _ (values_ne_nil ha halen)
        (values_ne_nil hb hblen), if_neg hbools]
  · obtain ⟨hab, hlist⟩ := Classical.not_imp.1 hmixed
    rw [kind_concat_of_kind_eq hlist hab, joinedKind_self hlist hab]

/-- What goes to canonical storage has arrived there. -/
theorem canonical_ofValues (c : Scope) (s : Site) (vs : List Value) :
    ¬(Arr.ofValues s vs).Loose ∧ (Arr.ofValues s vs).canonical c = .ofValues s vs := by
  have htight : ¬(Arr.ofValues s vs).Loose := by
    rw [Arr.loose_iff, kind_ofValues, Arr.values_ofValues, uniform_iff_tightKind]
    exact fun h => h.2 h.1
  refine ⟨htight, canonical_eq_self ?_ fun hlist => ?_⟩
  · unfold Arr.ofValues Arr.pack
    split <;> rfl
  · rw [Arr.loose_iff, not_and] at htight
    exact kind_canonical_eq_list_iff.2 ⟨hlist, htight hlist⟩

end Joins

/-- Joined arrays show the elements of the one and then those of the other. Three arrays can be
joined in either order: the result shows the same elements and is stored in the same variant, also
if some of them are empty or are lists without need. Two arrays with elements, unless they are of
one untagged variant, give an array in canonical storage. -/
theorem concat_associative {a b d : Arr Value} (ha : a.InBounds) (hb : b.InBounds)
    (hd : d.InBounds) (s t s' t' : Site) :
    (a.concat s b).values = a.values ++ b.values ∧ (a.concat s b).len = a.len + b.len ∧
    ((a.concat s b).concat t d).values = (a.concat s' (b.concat t' d)).values ∧
    ((a.concat s b).concat t d).kind = (a.concat s' (b.concat t' d)).kind ∧
    (a.len ≠ 0 → b.len ≠ 0 → (a.kind = b.kind → a.kind = .list) →
      ¬(a.concat s b).Loose ∧ ∀ c, (a.concat s b).canonical c = a.concat s b) := by
  refine ⟨Arr.values_concat s a b, len_concat ha hb, ?_, ?_, fun halen hblen hmixed => ?_⟩
  · simp only [Arr.values_concat, List.append_assoc]
  · rw [kind_concat t (inBounds_concat ha hb s) hd, kind_concat s ha hb,
      kind_concat s' ha (inBounds_concat hb hd t'), kind_concat t' hb hd]
    simp only [Arr.values_concat]
    exact joinedKind_assoc ..
  · rw [concat_of_mixed hmixed, if_neg hblen, if_neg halen]
    exact ⟨(canonical_ofValues ⟨[], s⟩ s _).1, fun c => (canonical_ofValues c s _).2⟩

/-- A list of integers before truth values. Joined to the first truth value it gives integers, and
these take the second one in as an integer; the truth values by themselves stay truth values. -/
theorem concat_associative_bools :
    let a : Arr Value := .list ⟨.step 0, [.nil, .int 3, .int 0], 1, 2, {}⟩
    let b : Arr Value := .bools (.ofList (.step 1) [true])
    let d : Arr Value := .bools (.ofList (.step 2) [false])
    let left := (a.concat (.step 3) b).concat (.step 4) d
    let right := a.concat (.step 5) (b.concat (.step 6) d)
    (a.InBounds ∧ b.InBounds ∧ d.InBounds) ∧
      (a.concat (.step 3) b).kind = .ints ∧ (b.concat (.step 6) d).kind = .bools ∧
      left.kind = right.kind ∧ left.values = right.values ∧
      left.values = [.int 3, .int 0, .int 1, .int 0] ∧
      ∀ c, (a.concat (.step 3) b).canonical c = a.concat (.step 3) b := by
  intro a b d left right
  have ha : a.InBounds := by decide
  have hb : b.InBounds := by decide
  have hd : d.InBounds := by decide
  obtain ⟨-, -, hvalues, hkind, hcanonical⟩ :=
    concat_associative ha hb hd (.step 3) (.step 4) (.step 5) (.step 6)
  exact ⟨⟨ha, hb, hd⟩, rfl, rfl, hkind, hvalues, rfl,
    (hcanonical (by decide) (by decide) (by rintro ⟨⟩)).2⟩

end SharedArrays
