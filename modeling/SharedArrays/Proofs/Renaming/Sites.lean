import SharedArrays.Proofs.Renaming.Calls

/-!
# The same at another site

A call or an amend makes its new objects at a site. If nothing that it is given has been made there,
then the site is a matter of names: at another such site it answers the same, with what it has made
under the other names. This holds for every function, also for one that makes new functions, which
differ in nothing but their names.

## Main definitions

* `Site.follow`, `Site.wayTo` — ways from a site to what lies below it
* `Site.Unused` — a site at which nothing inside of a value has been made
* `Site.exchange` — two sites with what lies below them exchanged

## Main results

* `apply_exchange` — a call at another site
* `amended_exchange`, `amended_exchange_of_free` — an amend at another site
-/

namespace SharedArrays

/-! ## Ways -/

namespace Site

/-- The site to which a way leads from `s`, from the outside to the inside. -/
def follow (s : Site) (way : List Nat) : Site := ⟨way.reverse ++ s.path⟩

/-- The way from `s` to a site below it. -/
def wayTo (s t : Site) : List Nat := t.path.reverse.drop s.path.length

@[simp] theorem wayTo_follow (s : Site) (way : List Nat) : s.wayTo (s.follow way) = way := by
  simp [wayTo, follow]

theorem follow_inj {s : Site} {p q : List Nat} : s.follow p = s.follow q ↔ p = q :=
  ⟨fun h => by rw [← wayTo_follow s p, h, wayTo_follow], congrArg s.follow⟩

theorem sub_follow (s : Site) (way : List Nat) (k : Nat) :
    (s.follow way).sub k = s.follow (way ++ [k]) := by
  simp [sub, follow]

theorem covers_iff {s t : Site} : s.Covers t ↔ ∃ way, t = s.follow way := by
  constructor
  · rintro ⟨p, hp⟩
    exact ⟨p.reverse, by rw [follow, List.reverse_reverse, hp]⟩
  · rintro ⟨way, rfl⟩
    exact ⟨way.reverse, rfl⟩

instance (s t : Site) : Decidable (s.Covers t) := inferInstanceAs (Decidable (s.path <:+ t.path))

end Site

/-! ## Unused sites -/

/-- Nothing inside of `x` has been made at the site `s` or below. -/
abbrev Site.Unused {α : Type} [HasNodes α] (s : Site) (x : α) : Prop :=
  Everywhere (fun u => ∀ t ∈ u.name?, ¬s.Covers t) x

instance {α : Type} [HasNodes α] (s : Site) (x : α) : Decidable (s.Unused x) :=
  inferInstanceAs (Decidable (∀ u ∈ allNodes x, ∀ t ∈ u.name?, ¬s.Covers t))

/-- What lies below an unused site is unused. -/
theorem Site.Unused.of_covers {α : Type} [HasNodes α] {s t : Site} {x : α} (h : s.Unused x)
    (ht : s.Covers t) : t.Unused x :=
  fun u hu t' ht' hcovers => h u hu t' ht' (ht.trans hcovers)

/-- A site that is free in the store where `x` lies is unused in `x`. -/
theorem unused_of_free {α : Type} [HasNodes α] {st : Store} {s : Site} {x : α} (h : LiesIn st x)
    (hfree : st.Free s) : s.Unused x :=
  fun u hu t ht hcovers => h.ne_none ⟨u, hu, ht⟩ (hfree t hcovers)

/-! ## Exchanging two sites -/

namespace Site

/-- Exchanges what lies at two sites and below them. -/
def exchange (s s' t : Site) : Site :=
  if s.Covers t then s'.follow (s.wayTo t)
  else if s'.Covers t then s.follow (s'.wayTo t)
  else t

variable {s s' : Site}

theorem exchange_follow (s s' : Site) (way : List Nat) :
    s.exchange s' (s.follow way) = s'.follow way := by
  rw [exchange, if_pos (covers_iff.2 ⟨way, rfl⟩), wayTo_follow]

theorem exchange_self (s s' : Site) : s.exchange s' s = s' := exchange_follow s s' []

theorem exchange_follow_right (h : s.Apart s') (way : List Nat) :
    s.exchange s' (s'.follow way) = s.follow way := by
  have hbelow : s'.Covers (s'.follow way) := covers_iff.2 ⟨way, rfl⟩
  rw [exchange, if_neg (h.symm.not_covers hbelow), if_pos hbelow, wayTo_follow]

theorem exchange_of_not_covers {t : Site} (h : ¬s.Covers t) (h' : ¬s'.Covers t) :
    s.exchange s' t = t := by
  rw [exchange, if_neg h, if_neg h']

/-- Exchanging twice exchanges nothing. -/
theorem exchange_exchange (h : s.Apart s') (t : Site) :
    s.exchange s' (s.exchange s' t) = t := by
  by_cases ht : s.Covers t
  · obtain ⟨way, rfl⟩ := covers_iff.1 ht
    rw [exchange_follow, exchange_follow_right h]
  by_cases ht' : s'.Covers t
  · obtain ⟨way, rfl⟩ := covers_iff.1 ht'
    rw [exchange_follow_right h, exchange_follow]
  · rw [exchange_of_not_covers ht ht', exchange_of_not_covers ht ht']

theorem exchange_injective (h : s.Apart s') : Function.Injective (s.exchange s') :=
  Function.LeftInverse.injective (exchange_exchange h)

theorem carries_exchange (s s' : Site) : Carries (s.exchange s') s := by
  intro t ht k
  obtain ⟨way, rfl⟩ := covers_iff.1 ht
  rw [sub_follow, exchange_follow, exchange_follow, sub_follow]

end Site

section Exchange

variable {s s' : Site}

/-- What has been made elsewhere keeps its names. -/
theorem rename_exchange {v : Value} (h : s.Unused v) (h' : s'.Unused v) :
    rename (s.exchange s') v = v :=
  rename_eq_self fun _ ⟨u, hu, ht⟩ => Site.exchange_of_not_covers (h u hu _ ht) (h' u hu _ ht)

theorem rename_exchange_list {vs : List Value} (h : s.Unused vs) (h' : s'.Unused vs) :
    rename (s.exchange s') vs = vs := by
  refine (List.map_congr_left fun v hv => ?_).trans (List.map_id _)
  exact rename_exchange (everywhere_iff_forall.1 h v hv) (everywhere_iff_forall.1 h' v hv)

theorem rename_exchange_option {z : Option Value} (h : s.Unused z) (h' : s'.Unused z) :
    rename (s.exchange s') z = z := by
  cases z with
  | none => rfl
  | some v => exact congrArg some (rename_exchange h h')

/-- A call at another site. -/
theorem apply_exchange (hapart : s.Apart s') (settings : Settings) {f : Value} {args : List Value}
    (h : s.Unused (f, args)) (h' : s'.Unused (f, args)) :
    f.apply settings s' args = rename (s.exchange s') (f.apply settings s args) := by
  obtain ⟨hf, hargs⟩ := (everywhere_pair ..).1 h
  obtain ⟨hf', hargs'⟩ := (everywhere_pair ..).1 h'
  have hrun := apply_rename (Site.exchange_injective hapart) settings f
    (Site.carries_exchange s s') args
  rwa [rename_exchange hf hf', rename_exchange_list hargs hargs', Site.exchange_self] at hrun

/-- An amend at another site, beside the same other values. -/
theorem amended_exchange (hapart : s.Apart s') (settings : Settings) (form : Form)
    {held : List Value} {x y f : Value} {z : Option Value}
    (h : s.Unused (held, x, y, f, z)) (h' : s'.Unused (held, x, y, f, z)) :
    x.amended settings form ⟨held, s'⟩ y f z =
      rename (s.exchange s') (x.amended settings form ⟨held, s⟩ y f z) := by
  simp only [everywhere_pair] at h h'
  obtain ⟨hheld, hx, hy, hf, hz⟩ := h
  obtain ⟨hheld', hx', hy', hf', hz'⟩ := h'
  have hrun := amended_rename (Site.exchange_injective hapart) settings form (c := ⟨held, s⟩)
    (Site.carries_exchange s s') x y f z
  have hscope : rename (s.exchange s') (⟨held, s⟩ : Scope) = ⟨held, s'⟩ :=
    congr (congrArg Scope.mk (rename_exchange_list hheld hheld')) (Site.exchange_self s s')
  rwa [hscope, rename_exchange hx hx', rename_exchange hy hy', rename_exchange hf hf',
    rename_exchange_option hz hz'] at hrun

/-- What lies in a store is amended alike at any two sites that are free in it. -/
theorem amended_exchange_of_free {st : Store} (hfree : st.Free s) (hfree' : st.Free s')
    (hapart : s.Apart s') (settings : Settings) (form : Form) {held : List Value}
    {x y f : Value} {z : Option Value} (h : LiesIn st (held, x, y, f, z)) :
    x.amended settings form ⟨held, s'⟩ y f z =
      rename (s.exchange s') (x.amended settings form ⟨held, s⟩ y f z) :=
  amended_exchange hapart settings form (unused_of_free h hfree) (unused_of_free h hfree')

end Exchange

end SharedArrays
