/-!
# Windows on named buffers

Arrays do not own their elements. An array is a *window* on a buffer, and several windows may
look at one buffer at the same time. Every shared object (a buffer, a dictionary, a derived
function, …) has a name, its *site*; two windows with one site look at one buffer.

A window carries the contents of its buffer, so that reading needs no store. The buffers form
a store all the same: in every state that the operations of this library reach, windows with one
site carry the same contents, because a write goes to the buffer itself only when no other
window is on it.

## Main definitions

* `Site` — the name of a shared object
* `Flags` — advisory facts about the elements, and the pin
* `Window` — a stretch of a named buffer
* `Window.items` — the elements that a window shows

## Main results

* `Window.InBounds.length_items` — a window inside its buffer shows `len` elements
* `Window.items_slice` — the elements of a part of a window
-/

namespace SharedArrays

/-- The name of a shared object: the path of numbers that leads to the place in the computation
where the object was made, the innermost number first. Names need no counter. An operation
that is given a site makes its objects at the site and at sites below it, and gives each of its
parts a site of its own. -/
structure Site where
  path : List Nat
deriving DecidableEq, Repr

namespace Site

/-- The site of the `k`-th part below `s`. -/
def sub (s : Site) (k : Nat) : Site := ⟨k :: s.path⟩

/-- The site of the `n`-th step of a session. -/
def step (n : Nat) : Site := ⟨[n]⟩

end Site

/-- Advisory facts about the elements of a window, and the pin. A fact may be missing, which
costs a slower path and nothing else. A pinned window is never written in place. -/
structure Flags where
  /-- The elements do not decrease. -/
  ascending : Bool := false
  /-- No element occurs twice. -/
  distinct : Bool := false
  /-- The elements are integers, each of them 0 or 1. -/
  zeroOne : Bool := false
  /-- The next write copies, whether or not the buffer is shared. -/
  pinned : Bool := false
deriving DecidableEq, Repr

namespace Flags

/-- The names of the flags that are set, in a fixed order. -/
def names (f : Flags) : List String :=
  (if f.ascending then ["ascending"] else []) ++ (if f.distinct then ["distinct"] else []) ++
    (if f.zeroOne then ["bool"] else []) ++ (if f.pinned then ["immutable"] else [])

end Flags

/-- The `len` elements of a list from position `off` on. -/
def stretch {α : Type} (off len : Nat) (xs : List α) : List α := (xs.drop off).take len

theorem stretch_map {α β : Type} (off len : Nat) (f : α → β) (xs : List α) :
    stretch off len (xs.map f) = (stretch off len xs).map f := by
  simp [stretch]

theorem stretch_set {α : Type} (off len i : Nat) (x : α) (xs : List α) :
    stretch off len (xs.set (off + i) x) = (stretch off len xs).set i x := by
  have : ¬off + i < off := by omega
  simp [stretch, List.drop_set, this, List.take_set]

/-- A window on a buffer: the `len` elements from position `off` on. -/
structure Window (α : Type) where
  /-- The name of the buffer. -/
  storage : Site
  /-- The whole buffer, also what lies outside the window. -/
  buf : List α
  off : Nat
  len : Nat
  flags : Flags
deriving Repr

namespace Window

variable {α : Type}

/-- The elements that the window shows. -/
def items (w : Window α) : List α := stretch w.off w.len w.buf

/-- The window lies inside its buffer. -/
def InBounds (w : Window α) : Prop := w.off + w.len ≤ w.buf.length

instance (w : Window α) : Decidable w.InBounds :=
  inferInstanceAs (Decidable (_ ≤ _))

/-- A window on the whole of a new buffer. -/
def ofList (s : Site) (xs : List α) (flags : Flags := {}) : Window α :=
  ⟨s, xs, 0, xs.length, flags⟩

/-- The elements from `i` up to `j`, on the same buffer and with the same flags. -/
def slice (w : Window α) (i j : Nat) : Window α := { w with off := w.off + i, len := j - i }

/-- A copy of the elements on a new buffer. The facts stay true of the copy; the pin is
dropped. -/
def copy (s : Site) (w : Window α) : Window α :=
  ofList s w.items { w.flags with pinned := false }

/-- The elements at the given positions, on a new buffer. -/
def select (s : Site) (w : Window α) (ps : List Nat) : Window α :=
  ofList s (ps.filterMap (w.items[·]?))

@[simp] theorem items_ofList (s : Site) (xs : List α) (flags : Flags) :
    (ofList s xs flags).items = xs := by
  simp [items, stretch, ofList]

theorem inBounds_ofList (s : Site) (xs : List α) (flags : Flags) :
    (ofList s xs flags).InBounds := by
  simp [InBounds, ofList]

@[simp] theorem items_copy (s : Site) (w : Window α) : (w.copy s).items = w.items := by
  simp [copy]

theorem InBounds.length_items {w : Window α} (h : w.InBounds) : w.items.length = w.len := by
  simp only [InBounds] at h
  simp only [items, stretch, List.length_take, List.length_drop]
  omega

theorem InBounds.slice {w : Window α} {i j : Nat} (h : w.InBounds) (hij : i ≤ j)
    (hj : j ≤ w.len) : (w.slice i j).InBounds := by
  simp only [InBounds, Window.slice] at *
  omega

theorem items_slice {w : Window α} {i j : Nat} (hj : j ≤ w.len) :
    (w.slice i j).items = stretch i (j - i) w.items := by
  simp only [items, stretch, Window.slice, List.drop_take, List.drop_drop, List.take_take]
  congr 1
  omega

end Window

end SharedArrays
