import SharedArrays.Arr.Read
import SharedArrays.Arr.Write
import Std.Data.HashMap

/-!
# Dictionaries

A dictionary pairs the elements of two arrays of equal length. A key is found at its first
position. Looking up many keys at once can go through an index of the dictionary's keys, which
sorts them by their digests.

## Main definitions

* `Dict.find?`, `Dict.get?` — looking up one key
* `KeyIndex` — keys by digest
* `Dict.positions` — looking up many keys
* `Dict.appendKey`, `Dict.append?` — new entries
* `Scope.own` — the site of a dictionary that is about to be changed
-/

namespace SharedArrays

/-- An index of a list of keys: for each digest, the keys that have it with their positions, in
order. -/
abbrev KeyIndex := Std.HashMap (List Nat) (List (Value × Nat))

namespace KeyIndex

/-- The index of a list of keys. -/
def ofKeys (keys : List Value) : KeyIndex :=
  keys.zipIdx.foldr (fun (k, i) index =>
    index.insert k.digest ((k, i) :: index.getD k.digest [])) ∅

/-- The first position of a key. -/
def find? (index : KeyIndex) (k : Value) : Option Nat :=
  ((index.getD k.digest []).find? (·.1.eqv k)).map (·.2)

end KeyIndex

namespace Dict

/-- The first position of a key. -/
def find? (d : Dict Value) (k : Value) : Option Nat := d.keys.find? k

/-- The value that belongs to a key. -/
def get? (d : Dict Value) (k : Value) : Option Value := (d.find? k).bind d.vals.at?

/-- The first positions of several keys. From `threshold` keys on, an index of the dictionary
takes the place of single searches. -/
def positions (d : Dict Value) (keys : Arr Value) (threshold : Nat) : List (Option Nat) :=
  if keys.len < threshold then keys.values.map d.find?
  else
    let index := KeyIndex.ofKeys d.keys.values
    keys.values.map index.find?

/-- Appends a key, with the neutral value of the values' type. -/
def appendKey (c : Scope) (d : Dict Value) (k : Value) : Dict Value :=
  -- The values are alive while the keys are written, and the other way round.
  let keys := (d.keys.push ((c.sub 0).beside [.array d.vals]) k).canonical
    ((c.sub 1).beside [.array d.vals])
  ⟨keys, d.vals.push ((c.sub 2).beside [.array keys]) (d.vals.padding (c.site.sub 3))⟩

/-- Appends several keys, one after the other. -/
def appendKeys (c : Scope) (d : Dict Value) (ks : List Value) : Dict Value :=
  ks.zipIdx.foldl (fun d (k, i) => d.appendKey (c.sub i) k) d

/-- Appends several keys, of which the first is the `n`-th. -/
def appendKeysFrom (c : Scope) (n : Nat) : List Value → Dict Value → Dict Value
  | [], d => d
  | k :: ks, d => appendKeysFrom c (n + 1) ks (d.appendKey (c.sub n) k)

theorem appendKeys_eq (c : Scope) (d : Dict Value) (ks : List Value) :
    d.appendKeys c ks = appendKeysFrom c 0 ks d := by
  have hfold (n : Nat) (d : Dict Value) :
      (ks.zipIdx n).foldl (fun d e => d.appendKey (c.sub e.2) e.1) d = appendKeysFrom c n ks d := by
    induction ks generalizing n d with
    | nil => rfl
    | cons k ks ih => exact ih (n + 1) _
  exact hfold 0 d

/-- Appends keys and their values. -/
def append? (s : Site) (d : Dict Value) (keys vals : Arr Value) : Result (Dict Value) :=
  if keys.len = vals.len then
    .ok ⟨d.keys.concat (s.sub 0) keys, d.vals.concat (s.sub 1) vals⟩
  else .error (.length "dict keys vs values" keys.len vals.len)

end Dict

/-- The site of a dictionary that is about to be changed: its own if nothing else refers to it,
and otherwise that of a copy, which shares the arrays with it. -/
def Scope.own (c : Scope) (s : Site) : Site := if c.holds s then c.site else s

end SharedArrays
