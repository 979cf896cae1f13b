/-!
# Double-precision floats

A float is the 64 bits that store it. So a zero and its negation are two floats, and so are two
NaNs that differ in their sign or in their payload. Order and arithmetic are those of IEEE 754;
negation flips the sign bit, also that of a NaN.

The standard leaves open which NaN an operation answers. Here a NaN among the operands passes on
its sign and its payload, the left one if both are NaNs, and without such an operand the answer is
the default NaN.

## Main definitions

* `Double` — a float as its bits
* `Double.toFloat`, `Double.ofFloat` — the number that the bits stand for, and back
* `Double.arith` — an arithmetic operation
* `Double.order?`, `Double.min`, `Double.max` — the order of numbers

## Main results

* `Double.neg_neg`, `Double.neg_ne_self`, `Double.isNaN_neg` — every float has a negation of its
  own, and that of a NaN is a NaN
-/

namespace SharedArrays

/-- A float of double precision, as the bits that store it. -/
@[ext]
structure Double where
  bits : UInt64
deriving DecidableEq, Repr

namespace Double

/-- The bit that holds the sign. -/
def signBit : UInt64 := 0x8000000000000000

/-- The bits without the sign. -/
def magnitude (x : Double) : UInt64 := x.bits &&& 0x7fffffffffffffff

/-- Not a number: the magnitude lies above that of the infinities. -/
def isNaN (x : Double) : Bool := 0x7ff0000000000000 < x.magnitude

/-- The number. All NaNs are one as numbers. -/
def toFloat (x : Double) : Float := .ofBits x.bits

/-- The NaN of an operation without a NaN among its operands. -/
def defaultNaN : Double := ⟨0xfff8000000000000⟩

/-- The float that stores a number. -/
def ofFloat (x : Float) : Double := if x.isNaN then defaultNaN else ⟨x.toBits⟩

/-- The float nearest to an integer. -/
def ofInt (n : Int64) : Double := .ofFloat n.toFloat

instance : OfNat Double 0 := ⟨⟨0⟩⟩

instance : Inhabited Double := ⟨0⟩

/-- The number is one of the two zeros. -/
def isZero (x : Double) : Bool := x.toFloat == 0

/-- A NaN as an operation passes it on: the first bit of its payload says that it is quiet. -/
def quieted (x : Double) : Double := ⟨x.bits ||| 0x0008000000000000⟩

/-- An arithmetic operation. -/
def arith (op : Float → Float → Float) (x y : Double) : Double :=
  if x.isNaN then x.quieted
  else if y.isNaN then y.quieted
  else .ofFloat (op x.toFloat y.toFloat)

instance : Add Double := ⟨arith (· + ·)⟩

instance : Sub Double := ⟨arith (· - ·)⟩

instance : Mul Double := ⟨arith (· * ·)⟩

instance : Div Double := ⟨arith (· / ·)⟩

instance : Neg Double := ⟨fun x => ⟨x.bits ^^^ signBit⟩⟩

/-- The order of two floats; a NaN has none. -/
def order? (x y : Double) : Option Ordering :=
  if x.toFloat < y.toFloat then some .lt
  else if y.toFloat < x.toFloat then some .gt
  else if x.toFloat == y.toFloat then some .eq
  else none

/-- The smaller of two floats; of a number and a NaN the number, of equal floats the second. -/
def min (x y : Double) : Double := if y.isNaN || x.toFloat < y.toFloat then x else y

/-- The larger of two floats; of a number and a NaN the number, of equal floats the second. -/
def max (x y : Double) : Double := if y.isNaN || y.toFloat < x.toFloat then x else y

@[simp] theorem bits_neg (x : Double) : (-x).bits = x.bits ^^^ signBit := rfl

@[simp] theorem neg_neg (x : Double) : - -x = x := by
  ext1
  rw [bits_neg, bits_neg, UInt64.xor_assoc, UInt64.xor_self, UInt64.xor_zero]

/-- A float and its negation never have the same bits. -/
theorem neg_ne_self (x : Double) : -x ≠ x := by
  intro h
  have hbits : x.bits ^^^ signBit = x.bits ^^^ 0 :=
    (congrArg bits h).trans UInt64.xor_zero.symm
  have hsign : signBit ≠ 0 := by decide
  exact hsign ((UInt64.xor_right_inj x.bits).1 hbits)

@[simp] theorem magnitude_neg (x : Double) : (-x).magnitude = x.magnitude := by
  rw [← UInt64.toNat_inj]
  simp only [magnitude, bits_neg, UInt64.toNat_and, UInt64.toNat_xor, Nat.and_xor_distrib_right]
  -- The mask has every bit but that of the sign.
  exact Nat.xor_zero _

@[simp] theorem isNaN_neg (x : Double) : (-x).isNaN = x.isNaN := by
  simp only [isNaN, magnitude_neg]

example : (-defaultNaN).bits = 0x7ff8000000000000 ∧ (-defaultNaN).isNaN = true := by decide

end Double

end SharedArrays
