import Wasm.Numeric.Integer
import Wasm.Numeric.Float

/-! # Float operators on bit vectors -/

namespace Wasm

/-- The number of bits of a float width. -/
def FloatWidth.bits : FloatWidth → Nat
  | .w32 => 32
  | .w64 => 64

/-- The number of bits of an integer width. -/
def IntWidth.bits : IntWidth → Nat
  | .w32 => 32
  | .w64 => 64

namespace FloatFormat

variable (fmt : FloatFormat) {n : Nat}

/-- The float of the bits of a vector. -/
def ofVec (bits : BitVec n) : FloatDatum := fmt.ofBits bits.toNat

/-- The bits of a float as a vector. -/
def toVec (x : FloatDatum) : BitVec n := BitVec.ofNat n (fmt.toBits x)

end FloatFormat

/-- A float cut to an integer of `n` bits; clamps to their range. -/
def Signedness.truncateSat (sign : Signedness) (fmt : FloatFormat) (n : Nat) (x : FloatDatum) :
    BitVec n :=
  BitVec.ofInt n (fmt.toIntSat (sign.least n) (sign.greatest n) x)

/-- The whole number next to `t` that the fraction left over asks for; an odd `t` gives way on a
    tie. -/
def FloatFormat.settle (fmt : FloatFormat) {n : Nat} (t : BitVec n) (fraction : FloatDatum) :
    BitVec n :=
  let odd := t &&& 1 != 0
  let minusHalf := FloatFormat.neg fmt.half
  if fmt.lt fmt.half fraction || (fmt.eq fraction fmt.half && odd) then t + 1
  else if fmt.lt fraction minusHalf || (fmt.eq fraction minusHalf && odd) then t - 1
  else t

/-- The nearest whole number, by way of an integer of the same width; the sign bit is put back. -/
def FloatFormat.nearest (fmt : FloatFormat) (v : FloatDatum) : FloatDatum :=
  let cutoff : Int := fmt.fractionWeight
  if fmt.isNaN v || !(fmt.lt (fmt.ofInt (-cutoff)) v && fmt.lt v (fmt.ofInt cutoff)) then v
  else
    let t := Signedness.signed.truncateSat fmt fmt.bits v
    let r := fmt.settle t (fmt.sub v (fmt.ofInt t.toInt))
    fmt.ofBits (fmt.toBits (fmt.ofInt r.toInt) ||| (fmt.toBits v &&& fmt.signWeight))

/-- The result of a float operation. -/
def FloatBinary.eval (fmt : FloatFormat) (op : FloatBinary) (x y : FloatDatum) : FloatDatum :=
  match op with
  | .add => fmt.add x y
  | .sub => fmt.sub x y
  | .mul => fmt.mul x y
  | .div => fmt.div x y
  | .min => fmt.min x y
  | .max => fmt.max x y
  | .copysign => FloatFormat.copysign x y

/-- The truth of a float comparison; a NaN differs from everything. -/
def FloatCompare.eval (fmt : FloatFormat) (op : FloatCompare) (x y : FloatDatum) : Bool :=
  match op with
  | .eq => fmt.eq x y
  | .ne => !fmt.eq x y
  | .lt => fmt.lt x y
  | .gt => fmt.lt y x
  | .le => fmt.le x y
  | .ge => fmt.le y x

/-- The result of a float operation of one operand. -/
def FloatUnary.eval (fmt : FloatFormat) (op : FloatUnary) (x : FloatDatum) : FloatDatum :=
  match op with
  | .abs => FloatFormat.abs x
  | .neg => FloatFormat.neg x
  | .ceil => fmt.ceil x
  | .floor => fmt.floor x
  | .trunc => fmt.trunc x
  | .nearest => fmt.nearest x
  | .sqrt => fmt.sqrt x

/-- Whether a number is outside the range of an integer type once it is cut.  Where no float lies
    between the least integer and the one below it, the guard is strict. -/
def Signedness.overflows (sign : Signedness) (target : IntWidth) (source : FloatWidth)
    (v : FloatDatum) : Bool :=
  let fmt := source.format
  match target, source, sign with
  | .w32, .w32, .signed => fmt.le (fmt.ofInt 2147483648) v || fmt.lt v (fmt.ofInt (-2147483648))
  | .w32, .w32, .unsigned => fmt.le (fmt.ofInt 4294967296) v || fmt.le v (fmt.ofInt (-1))
  | .w32, .w64, .signed => fmt.le (fmt.ofInt 2147483648) v || fmt.le v (fmt.ofInt (-2147483649))
  | .w32, .w64, .unsigned => fmt.le (fmt.ofInt 4294967296) v || fmt.le v (fmt.ofInt (-1))
  | .w64, .w32, .signed =>
    fmt.le (fmt.ofInt 9223372036854775808) v || fmt.lt v (fmt.ofInt (-9223372036854775808))
  | .w64, .w32, .unsigned => fmt.le (fmt.ofInt 18446744073709551616) v || fmt.le v (fmt.ofInt (-1))
  | .w64, .w64, .signed =>
    fmt.le (fmt.ofInt 9223372036854775808) v || fmt.lt v (fmt.ofInt (-9223372036854775808))
  | .w64, .w64, .unsigned => fmt.le (fmt.ofInt 18446744073709551616) v || fmt.le v (fmt.ofInt (-1))

/-- A float cut to an integer; fails on a NaN and outside the range. -/
def Signedness.truncate (sign : Signedness) (target : IntWidth) (source : FloatWidth)
    (v : FloatDatum) : Except Trap (BitVec target.bits) :=
  if source.format.isNaN v then .error .invalidConversionToInteger
  else if sign.overflows target source v then .error .integerOverflow
  else .ok (sign.truncateSat source.format target.bits v)

end Wasm
