import BinjaHexagon.CInt
import BinjaHexagon.Llil
/-!
# LiftValue — integers held by IL expressions

An expression of `s` bytes holds an integer when its value is the integer's low `8 * s` bits.  What an operator holds is
said on the integers: an operand narrower than the operator is read without its sign.
-/
namespace Hex

open Bytes (norm)
open CInt

/-- The low `s` bytes of an integer. -/
def held (s : Nat) (x : Int) : BitVec 64 := (BitVec.ofInt (8 * s) x).setWidth 64

/-- The type a value of `s` bytes is read at. -/
abbrev ilTy (s : Nat) (signed : Bool) : Ty := ⟨8 * s, signed⟩

theorem getLsbD_held (s : Nat) (x : Int) (i : Nat) :
    (held s x).getLsbD i = (decide (i < 64) && (decide (i < 8 * s) && x.testBit i)) := by
  rw [held, BitVec.getLsbD_setWidth, getLsbD_ofInt]

theorem held_congr {s : Nat} {x y : Int} (h : BitVec.ofInt (8 * s) x = BitVec.ofInt (8 * s) y) :
    held s x = held s y := by
  rw [held, held, h]

theorem held_conv (s : Nat) (signed : Bool) (x : Int) : held s ((ilTy s signed).conv x) = held s x :=
  held_congr ((ilTy s signed).ofInt_conv x)

theorem norm_ofInt (s : Nat) (x : Int) : norm s (BitVec.ofInt 64 x) = held s x := by
  refine BitVec.eq_of_getLsbD_eq fun i hi => ?_
  rw [Bytes.getLsbD_norm, getLsbD_ofInt, getLsbD_held]
  by_cases h : i < 8 * s <;> simp [h, hi]

section Read

variable {s : Nat} (hs : s ≤ 8) (x : Int)

include hs

theorem toNat_held : ((held s x).toNat : Int) = (ilTy s false).conv x := by
  have hle : 2 ^ (8 * s) ≤ 2 ^ 64 := Nat.pow_le_pow_right (by decide) (by omega)
  have hlt := (BitVec.ofInt (8 * s) x).isLt
  rw [held, BitVec.toNat_setWidth, Nat.mod_eq_of_lt (Nat.lt_of_lt_of_le hlt hle)]
  rfl

theorem held_eq_ofInt : held s x = BitVec.ofInt 64 ((ilTy s false).conv x) := by
  rw [← toNat_held hs, BitVec.ofInt_natCast, BitVec.ofNat_toNat, BitVec.setWidth_eq]

theorem setWidth_held : (held s x).setWidth (8 * s) = BitVec.ofInt (8 * s) x := by
  refine BitVec.eq_of_getLsbD_eq fun i hi => ?_
  rw [BitVec.getLsbD_setWidth, getLsbD_held, getLsbD_ofInt]
  have : i < 64 := by omega
  simp [hi, this]

theorem signExtendFrom_held : signExtendFrom s (held s x) = BitVec.ofInt 64 ((ilTy s true).conv x) := by
  rw [signExtendFrom, setWidth_held hs]
  rfl

theorem norm_held (r : Nat) : norm r (held s x) = held r ((ilTy s false).conv x) := by
  rw [held_eq_ofInt hs, norm_ofInt]

theorem toSigned_held : toSigned s (held s x) = (ilTy s true).conv x := by
  rw [toSigned, setWidth_held hs]
  rfl

end Read

/-- What an operator of one operand of `from'` bytes does to the integer. -/
def IlUnop.onInt (o : IlUnop) (from' : Nat) (x : Int) : Int :=
  match o with
  | .not => Int.lnot ((ilTy from' false).conv x)
  | .neg => -(ilTy from' false).conv x
  | .lowPart | .zeroExtend | .boolToInt => (ilTy from' false).conv x
  | .signExtend => (ilTy from' true).conv x

theorem IlUnop.eval_held (o : IlUnop) (size : Nat) {s : Nat} (hs : s ≤ 8) (x : Int) :
    o.eval size s (held s x) = held size (o.onInt s x) := by
  cases o with
  | not => rw [eval, held_eq_ofInt hs, ← ofInt_lnot, norm_ofInt, onInt]
  | neg => rw [eval, held_eq_ofInt hs, ← BitVec.ofInt_neg, norm_ofInt, onInt]
  | lowPart | zeroExtend | boolToInt => rw [eval, norm_held hs, onInt]
  | signExtend => rw [eval, signExtendFrom_held hs, norm_ofInt, onInt]

/-- What an operator of two operands does to the integers, the second read from `sb` bytes. -/
def IlBinop.onInt (o : IlBinop) (size sb : Nat) (x y : Int) : Int :=
  let y := (ilTy sb false).conv y
  match o with
  | .add => x + y
  | .sub => x - y
  | .mult => x * y
  | .or => Int.lor x y
  | .and => Int.land x y
  | .xor => Int.xor x y
  | .shiftLeft => x * 2 ^ y.toNat
  | .logicalShiftRight => (ilTy size false).conv x >>> y.toNat
  | .arithShiftRight => (ilTy size true).conv x >>> y.toNat
  | .rotateLeft => Int.lor (x * 2 ^ (y.toNat % (8 * size)))
      ((ilTy size false).conv x >>> (8 * size - y.toNat % (8 * size)))

theorem IlBinop.eval_held (o : IlBinop) {size sb : Nat} (hs : size ≤ 8) (hb : sb ≤ 8) (x y : Int) :
    o.eval size (held size x) (held sb y) = held size (o.onInt size sb x y) := by
  have hx : norm size (held size x) = held size x := by rw [norm_held hs, held_conv]
  have hk : (held sb y).toNat = ((ilTy sb false).conv y).toNat := by
    rw [← toNat_held hb, Int.toNat_natCast]
  cases o with
  | add =>
    rw [eval, held_eq_ofInt hs, held_eq_ofInt hb, ← BitVec.ofInt_add, norm_ofInt, onInt]
    refine held_congr ?_
    rw [BitVec.ofInt_add, BitVec.ofInt_add, (ilTy size false).ofInt_conv]
  | sub =>
    rw [eval, held_eq_ofInt hs, held_eq_ofInt hb, BitVec.sub_eq_add_neg, ← BitVec.ofInt_neg, ← BitVec.ofInt_add,
      norm_ofInt, onInt, ← Int.sub_eq_add_neg]
    refine held_congr ?_
    rw [Int.sub_eq_add_neg, Int.sub_eq_add_neg, BitVec.ofInt_add, BitVec.ofInt_add, (ilTy size false).ofInt_conv]
  | mult =>
    rw [eval, held_eq_ofInt hs, held_eq_ofInt hb, ← BitVec.ofInt_mul, norm_ofInt, onInt]
    refine held_congr ?_
    rw [BitVec.ofInt_mul, BitVec.ofInt_mul, (ilTy size false).ofInt_conv]
  | or =>
    rw [eval, held_eq_ofInt hs, held_eq_ofInt hb, ← ofInt_lor, norm_ofInt, onInt]
    refine held_congr ?_
    rw [ofInt_lor, ofInt_lor, (ilTy size false).ofInt_conv]
  | and =>
    rw [eval, held_eq_ofInt hs, held_eq_ofInt hb, ← ofInt_land, norm_ofInt, onInt]
    refine held_congr ?_
    rw [ofInt_land, ofInt_land, (ilTy size false).ofInt_conv]
  | xor =>
    rw [eval, held_eq_ofInt hs, held_eq_ofInt hb, ← ofInt_lxor, norm_ofInt, onInt]
    refine held_congr ?_
    rw [ofInt_lxor, ofInt_lxor, (ilTy size false).ofInt_conv]
  | shiftLeft =>
    rw [eval, hk, held_eq_ofInt hs, ← ofInt_mul_two_pow, norm_ofInt, onInt]
    refine held_congr ?_
    rw [ofInt_mul_two_pow, ofInt_mul_two_pow, (ilTy size false).ofInt_conv]
  | logicalShiftRight =>
    rw [eval, hk, hx, onInt]
    refine BitVec.eq_of_getLsbD_eq fun i hi => ?_
    rw [BitVec.getLsbD_ushiftRight, getLsbD_held, held, BitVec.getLsbD_setWidth, Ty.ofInt_conv_shiftRight,
      BitVec.getLsbD_ushiftRight, getLsbD_ofInt]
    generalize ((ilTy sb false).conv y).toNat = k
    by_cases h : k + i < 8 * size
    · simp [h, hi, show k + i < 64 by omega]
    · simp [h]
  | arithShiftRight =>
    have h : (BitVec.ofInt 64 ((ilTy size true).conv x)).toInt = (ilTy size true).conv x :=
      Ty.Fits.mono (u := ⟨64, true⟩) ((ilTy size true).fits_conv x) (.inl ⟨show 8 * size ≤ 64 by omega, rfl⟩)
    rw [eval, hk, signExtendFrom_held hs, BitVec.sshiftRight_eq, h, norm_ofInt, onInt]
  | rotateLeft =>
    rw [eval, hk, setWidth_held hs, BitVec.rotateLeft_def]
    rw [onInt, held, ofInt_lor, ofInt_mul_two_pow, Ty.ofInt_conv_shiftRight]

/-- The comparison an operator makes, and whether it reads its operands with their sign. -/
def IlCompare.rel : IlCompare → Int → Int → Bool
  | .equal, x, y => x == y
  | .notEqual, x, y => x != y
  | .signedGreaterThan, x, y | .unsignedGreaterThan, x, y => decide (y < x)
  | .signedGreaterEqual, x, y | .unsignedGreaterEqual, x, y => decide (y ≤ x)
  | .signedLessThan, x, y | .unsignedLessThan, x, y => decide (x < y)
  | .signedLessEqual, x, y | .unsignedLessEqual, x, y => decide (x ≤ y)

def IlCompare.signed : IlCompare → Bool
  | .signedGreaterThan | .signedGreaterEqual | .signedLessThan | .signedLessEqual => true
  | .equal | .notEqual | .unsignedGreaterThan | .unsignedGreaterEqual | .unsignedLessThan | .unsignedLessEqual => false

theorem IlCompare.eval_held (o : IlCompare) {size sb : Nat} (hs : size ≤ 8) (hb : sb ≤ 8) (x y : Int) :
    o.eval size (held size x) (held sb y) =
      o.rel ((ilTy size o.signed).conv x) ((ilTy size o.signed).conv ((ilTy sb false).conv y)) := by
  have hx : norm size (held size x) = held size x := by rw [norm_held hs, held_conv]
  have hy : norm size (held sb y) = held size ((ilTy sb false).conv y) := norm_held hb y size
  have hsx : toSigned size (held size x) = (ilTy size true).conv x := toSigned_held hs x
  have hsy : toSigned size (held sb y) = (ilTy size true).conv ((ilTy sb false).conv y) := by
    have hcut : (held sb y).setWidth (8 * size) = (norm size (held sb y)).setWidth (8 * size) := by
      refine BitVec.eq_of_getLsbD_eq fun i hi => ?_
      simp only [BitVec.getLsbD_setWidth, Bytes.getLsbD_norm, hi, decide_true, Bool.true_and]
    rw [← toSigned_held hs, ← hy, toSigned, toSigned, hcut]
  have hux := toNat_held hs x
  have huy := toNat_held hs ((ilTy sb false).conv y)
  have heq : (held size x == held size ((ilTy sb false).conv y)) =
      ((ilTy size false).conv x == (ilTy size false).conv ((ilTy sb false).conv y)) := by
    rw [← hux, ← huy, Bool.eq_iff_iff, beq_iff_eq, beq_iff_eq, Int.natCast_inj, BitVec.toNat_inj]
  cases o with
  | equal => rw [eval, hx, hy, rel, signed, heq]
  | notEqual => rw [eval, hx, hy, rel, signed, bne, heq, bne]
  | signedGreaterThan | signedGreaterEqual | signedLessThan | signedLessEqual => rw [eval, hsx, hsy, rel, signed]
  | unsignedGreaterThan | unsignedLessThan =>
    rw [eval, hx, hy, rel, signed, ← hux, ← huy]
    simp [BitVec.lt_def]
  | unsignedGreaterEqual | unsignedLessEqual =>
    rw [eval, hx, hy, rel, signed, ← hux, ← huy]
    simp [BitVec.le_def]

end Hex
