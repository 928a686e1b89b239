import BinjaHexagon.CMacros
/-!
# MacroValue — the lifted macros, on the integers they hold

What each lifted macro holds, given what its arguments hold.
-/
namespace Hex

open Bytes (norm)
open CInt (Ty Val)

section Bits

variable (E : LiftEnv) (imms : ImmLetter → BitVec 32) (st : PhysState)

/-- What a lifted expression evaluates to. -/
def IlVal.bits (v : IlVal) : BitVec 64 := ((E.expr imms v.expr).map LReg.index).eval st

/-- The integer it stands for at its inferred size and signedness. -/
def IlVal.value (v : IlVal) : Int := (ilTy v.size v.signed).conv (v.bits E imms st).toNat

/-- The expression holds the low bits of `x`. -/
def IlVal.Holds (v : IlVal) (x : Int) : Prop := v.bits E imms st = held v.size x

theorem LiftEnv.expr_size (e : GExpr) : ((E.expr imms e).map LReg.index).size = e.size := by
  cases e with
  | readGp n =>
    simp only [LiftEnv.expr, IlExpr.subst, resolveGp]
    split <;> rfl
  | _ => rfl

theorem bits_unop (o : IlUnop) (size : Nat) (a : IlVal) :
    (IlVal.unop o size a).bits E imms st = o.eval size a.size (a.bits E imms st) := by
  rw [IlVal.size, ← E.expr_size imms a.expr]
  rfl

theorem bits_binop (o : IlBinop) (size : Nat) (a b : IlVal) :
    (IlVal.binop o size a b).bits E imms st = o.eval size (a.bits E imms st) (b.bits E imms st) := rfl

theorem bits_compare (o : IlCompare) (size : Nat) (a b : IlVal) : (IlVal.compare o size a b).bits E imms st =
    if o.eval size (a.bits E imms st) (b.bits E imms st) then 1 else 0 := rfl

theorem holds_const (size n : Nat) : (IlVal.const size n).Holds E imms st n := by
  change norm size (BitVec.ofNat 64 n) = held size n
  rw [← norm_ofInt, BitVec.ofInt_natCast]

variable {E imms st}

theorem IlVal.Holds.value {v : IlVal} {x : Int} (h : v.Holds E imms st x) (hs : v.size ≤ 8) :
    v.value E imms st = (ilTy v.size v.signed).conv x := by
  rw [IlVal.value, h, toNat_held hs]
  exact Ty.conv_conv_of_le (t := ilTy v.size v.signed) (u := ilTy v.size false) (Nat.le_refl _) x

/-- What holds a number holds the integer it stands for. -/
theorem IlVal.Holds.self {v : IlVal} {x : Int} (h : v.Holds E imms st x) (hs : v.size ≤ 8) :
    v.Holds E imms st (v.value E imms st) := by
  rw [h.value hs, Holds, held_conv]
  exact h

theorem IlVal.Holds.congr {v : IlVal} {x y : Int} (h : v.Holds E imms st x)
    (hxy : BitVec.ofInt (8 * v.size) x = BitVec.ofInt (8 * v.size) y) : v.Holds E imms st y :=
  h.trans (held_congr hxy)

theorem IlVal.Holds.unop {a : IlVal} {x : Int} (h : a.Holds E imms st x) (ha : a.size ≤ 8) (o : IlUnop) (size : Nat) :
    (IlVal.unop o size a).Holds E imms st (o.onInt a.size x) := by
  rw [IlVal.Holds, bits_unop, h, IlUnop.eval_held o size ha]
  rfl

theorem IlVal.Holds.binop {a b : IlVal} {x y : Int} (ha : a.Holds E imms st x) (hb : b.Holds E imms st y)
    (hsa : a.size ≤ 8) (hsb : b.size ≤ 8) (o : IlBinop) :
    (IlVal.binop o a.size a b).Holds E imms st (o.onInt a.size b.size x y) := by
  rw [IlVal.Holds, bits_binop, ha, hb, IlBinop.eval_held o hsa hsb]
  rfl

end Bits

section Part

variable {E : LiftEnv} {imms : ImmLetter → BitVec 32} {st : PhysState} {v : IlVal} {x : Int}

theorem IlVal.Holds.shiftRight (h : v.Holds E imms st x) (hs : v.size ≤ 8) {k : Nat} (hk : k < 256) (signed : Bool) :
    (IlVal.binop (if signed then .arithShiftRight else .logicalShiftRight) v.size v (.const 1 k)).Holds E imms st
      ((ilTy v.size signed).conv x >>> k) := by
  have hlit : (ilTy 1 false).conv (k : Int) = k :=
    Ty.fits_unsigned.2 ⟨by omega, by simpa using (by omega : (k : Int) < 256)⟩
  have hone : (IlVal.const 1 k).size = 1 := rfl
  have := h.binop (holds_const E imms st 1 k) hs (show 1 ≤ 8 by decide)
    (if signed then .arithShiftRight else .logicalShiftRight)
  cases signed with
  | true => simpa only [if_true, IlBinop.onInt, hone, hlit, Int.toNat_natCast] using this
  | false => simpa only [Bool.false_eq_true, if_false, IlBinop.onInt, hone, hlit, Int.toNat_natCast] using this

/-- A part holds what is left of the source, read at the part's sign and shifted down. -/
theorem holds_getPart (h : v.Holds E imms st x) (hs : v.size ≤ 8) (part n : Nat) (signed : Bool)
    (hk : n * (8 * part) < 256) :
    (getPart part n signed v).Holds E imms st
      ((ilTy v.size false).conv ((ilTy v.size signed).conv x >>> (n * (8 * part)))) := by
  have hsrc : ({ v with signed } : IlVal).Holds E imms st x := h
  by_cases hn : n = 0
  · rw [getPart, if_pos hn, hn, Nat.zero_mul, Int.shiftRight_zero,
      Ty.conv_conv_of_le (t := ilTy v.size false) (u := ilTy v.size signed) (Nat.le_refl _)]
    exact hsrc.unop hs .lowPart part
  · rw [getPart, if_neg hn]
    exact (hsrc.shiftRight hs hk signed).unop hs .lowPart part

theorem holds_extend (h : v.Holds E imms st x) (hs : v.size ≤ 8) (signed : Bool) (size : Nat) :
    (extend signed size v).Holds E imms st ((ilTy v.size signed).conv x) := by
  cases signed with
  | true => exact h.unop hs .signExtend size
  | false => exact h.unop hs .zeroExtend size

/-- A cast keeps the low bits of a wide value and reads a narrow one at its own sign. -/
theorem holds_cast (h : v.Holds E imms st x) (hs : v.size ≤ 8) (size : Nat) (signed : Bool) :
    (cast size signed v).Holds E imms st ((ilTy v.size signed).conv x) := by
  have hv : ({ v with signed } : IlVal).Holds E imms st x := h
  unfold cast
  by_cases hlt : size < v.size
  · rw [if_pos hlt]
    refine (hv.unop hs .lowPart size).congr (CInt.ofInt_mono (w := 8 * v.size) ?_ ?_)
    · exact Nat.mul_le_mul_left 8 (Nat.le_of_lt hlt)
    · exact ((ilTy v.size false).ofInt_conv x).trans ((ilTy v.size signed).ofInt_conv x).symm
  · rw [if_neg hlt]
    by_cases heq : v.size = size
    · rw [if_pos heq]
      exact hv.congr ((ilTy v.size signed).ofInt_conv x).symm
    · rw [if_neg heq]
      exact holds_extend h hs signed size

end Part

theorem held_bool {s : Nat} (hs : s ≤ 8) (h1 : 1 ≤ s) (c : Bool) : held s
    (if c then 1 else 0) = if c then 1 else 0 := by
  have hpow : (2 : Int) ^ 1 ≤ 2 ^ (8 * s) := pow_le_pow_right₀ (by decide) (by omega)
  have h0 : (0 : Int) ≤ if c then 1 else 0 := by cases c <;> decide
  have hle : (if c then 1 else 0 : Int) ≤ 1 := by cases c <;> decide
  have hfit : (ilTy s false).Fits (if c then 1 else 0) := Ty.fits_unsigned.2 ⟨h0, by omega⟩
  rw [held_eq_ofInt hs, hfit]
  cases c <;> rfl

section Select

variable {E : LiftEnv} {imms : ImmLetter → BitVec 32} {st : PhysState} {a b : IlVal} {x y : Int}

theorem holds_compare (ha : a.Holds E imms st x) (hb : b.Holds E imms st y) (hs : a.size ≤ 8) (hsb : b.size ≤ 8)
    (h1 : 1 ≤ a.size) (o : IlCompare) : (IlVal.compare o a.size a b).Holds E imms st
      (if o.rel ((ilTy a.size o.signed).conv x) ((ilTy a.size o.signed).conv ((ilTy b.size false).conv y))
        then 1 else 0) := by
  rw [IlVal.Holds, bits_compare, ha, hb, IlCompare.eval_held o hs hsb]
  exact (held_bool hs h1 _).symm

theorem holds_factor (ha : a.Holds E imms st x) (hb : b.Holds E imms st y) (hs : a.size ≤ 8) (hsz : b.size = a.size)
    (h1 : 1 ≤ a.size) (o : IlCompare) {z : IlVal} {w : Int} (hz : z.Holds E imms st w) (hzs : z.size = a.size) :
    (IlVal.binop .mult a.size (.unop .boolToInt a.size (.compare o a.size a b)) z).Holds E imms st
      (if o.rel ((ilTy a.size o.signed).conv x) ((ilTy a.size o.signed).conv y) then w else 0) := by
  have hc := (holds_compare ha hb hs (hsz ▸ hs) h1 o).unop (show a.size ≤ 8 from hs) .boolToInt a.size
  have hm := hc.binop hz (show a.size ≤ 8 from hs) (hzs ▸ hs) .mult
  refine hm.congr ?_
  rw [hsz, Ty.conv_conv_of_le (t := ilTy a.size o.signed) (u := ilTy a.size false) (Nat.le_refl _)]
  generalize o.rel ((ilTy a.size o.signed).conv x) ((ilTy a.size o.signed).conv y) = c
  change BitVec.ofInt (8 * a.size) ((ilTy a.size false).conv (if c then 1 else 0) * (ilTy z.size false).conv w) = _
  rw [hzs, BitVec.ofInt_mul, (ilTy a.size false).ofInt_conv, (ilTy a.size false).ofInt_conv, ← BitVec.ofInt_mul]
  cases c with
  | true => rw [if_pos rfl, if_pos rfl, one_mul]; rfl
  | false => rw [if_neg Bool.false_ne_true, if_neg Bool.false_ne_true, zero_mul]; rfl

/-- `(a o b) * a + (a o' b) * b` holds one of the two, where `o'` is the opposite of `o`. -/
theorem holds_select (ha : a.Holds E imms st x) (hb : b.Holds E imms st y) (hs : a.size ≤ 8) (hsz : b.size = a.size)
    (h1 : 1 ≤ a.size) {o o' : IlCompare} (hsg : o'.signed = o.signed) (hop : ∀ p q, o'.rel p q = !o.rel p q) :
    (select o o' a b).Holds E imms st
      (if o.rel ((ilTy a.size o.signed).conv x) ((ilTy a.size o.signed).conv y) then x else y) := by
  have hl := holds_factor ha hb hs hsz h1 o ha rfl
  have hr := holds_factor ha hb hs hsz h1 o' hb hsz
  refine (hl.binop hr (show a.size ≤ 8 from hs) (show a.size ≤ 8 from hs) .add).congr ?_
  change BitVec.ofInt (8 * a.size) (_ + (ilTy a.size false).conv _) = _
  rw [hop, hsg, BitVec.ofInt_add, (ilTy a.size false).ofInt_conv, ← BitVec.ofInt_add]
  cases o.rel ((ilTy a.size o.signed).conv x) ((ilTy a.size o.signed).conv y) with
  | true => exact congrArg _ (add_zero x)
  | false => exact congrArg _ (zero_add y)

end Select
end Hex
