import BinjaHexagon.CMacros
/-!
# FieldMacros — the masks and shifts of the generator beside those of the reference

`preprocess_semantics` puts its own texts for `fZXTN`, `fSXTN`, `fASHIFTL`, `fLSHIFTR` and `fCONSTLL` in the place of
those of `macros.def`.  What a lifted expression holds is said on integers, as in `LiftValue`.
-/
namespace Hex

open Bytes (norm)
open CInt (Ty Val)

namespace GenMacro

def one : Expr := .operand (.intcon 1)

/-- `((VAL) & ((1<<(N))-1))`. -/
def fZXTN (n val : Expr) : Expr := .binop .and val (.binop .sub (.binop .shl one n) one)

/-- `((fZXTN(N,M,VAL) ^ (1<<((N)-1))) - (1<<((N)-1)))`. -/
def fSXTN (n val : Expr) : Expr :=
  .binop .sub (.binop .xor (fZXTN n val) (.binop .shl one (.binop .sub n one))) (.binop .shl one (.binop .sub n one))

/-- `(fCAST8s(SRC) << (SHAMT))`, for the register type `8_8`. -/
def fASHIFTL (src shamt : Expr) : Expr := .binop .shl (.call1 .fCast8s src) shamt

/-- `(fCAST8u(SRC) >> (SHAMT))`. -/
def fLSHIFTR (src shamt : Expr) : Expr := .binop .shr (.call1 .fCast8u src) shamt

/-- `fCAST8s(A)`. -/
def fCONSTLL (a : Expr) : Expr := .call1 .fCast8s a

end GenMacro

namespace CMacro

/-- `((VAL) & ((1LL<<(N))-1))`. -/
def fZXTN (n val : Val) : Option Val :=
  ((valOf (sizes 8) 1).shl n.val).map fun m => val.arith Int.land (m.arith (· - ·) (.int 1))

/-- `((fZXTN(N,M,VAL) ^ (1LL<<((N)-1))) - (1LL<<((N)-1)))`. -/
def fSXTN (n val : Val) : Option Val := do
  let z ← fZXTN n val
  let top ← (valOf (sizes 8) 1).shl (n.arith (· - ·) (.int 1)).val
  some ((z.arith Int.xor top).arith (· - ·) top)

/-- `(((SHAMT) >= 64)?0:(fCAST8_8s(SRC) << (SHAMT)))`. -/
def fASHIFTL (src shamt : Val) : Option Val :=
  if 64 ≤ shamt.val then some (valOf (sizes 8) 0) else (src.cast (sizes 8)).shl shamt.val

/-- `(((SHAMT) >= 64)?0:(fCAST8_8u(SRC) >> (SHAMT)))`. -/
def fLSHIFTR (src shamt : Val) : Option Val :=
  if 64 ≤ shamt.val then some (valOf (sizeu 8) 0) else (src.cast (sizeu 8)).shr shamt.val

/-- `DST = (DST & ~(0x0ffffffffLL<<((N)*32))) | (((VAL) & 0x0ffffffffLL) << ((N)*32))`. -/
def fSETWORD (n : Nat) (dst val : Val) : Option Val := do
  let hole ← (valOf (sizes 8) 0x0ffffffff).shl (n * 32)
  let new ← (val.arith Int.land (valOf (sizes 8) 0x0ffffffff)).shl (n * 32)
  some (((dst.arith Int.land (hole.unary Int.lnot)).arith Int.lor new).cast dst.ty)

end CMacro

section InRange

variable {τ : Type}

def IlBinop.isShift : IlBinop → Bool
  | .shiftLeft | .logicalShiftRight | .arithShiftRight => true
  | .add | .sub | .mult | .or | .and | .xor | .rotateLeft => false

/-- Every shift of the expression has an amount below its operand's width. -/
def IlExpr.ShiftsInRange (s : State τ) : LExpr τ → Prop
  | register _ _ | registerSplit _ _ _ | const _ _ | constPointer _ _ | readGp _ => True
  | unop _ _ a | load _ a => a.ShiftsInRange s
  | binop o n a b => (o.isShift = true → (b.eval s).toNat < 8 * n) ∧ a.ShiftsInRange s ∧ b.ShiftsInRange s
  | compare _ _ a b => a.ShiftsInRange s ∧ b.ShiftsInRange s

end InRange

/-- The operators whose low bits depend on low bits only, with what they do to integers. -/
inductive IlBinop.Arith : IlBinop → (Int → Int → Int) → Prop where
  | add : Arith .add (· + ·)
  | sub : Arith .sub (· - ·)
  | mult : Arith .mult (· * ·)
  | or : Arith .or Int.lor
  | and : Arith .and Int.land
  | xor : Arith .xor Int.xor

namespace IlBinop.Arith

variable {o : IlBinop} {f : Int → Int → Int}

theorem onInt (h : o.Arith f) (size sb : Nat) (x y : Int) : o.onInt size sb x y = f x ((ilTy sb false).conv y) := by
  cases h <;> rfl

theorem congr (h : o.Arith f) {w : Nat} {x x' y y' : Int} (hx : BitVec.ofInt w x = BitVec.ofInt w x')
    (hy : BitVec.ofInt w y = BitVec.ofInt w y') : BitVec.ofInt w (f x y) = BitVec.ofInt w (f x' y') := by
  cases h with
  | add => rw [BitVec.ofInt_add, BitVec.ofInt_add, hx, hy]
  | sub => simp only [Int.sub_eq_add_neg, BitVec.ofInt_add, BitVec.ofInt_neg, hx, hy]
  | mult => rw [BitVec.ofInt_mul, BitVec.ofInt_mul, hx, hy]
  | or => rw [CInt.ofInt_lor, CInt.ofInt_lor, hx, hy]
  | and => rw [CInt.ofInt_land, CInt.ofInt_land, hx, hy]
  | xor => rw [CInt.ofInt_lxor, CInt.ofInt_lxor, hx, hy]

/-- The low bits of C's result are those of the integer one. -/
theorem ofInt_arith (h : o.Arith f) {w : Nat} {x y : Val} (hw : w ≤ (x.ty.common y.ty).bits) :
    BitVec.ofInt w (x.arith f y).val = BitVec.ofInt w (f x.val y.val) :=
  (Ty.ofInt_conv_of_le hw _).trans (h.congr (Ty.ofInt_conv_of_le hw _) (Ty.ofInt_conv_of_le hw _))

end IlBinop.Arith

section Holds

variable {τ : Type} {s : State τ} {a b : LExpr τ} {n m : Nat} {x y : Int}

/-- The expression evaluates to the low `n` bytes of an integer. -/
def IlExpr.HoldsAt (s : State τ) (n : Nat) (a : LExpr τ) (x : Int) : Prop := a.eval s = held n x

namespace IlExpr.HoldsAt

theorem congr (h : a.HoldsAt s n x) (hxy : BitVec.ofInt (8 * n) x = BitVec.ofInt (8 * n) y) : a.HoldsAt s n y :=
  h.trans (held_congr hxy)

theorem const (n : Nat) (x : Int) : (IlExpr.const n (BitVec.ofInt 64 x) : LExpr τ).HoldsAt s n x := norm_ofInt n x

theorem lit (n k : Nat) : (IlExpr.const n (BitVec.ofNat 64 k) : LExpr τ).HoldsAt s n k := by
  rw [← BitVec.ofInt_natCast]
  exact const n k

/-- A number without sign is the same at every size that has room for it. -/
theorem widen (h : a.HoldsAt s m x) (hm : m ≤ 8) (hn : n ≤ 8) (hx : (ilTy m false).Fits x)
    (hx' : (ilTy n false).Fits x) :
    a.HoldsAt s n x := by
  rw [HoldsAt, held_eq_ofInt hn, hx', ← hx, ← held_eq_ofInt hm]
  exact h

theorem toNat (h : a.HoldsAt s n x) (hn : n ≤ 8) (hx : (ilTy n false).Fits x) : (a.eval s).toNat = x.toNat := by
  rw [h, ← Int.toNat_natCast (held n x).toNat, toNat_held hn, hx]

theorem unop (o : IlUnop) (n : Nat) (h : a.HoldsAt s m x) (hsz : a.size = m) (hm : m ≤ 8) :
    (IlExpr.unop o n a).HoldsAt s n (o.onInt m x) := by
  rw [HoldsAt, IlExpr.eval, hsz, h, IlUnop.eval_held o n hm]

theorem not (h : a.HoldsAt s n x) (hsz : a.size = n) (hn : n ≤ 8) :
    (IlExpr.unop .not n a).HoldsAt s n (Int.lnot x) := by
  refine (h.unop .not n hsz hn).congr ?_
  rw [IlUnop.onInt, CInt.ofInt_lnot, CInt.ofInt_lnot]
  exact congrArg _ ((ilTy n false).ofInt_conv x)

theorem arith {o : IlBinop} {f : Int → Int → Int} (ho : o.Arith f) (ha : a.HoldsAt s n x) (hb : b.HoldsAt s m y)
    (hn : n ≤ 8) (hm : m ≤ 8) (hy : n ≤ m ∨ (ilTy m false).Fits y) : (IlExpr.binop o n a b).HoldsAt s n (f x y) := by
  have hlow : BitVec.ofInt (8 * n) ((ilTy m false).conv y) = BitVec.ofInt (8 * n) y := by
    rcases hy with hy | hy
    · exact Ty.ofInt_conv_of_le (t := ilTy m false) (Nat.mul_le_mul_left 8 hy) y
    · rw [hy]
  rw [HoldsAt, IlExpr.eval, ha, hb, IlBinop.eval_held o hn hm, ho.onInt]
  exact held_congr (ho.congr rfl hlow)

theorem shl (ha : a.HoldsAt s n x) (hb : b.HoldsAt s m y) (hn : n ≤ 8) (hm : m ≤ 8) (hy : (ilTy m false).Fits y) :
    (IlExpr.binop .shiftLeft n a b).HoldsAt s n (x * 2 ^ y.toNat) := by
  rw [HoldsAt, IlExpr.eval, ha, hb, IlBinop.eval_held .shiftLeft hn hm, IlBinop.onInt, hy]

theorem shr (ha : a.HoldsAt s n x) (hb : b.HoldsAt s m y) (hn : n ≤ 8) (hm : m ≤ 8) (hy : (ilTy m false).Fits y) :
    (IlExpr.binop .logicalShiftRight n a b).HoldsAt s n ((ilTy n false).conv x >>> y.toNat) := by
  rw [HoldsAt, IlExpr.eval, ha, hb, IlBinop.eval_held .logicalShiftRight hn hm, IlBinop.onInt, hy]

theorem sar (ha : a.HoldsAt s n x) (hb : b.HoldsAt s m y) (hn : n ≤ 8) (hm : m ≤ 8) (hy : (ilTy m false).Fits y) :
    (IlExpr.binop .arithShiftRight n a b).HoldsAt s n ((ilTy n true).conv x >>> y.toNat) := by
  rw [HoldsAt, IlExpr.eval, ha, hb, IlBinop.eval_held .arithShiftRight hn hm, IlBinop.onInt, hy]

end IlExpr.HoldsAt

end Holds

/-- A mask of ones does not see what a conversion to their number of bits changes. -/
theorem land_ones_conv (w b : Nat) (x : Int) : BitVec.ofInt w (Int.land ((⟨b, false⟩ : Ty).conv x) (2 ^ b - 1 : Nat)) =
    BitVec.ofInt w (Int.land x (2 ^ b - 1 : Nat)) := by
  refine CInt.ofInt_eq_iff.2 fun i _ => ?_
  rw [Int.testBit_land, Int.testBit_land, show Int.testBit ((2 ^ b - 1 : Nat) : Int) i = (2 ^ b - 1).testBit i from rfl,
    Nat.testBit_two_pow_sub_one]
  by_cases h : i < b
  · rw [CInt.ofInt_eq_iff.1 ((⟨b, false⟩ : Ty).ofInt_conv x) i h]
  · rw [decide_eq_false h, Bool.and_false, Bool.and_false]

/-- The low `n` bits of an integer, and the same with the top one of them copied upwards. -/
def zxt (n : Nat) (x : Int) : Int := Int.land x (2 ^ n - 1)
def sxt (n : Nat) (x : Int) : Int := Int.xor (zxt n x) (2 ^ (n - 1)) - 2 ^ (n - 1)

/-- An integer with its `k`th word replaced. -/
def setWord (k : Nat) (d x : Int) : Int :=
  Int.lor (Int.land d (Int.lnot (0xffffffff * 2 ^ (k * 32)))) (Int.land x 0xffffffff * 2 ^ (k * 32))

theorem setWord_congr {k : Nat} {d d' x x' : Int} (hd : BitVec.ofInt 64 d = BitVec.ofInt 64 d')
    (hx : BitVec.ofInt 64 x = BitVec.ofInt 64 x') :
    BitVec.ofInt 64 (setWord k d x) = BitVec.ofInt 64 (setWord k d' x') := by
  refine IlBinop.Arith.or.congr (IlBinop.Arith.and.congr hd rfl) ?_
  rw [CInt.ofInt_mul_two_pow, CInt.ofInt_mul_two_pow, CInt.ofInt_land, CInt.ofInt_land, hx]

theorem zxt_congr {w n : Nat} {x y : Int} (h : BitVec.ofInt w x = BitVec.ofInt w y) :
    BitVec.ofInt w (zxt n x) = BitVec.ofInt w (zxt n y) := IlBinop.Arith.and.congr h rfl

theorem sxt_congr {w n : Nat} {x y : Int} (h : BitVec.ofInt w x = BitVec.ofInt w y) :
    BitVec.ofInt w (sxt n x) = BitVec.ofInt w (sxt n y) :=
  IlBinop.Arith.sub.congr (IlBinop.Arith.xor.congr (zxt_congr h) rfl) rfl

namespace CMacro

/-- An `int` or wider type has room for a small number. -/
theorem fits_common {x : Int} (h0 : 0 ≤ x) (h1 : x < 2 ^ 31) (t u : Ty) : (t.common u).Fits x := by
  have hprom : 32 ≤ t.promote.bits := by
    unfold Ty.promote
    split
    · exact Nat.le_refl 32
    · omega
  have hbits : 32 ≤ (t.common u).bits := by rw [Ty.bits_common]; exact Nat.le_trans hprom (Nat.le_max_left _ _)
  have hfit : (⟨31, false⟩ : Ty).Fits x := Ty.fits_unsigned.2 ⟨h0, h1⟩
  cases hs : (t.common u).signed with
  | true => exact hfit.mono (.inr ⟨show 31 < _ by omega, hs⟩)
  | false => exact hfit.mono (.inl ⟨show 31 ≤ _ by omega, hs.symm⟩)

variable {n val : Val}

theorem one_shl {k : Int} (h0 : 0 ≤ k) (h1 : k < 64) : ∃ y, (valOf (sizes 8) 1).shl k = some y ∧ y.ty = sizes 8 ∧
    BitVec.ofInt 64 y.val = BitVec.ofInt 64 (2 ^ k.toNat) := by
  refine ⟨_, if_pos ⟨h0, h1⟩, rfl, ?_⟩
  refine ((sizes 8).ofInt_conv _).trans (congrArg _ ?_)
  rw [show (valOf (sizes 8) 1).val = 1 from rfl, one_mul]

theorem fZXTN_bits (h0 : 0 ≤ n.val) (h1 : n.val < 64) : ∃ y, fZXTN n val = some y ∧ (y.ty = val.ty.common (sizes 8)) ∧
    ∀ w ≤ 64, BitVec.ofInt w y.val = BitVec.ofInt w (zxt n.val.toNat val.val) := by
  obtain ⟨m, hm, hty, hbits⟩ := one_shl h0 h1
  have hmty : (m.arith (· - ·) (.int 1)).ty = sizes 8 := by
    change m.ty.common ⟨32, true⟩ = _
    rw [hty]
    rfl
  refine ⟨_, by rw [fZXTN, hm]; rfl, by rw [← hmty]; rfl, fun w hw => ?_⟩
  have h64 : 64 ≤ (val.ty.common (m.arith (· - ·) (.int 1)).ty).bits := by
    rw [hmty, Ty.bits_common]
    exact Nat.le_max_right _ _
  have hsub : 64 ≤ (m.ty.common (Val.int 1).ty).bits := by
    rw [hty]
    exact Nat.le_refl 64
  refine (IlBinop.Arith.and.ofInt_arith (Nat.le_trans hw h64)).trans (IlBinop.Arith.and.congr rfl ?_)
  refine CInt.ofInt_mono hw ((IlBinop.Arith.sub.ofInt_arith hsub).trans ?_)
  exact IlBinop.Arith.sub.congr hbits rfl

theorem fSXTN_bits (h0 : 1 ≤ n.val) (h1 : n.val < 64) : ∃ y, fSXTN n val = some y ∧
    ∀ w ≤ 64, BitVec.ofInt w y.val = BitVec.ofInt w (sxt n.val.toNat val.val) := by
  obtain ⟨z, hz, hty, hbits⟩ := @fZXTN_bits n val (by omega) h1
  have hpred : (n.arith (· - ·) (.int 1)).val = n.val - 1 := by
    change (n.ty.common ⟨32, true⟩).conv ((n.ty.common ⟨32, true⟩).conv n.val - (n.ty.common ⟨32, true⟩).conv 1) = _
    have hn : (n.ty.common ⟨32, true⟩).Fits n.val := fits_common (by omega) (by omega) _ _
    have h1 : (n.ty.common ⟨32, true⟩).Fits 1 := fits_common (by decide) (by decide) _ _
    have hsub : (n.ty.common ⟨32, true⟩).Fits (n.val - 1) := fits_common (by omega) (by omega) _ _
    rw [hn, h1, hsub]
  obtain ⟨m, hm, hmty, hmbits⟩ := one_shl (k := n.val - 1) (by omega) (by omega)
  refine ⟨_, by rw [fSXTN, hz, hpred]; simp only [Option.bind_eq_bind, Option.bind_some, hm]; rfl, fun w hw => ?_⟩
  have h64 (t : Ty) : 64 ≤ (t.common m.ty).bits := by
    rw [hmty, Ty.bits_common]
    exact Nat.le_max_right _ _
  have hk : (n.val - 1).toNat = n.val.toNat - 1 := by omega
  rw [hk] at hmbits
  refine CInt.ofInt_mono hw ((IlBinop.Arith.sub.ofInt_arith (h64 _)).trans (IlBinop.Arith.sub.congr ?_ hmbits))
  exact (IlBinop.Arith.xor.ofInt_arith (h64 _)).trans (IlBinop.Arith.xor.congr (hbits 64 (Nat.le_refl 64)) hmbits)

theorem val_int {k : Int} (h0 : 0 ≤ k) (h1 : k < 2 ^ 31) : (Val.int k).val = k :=
  (Ty.fits_signed.2 ⟨by omega, h1⟩ : (⟨31 + 1, true⟩ : Ty).Fits k)

theorem arith_small {f : Int → Int → Int} {a b : Val} (ha : 0 ≤ a.val ∧ a.val < 2 ^ 31)
    (hb : 0 ≤ b.val ∧ b.val < 2 ^ 31)
    (hf : 0 ≤ f a.val b.val ∧ f a.val b.val < 2 ^ 31) : (a.arith f b).val = f a.val b.val := by
  change (a.ty.common b.ty).conv (f ((a.ty.common b.ty).conv a.val) ((a.ty.common b.ty).conv b.val)) = _
  have hfa := fits_common ha.1 ha.2 a.ty b.ty
  have hfb := fits_common hb.1 hb.2 a.ty b.ty
  rw [hfa, hfb]
  exact fits_common hf.1 hf.2 a.ty b.ty

variable {v : Val} {k : Int}

theorem shr_cast {n : Nat} (hn : n = 4 ∨ n = 8) (h0 : 0 ≤ k) (h1 : k < (8 * n : Nat)) :
    ∃ y, (v.cast (sizeu n)).shr k = some y ∧ y.val = (ilTy n false).conv v.val >>> k.toNat := by
  have hprom : (sizeu n).promote = sizeu n := if_neg (show ¬8 * n < 32 by omega)
  refine ⟨_, if_pos ⟨h0, by rw [show (v.cast (sizeu n)).ty = sizeu n from rfl, hprom]; exact h1⟩, ?_⟩
  change (sizeu n).promote.conv ((sizeu n).conv v.val >>> k.toNat) = _
  rw [hprom]
  exact (Ty.fits_conv (sizeu n) v.val).shiftRight k.toNat

theorem shl_bits (h0 : 0 ≤ k) (h1 : k < v.ty.promote.bits) : ∃ y, v.shl k = some y ∧ y.ty = v.ty.promote ∧
    BitVec.ofInt v.ty.promote.bits y.val = BitVec.ofInt v.ty.promote.bits (v.val * 2 ^ k.toNat) :=
  ⟨_, if_pos ⟨h0, h1⟩, rfl, Ty.ofInt_conv _ _⟩

theorem fASHIFTL_bits {shamt : Val} (h0 : 0 ≤ shamt.val) (h1 : shamt.val < 64) : ∃ y, fASHIFTL v shamt = some y ∧
    y.ty = sizes 8 ∧ BitVec.ofInt 64 y.val = BitVec.ofInt 64 (v.val * 2 ^ shamt.val.toNat) := by
  obtain ⟨y, hy, hty, hbits⟩ := shl_bits (v := v.cast (sizes 8)) h0 h1
  refine ⟨y, (if_neg (by omega)).trans hy, hty, hbits.trans ?_⟩
  change BitVec.ofInt 64 ((sizes 8).conv v.val * 2 ^ shamt.val.toNat) = _
  rw [CInt.ofInt_mul_two_pow, CInt.ofInt_mul_two_pow,
    show BitVec.ofInt 64 ((sizes 8).conv v.val) = BitVec.ofInt 64 v.val from
    (sizes 8).ofInt_conv v.val]

theorem fLSHIFTR_bits {shamt : Val} (h0 : 0 ≤ shamt.val) (h1 : shamt.val < 64) : ∃ y, fLSHIFTR v shamt = some y ∧
    y.ty = sizeu 8 ∧ y.val = (ilTy 8 false).conv v.val >>> shamt.val.toNat := by
  obtain ⟨y, hy, hval⟩ := shr_cast (v := v) (n := 8) (.inr rfl) h0 h1
  have hty : y.ty = sizeu 8 := by
    rw [Val.shr, Option.ite_none_right_eq_some] at hy
    cases hy.2
    rfl
  exact ⟨y, (if_neg (by omega)).trans hy, hty, hval⟩

theorem le_common (t u : Ty) (h : 64 ≤ u.promote.bits) : 64 ≤ (t.common u).bits := by
  rw [Ty.bits_common]
  exact Nat.le_trans h (Nat.le_max_right _ _)

theorem fSETWORD_bits {n : Nat} {dst val : Val} (hn : n < 2) (hd : dst.ty = sizes 8) : ∃ y,
    fSETWORD n dst val = some y ∧
    y.ty = sizes 8 ∧ BitVec.ofInt 64 y.val = BitVec.ofInt 64 (setWord n dst.val val.val) := by
  have hlt : (n : Int) * 32 < 64 := by omega
  have hk : ((n : Int) * 32).toNat = n * 32 := by omega
  obtain ⟨hole, hhole, hhty, hhbits⟩ := shl_bits (v := valOf (sizes 8) 0x0ffffffff) (k := (n : Int) * 32) (by omega) hlt
  have hmty : 64 ≤ (val.ty.common (sizes 8)).bits := le_common _ _ (Nat.le_refl 64)
  have hpty : 64 ≤ (val.ty.common (sizes 8)).promote.bits := by
    unfold Ty.promote
    split
    · omega
    · exact hmty
  obtain ⟨new, hnew, hnty, hnbits⟩ := shl_bits (v := val.arith Int.land (valOf (sizes 8) 0x0ffffffff)) (k :=
    (n : Int) * 32)
    (by omega) (Int.lt_of_lt_of_le hlt (by exact_mod_cast hpty))
  refine ⟨((dst.arith Int.land (hole.unary Int.lnot)).arith Int.lor new).cast dst.ty,
    by rw [fSETWORD, hhole]; simp only [Option.bind_eq_bind, Option.bind_some, hnew], hd, ?_⟩
  have hcast (z : Val) : BitVec.ofInt 64 (z.cast dst.ty).val = BitVec.ofInt 64 z.val := by
    rw [hd]
    exact (sizes 8).ofInt_conv z.val
  have hn64 : 64 ≤ new.ty.promote.bits := by
    rw [hnty, Ty.promote_promote]
    exact hpty
  have hh64 : 64 ≤ (hole.unary Int.lnot).ty.promote.bits := by
    change 64 ≤ hole.ty.promote.promote.bits
    rw [hhty]
    exact Nat.le_refl 64
  refine (hcast _).trans ((IlBinop.Arith.or.ofInt_arith (le_common _ _ hn64)).trans (IlBinop.Arith.or.congr ?_ ?_))
  · refine (IlBinop.Arith.and.ofInt_arith (le_common _ _ hh64)).trans (IlBinop.Arith.and.congr rfl ?_)
    have hnot : BitVec.ofInt 64 (hole.unary Int.lnot).val = BitVec.ofInt 64 (Int.lnot hole.val) := by
      change BitVec.ofInt 64 (hole.ty.promote.conv (Int.lnot hole.val)) = _
      rw [hhty]
      exact (sizes 8).ofInt_conv _
    rw [hnot, CInt.ofInt_lnot, CInt.ofInt_lnot, ← hk]
    exact congrArg _ hhbits
  · rw [← hk]
    refine (CInt.ofInt_mono hpty hnbits).trans ?_
    rw [CInt.ofInt_mul_two_pow, CInt.ofInt_mul_two_pow, IlBinop.Arith.and.ofInt_arith hmty]
    rfl

end CMacro

end Hex
