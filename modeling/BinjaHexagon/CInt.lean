import Mathlib.Data.BitVec
import Mathlib.Data.Int.Bitwise
import Mathlib.Tactic.Linarith
import Mathlib.Tactic.Positivity
import Mathlib.Tactic.Ring
/-!
# CInt — the integers of C

A type is a width and a sign; a value of it is an integer that fits.  `conv` is C's conversion: the value that fits and
has the same low bits.  Operators promote what is narrower than `int` and bring both sides to their common type; what
does not fit the result wraps.
-/
namespace CInt

structure Ty where
  bits : Nat
  signed : Bool
  deriving Repr, DecidableEq

/-- `(t)(x)`. -/
def Ty.conv (t : Ty) (x : Int) : Int :=
  if t.signed then (BitVec.ofInt t.bits x).toInt else (BitVec.ofInt t.bits x).toNat

/-- The values of a type are those it does not change. -/
def Ty.Fits (t : Ty) (x : Int) : Prop := t.conv x = x

instance (t : Ty) (x : Int) : Decidable (t.Fits x) := inferInstanceAs (Decidable (_ = _))

theorem getLsbD_ofInt (w : Nat) (x : Int) (i : Nat) :
    (BitVec.ofInt w x).getLsbD i = (decide (i < w) && x.testBit i) := by
  cases x with
  | ofNat n => simp [Int.testBit, BitVec.getLsbD_ofNat]
  | negSucc n =>
    rw [BitVec.ofInt_negSucc_eq_not_ofNat, BitVec.getLsbD_not, BitVec.getLsbD_ofNat, Int.testBit]
    by_cases h : i < w <;> simp [h]

theorem ofInt_eq_iff {w : Nat} {x y : Int} :
    BitVec.ofInt w x = BitVec.ofInt w y ↔ ∀ i < w, x.testBit i = y.testBit i := by
  constructor
  · intro h i hi
    have := congrArg (BitVec.getLsbD · i) h
    simpa only [getLsbD_ofInt, hi, decide_true, Bool.true_and] using this
  · intro h
    refine BitVec.eq_of_getLsbD_eq fun i hi => ?_
    rw [getLsbD_ofInt, getLsbD_ofInt, h i hi]

/-- The low `w` bits count up to `2 ^ w`. -/
theorem ofInt_add_pow (w : Nat) (x : Int) : BitVec.ofInt w (x + 2 ^ w) = BitVec.ofInt w x := by
  refine BitVec.eq_of_toNat_eq ?_
  rw [BitVec.toNat_ofInt, BitVec.toNat_ofInt]
  push_cast
  rw [Int.add_emod_right]

theorem ofInt_sub_pow (w : Nat) (x : Int) : BitVec.ofInt w (x - 2 ^ w) = BitVec.ofInt w x := by
  rw [← ofInt_add_pow w (x - 2 ^ w), Int.sub_add_cancel]

theorem ofInt_mono {v w : Nat} {x y : Int} (hvw : v ≤ w) (h : BitVec.ofInt w x = BitVec.ofInt w y) :
    BitVec.ofInt v x = BitVec.ofInt v y :=
  ofInt_eq_iff.2 fun i hi => ofInt_eq_iff.1 h i (Nat.lt_of_lt_of_le hi hvw)

theorem testBit_shiftRight (x : Int) (k i : Nat) : (x >>> k).testBit i = x.testBit (k + i) := by
  cases x with
  | ofNat n => exact Nat.testBit_shiftRight n
  | negSucc n => exact congrArg not (Nat.testBit_shiftRight n)

/-- From its width on, the bits of an integer are its sign. -/
theorem testBit_of_bounds {w j : Nat} {x : Int} (h0 : -2 ^ w ≤ x) (h1 : x < 2 ^ w) (hj : w ≤ j) :
    x.testBit j = decide (x < 0) := by
  have hp : 2 ^ w ≤ 2 ^ j := Nat.pow_le_pow_right (by decide) hj
  cases x with
  | ofNat n =>
    have hn : n < 2 ^ w := by
      have : (n : Int) < ((2 ^ w : Nat) : Int) := by push_cast; exact h1
      exact_mod_cast this
    have hneg : ¬((n : Int) < 0) := by omega
    exact (Nat.testBit_lt_two_pow (Nat.lt_of_lt_of_le hn hp)).trans (decide_eq_false hneg).symm
  | negSucc n =>
    have hn : n < 2 ^ w := by
      have : (n : Int) < ((2 ^ w : Nat) : Int) := by push_cast; rw [Int.negSucc_eq] at h0; omega
      exact_mod_cast this
    rw [Int.testBit, Nat.testBit_lt_two_pow (Nat.lt_of_lt_of_le hn hp)]
    exact (decide_eq_true (Int.negSucc_lt_zero n)).symm

theorem ofInt_shiftRight_congr {w k : Nat} {x y : Int} (h : BitVec.ofInt (k + w) x = BitVec.ofInt (k + w) y) :
    BitVec.ofInt w (x >>> k) = BitVec.ofInt w (y >>> k) :=
  ofInt_eq_iff.2 fun i hi => by
    rw [testBit_shiftRight, testBit_shiftRight, ofInt_eq_iff.1 h (k + i) (by omega)]

theorem ofInt_land (w : Nat) (x y : Int) : BitVec.ofInt w (Int.land x y) = BitVec.ofInt w x &&& BitVec.ofInt w y := by
  refine BitVec.eq_of_getLsbD_eq fun i hi => ?_
  rw [BitVec.getLsbD_and, getLsbD_ofInt, getLsbD_ofInt, getLsbD_ofInt, Int.testBit_land]
  simp [hi]

theorem ofInt_lor (w : Nat) (x y : Int) : BitVec.ofInt w (Int.lor x y) = BitVec.ofInt w x ||| BitVec.ofInt w y := by
  refine BitVec.eq_of_getLsbD_eq fun i hi => ?_
  rw [BitVec.getLsbD_or, getLsbD_ofInt, getLsbD_ofInt, getLsbD_ofInt, Int.testBit_lor]
  simp [hi]

theorem ofInt_lxor (w : Nat) (x y : Int) : BitVec.ofInt w (Int.xor x y) = BitVec.ofInt w x ^^^ BitVec.ofInt w y := by
  refine BitVec.eq_of_getLsbD_eq fun i hi => ?_
  rw [BitVec.getLsbD_xor, getLsbD_ofInt, getLsbD_ofInt, getLsbD_ofInt, Int.testBit_lxor]
  simp [hi]

theorem ofInt_lnot (w : Nat) (x : Int) : BitVec.ofInt w (Int.lnot x) = ~~~BitVec.ofInt w x := by
  refine BitVec.eq_of_getLsbD_eq fun i hi => ?_
  rw [BitVec.getLsbD_not, getLsbD_ofInt, getLsbD_ofInt, Int.testBit_lnot]
  simp [hi]

theorem ofInt_mul_two_pow (w : Nat) (x : Int) (k : Nat) : BitVec.ofInt w (x * 2 ^ k) = BitVec.ofInt w x <<< k := by
  have h : BitVec.ofInt w (2 ^ k : Int) = BitVec.twoPow w k := by
    refine BitVec.eq_of_toNat_eq ?_
    have hk : (2 ^ k : Int) = ((2 ^ k : Nat) : Int) := by push_cast; rfl
    rw [hk, BitVec.ofInt_natCast, BitVec.toNat_ofNat, BitVec.toNat_twoPow]
  rw [BitVec.shiftLeft_eq_mul_twoPow, BitVec.ofInt_mul, h]

/-- A mask of `k` ones keeps the low `k` bits. -/
theorem ofInt_land_mask (k : Nat) (x : Int) : BitVec.ofInt k (Int.land x (2 ^ k - 1 : Nat)) = BitVec.ofInt k x :=
  ofInt_eq_iff.2 fun i hi => by
    rw [Int.testBit_land, show Int.testBit ((2 ^ k - 1 : Nat) : Int) i = (2 ^ k - 1).testBit i from rfl,
      Nat.testBit_two_pow_sub_one, decide_eq_true hi, Bool.and_true]

namespace Ty

variable {t u : Ty} {x y : Int}

@[simp] theorem ofInt_conv (t : Ty) (x : Int) : BitVec.ofInt t.bits (t.conv x) = BitVec.ofInt t.bits x := by
  unfold conv
  split
  · exact BitVec.ofInt_toInt
  · rw [BitVec.ofInt_natCast, BitVec.ofNat_toNat, BitVec.setWidth_eq]

theorem conv_eq_iff : t.conv x = t.conv y ↔ BitVec.ofInt t.bits x = BitVec.ofInt t.bits y := by
  constructor
  · intro h
    rw [← ofInt_conv t x, h, ofInt_conv]
  · intro h
    simp only [conv, h]

@[simp] theorem conv_conv (t : Ty) (x : Int) : t.conv (t.conv x) = t.conv x := conv_eq_iff.2 (ofInt_conv t x)

theorem fits_conv (t : Ty) (x : Int) : t.Fits (t.conv x) := conv_conv t x

theorem Fits.eq (hx : t.Fits x) (hy : t.Fits y) (h : BitVec.ofInt t.bits x = BitVec.ofInt t.bits y) : x = y := by
  rw [← hx, ← hy, conv_eq_iff.2 h]

theorem Fits.conv_eq (hy : t.Fits y) (h : BitVec.ofInt t.bits x = BitVec.ofInt t.bits y) : t.conv x = y :=
  (t.fits_conv x).eq hy ((t.ofInt_conv x).trans h)

/-- Low bits go through a conversion to a type that has them. -/
theorem ofInt_conv_of_le {w : Nat} (h : w ≤ t.bits) (x : Int) : BitVec.ofInt w (t.conv x) = BitVec.ofInt w x :=
  ofInt_mono h (ofInt_conv t x)

/-- A conversion to a narrower type looks at low bits only. -/
theorem conv_conv_of_le {t u : Ty} (h : t.bits ≤ u.bits) (x : Int) : t.conv (u.conv x) = t.conv x :=
  conv_eq_iff.2 (ofInt_mono h (ofInt_conv u x))

theorem conv_unsigned (b : Nat) (x : Int) : (⟨b, false⟩ : Ty).conv x = x % 2 ^ b := by
  simp only [conv, Bool.false_eq_true, if_false, BitVec.toNat_ofInt]
  exact_mod_cast Int.toNat_of_nonneg (Int.emod_nonneg _ (by positivity))

theorem conv_signed (b : Nat) (x : Int) : (⟨b, true⟩ : Ty).conv x = x.bmod (2 ^ b) := by
  simp only [conv, if_true, BitVec.toInt_ofInt]

theorem fits_unsigned {b : Nat} : (⟨b, false⟩ : Ty).Fits x ↔ 0 ≤ x ∧ x < 2 ^ b := by
  rw [Fits, conv_unsigned]
  have hpos : (0 : Int) < 2 ^ b := by positivity
  constructor
  · intro h
    exact ⟨h ▸ Int.emod_nonneg _ hpos.ne', h ▸ Int.emod_lt_of_pos _ hpos⟩
  · rintro ⟨h0, h1⟩
    exact Int.emod_eq_of_lt h0 h1

theorem fits_signed {b : Nat} : (⟨b + 1, true⟩ : Ty).Fits x ↔ -2 ^ b ≤ x ∧ x < 2 ^ b := by
  have hp : ((2 ^ (b + 1) : Nat) : Int) = 2 * 2 ^ b := by push_cast; ring
  have hpos : (0 : Int) < 2 ^ b := by positivity
  rw [Fits, conv_signed]
  constructor
  · intro h
    have h1 := Int.le_bmod (x := x) (m := 2 ^ (b + 1)) (by positivity)
    have h2 := Int.bmod_lt (x := x) (m := 2 ^ (b + 1)) (by positivity)
    rw [h, hp] at h1 h2
    omega
  · rintro ⟨h0, h1⟩
    exact Int.bmod_eq_of_le_mul_two (by rw [hp]; omega) (by rw [hp]; omega)

/-- What fits a type fits a wider one of its sign, and any wider signed one. -/
theorem Fits.mono (h : t.Fits x) (hu : t.bits ≤ u.bits ∧ t.signed = u.signed ∨ t.bits < u.bits ∧ u.signed = true) :
    u.Fits x := by
  obtain ⟨b, sg⟩ := t
  obtain ⟨c, sg'⟩ := u
  dsimp only at hu
  cases sg' with
  | false =>
    obtain ⟨hbc, rfl⟩ : b ≤ c ∧ sg = false := by simpa using hu
    have hp : (2 : Int) ^ b ≤ 2 ^ c := pow_le_pow_right₀ (by decide) hbc
    obtain ⟨h0, h1⟩ := fits_unsigned.1 h
    exact fits_unsigned.2 ⟨h0, by omega⟩
  | true =>
    cases c with
    | zero =>
      obtain ⟨hb, rfl⟩ : b = 0 ∧ sg = true := by simpa using hu
      exact hb ▸ h
    | succ c =>
      refine fits_signed.2 ?_
      cases sg with
      | false =>
        have hp : (2 : Int) ^ b ≤ 2 ^ c := pow_le_pow_right₀ (by decide) (by simp at hu; omega)
        obtain ⟨h0, h1⟩ := fits_unsigned.1 h
        exact ⟨by omega, by omega⟩
      | true =>
        cases b with
        | zero =>
          have h0 : x = 0 := by simpa [Fits, conv_signed, Int.bmod_one] using h.symm
          have : (0 : Int) < 2 ^ c := by positivity
          exact ⟨by omega, by omega⟩
        | succ b =>
          have hp : (2 : Int) ^ b ≤ 2 ^ c := pow_le_pow_right₀ (by decide) (by simp at hu; omega)
          obtain ⟨h0, h1⟩ := fits_signed.1 h
          exact ⟨by omega, by omega⟩

theorem Fits.shiftRight (h : t.Fits x) (k : Nat) : t.Fits (x >>> k) := by
  have hpos : (0 : Int) < 2 ^ k := by positivity
  have hone : (1 : Int) ≤ 2 ^ k := hpos
  have hdiv : x >>> k = x / 2 ^ k := by rw [Int.shiftRight_eq_div_pow]; push_cast; rfl
  obtain ⟨b, sg⟩ := t
  rw [hdiv]
  cases sg with
  | false =>
    obtain ⟨h0, h1⟩ := fits_unsigned.1 h
    exact fits_unsigned.2 ⟨Int.ediv_nonneg h0 hpos.le, Int.lt_of_le_of_lt (Int.ediv_le_self _ h0) h1⟩
  | true =>
    cases b with
    | zero =>
      have h0 : x = 0 := by simpa [Fits, conv_signed, Int.bmod_one] using h.symm
      rw [h0, Int.zero_ediv]
      exact h0 ▸ h
    | succ b =>
      obtain ⟨h0, h1⟩ := fits_signed.1 h
      refine fits_signed.2 ⟨(Int.le_ediv_iff_mul_le hpos).2 ?_, Int.ediv_lt_of_lt_mul hpos ?_⟩
      · have : (0 : Int) < 2 ^ b := by positivity
        nlinarith
      · have : (0 : Int) < 2 ^ b := by positivity
        nlinarith

theorem fits_zero (t : Ty) : t.Fits 0 := by
  obtain ⟨b, sg⟩ := t
  cases sg <;> simp [Fits, conv]

/-- The integer promotions. -/
def promote (t : Ty) : Ty := if t.bits < 32 then ⟨32, true⟩ else t

/-- The usual arithmetic conversions. -/
def common (t u : Ty) : Ty :=
  let t := t.promote
  let u := u.promote
  if t.bits = u.bits then ⟨t.bits, t.signed && u.signed⟩ else if t.bits < u.bits then u else t

theorem Fits.promote (h : t.Fits x) : t.promote.Fits x := by
  unfold Ty.promote
  split
  · exact h.mono (.inr ⟨by assumption, rfl⟩)
  · exact h

theorem bits_common (t u : Ty) : (t.common u).bits = max t.promote.bits u.promote.bits := by
  unfold common
  dsimp only
  split
  · rename_i h
    rw [← h, Nat.max_self]
  · split
    · rename_i hlt
      exact (Nat.max_eq_right hlt.le).symm
    · rename_i hlt
      exact (Nat.max_eq_left (Nat.le_of_not_lt hlt)).symm

theorem common_comm (t u : Ty) : t.common u = u.common t := by
  unfold common
  by_cases h : t.promote.bits = u.promote.bits
  · simp only [h, if_true, Bool.and_comm]
  · rcases Nat.lt_or_gt_of_ne h with hlt | hlt
    · simp only [if_neg h, if_neg (Ne.symm h), if_pos hlt, if_neg (Nat.lt_asymm hlt)]
    · simp only [if_neg h, if_neg (Ne.symm h), if_pos hlt, if_neg (Nat.lt_asymm hlt)]

theorem promote_promote (t : Ty) : t.promote.promote = t.promote := by
  unfold promote
  by_cases h : t.bits < 32
  · rw [if_pos h]; rfl
  · rw [if_neg h, if_neg h]

theorem promote_common (t : Ty) : t.promote.common t = t.promote := by
  unfold common
  rw [promote_promote, if_pos rfl, Bool.and_self]

theorem signed_promote (h : t.signed = true) : t.promote.signed = true := by
  unfold promote
  split
  · rfl
  · exact h

theorem signed_common (ht : t.signed = true) (hu : u.signed = true) : (t.common u).signed = true := by
  unfold common
  dsimp only
  rw [signed_promote ht, signed_promote hu]
  split
  · rfl
  · split
    · exact signed_promote hu
    · exact signed_promote ht

theorem conv_nonneg (h : t.signed = false) (x : Int) : 0 ≤ t.conv x := by
  obtain ⟨b, sg⟩ := t
  cases h
  exact (fits_unsigned.1 (fits_conv _ x)).1

/-- **A signed common type keeps the values of both sides.** -/
theorem Fits.common_left (h : t.Fits x) (hs : (t.common u).signed = true) : (t.common u).Fits x := by
  have hp := h.promote
  unfold common at hs ⊢
  dsimp only at hs ⊢
  split at hs
  · rename_i hb
    rw [if_pos hb]
    have : t.promote.signed = true := by simp_all
    exact hp.mono (.inl ⟨Nat.le_refl _, by simp_all⟩)
  · rename_i hb
    rw [if_neg hb]
    split at hs
    · rename_i hlt
      rw [if_pos hlt]
      exact hp.mono (.inr ⟨hlt, hs⟩)
    · rename_i hlt
      rw [if_neg hlt]
      exact hp

theorem Fits.common_right (h : u.Fits x) (hs : (t.common u).signed = true) : (t.common u).Fits x := by
  rw [common_comm] at hs ⊢
  exact h.common_left hs

theorem ofInt_conv_shiftRight (w k : Nat) (x : Int) :
    BitVec.ofInt w ((⟨w, false⟩ : Ty).conv x >>> k) = BitVec.ofInt w x >>> k := by
  refine BitVec.eq_of_getLsbD_eq fun i hi => ?_
  have hx : (⟨w, false⟩ : Ty).conv x = ((BitVec.ofInt w x).toNat : Int) := rfl
  rw [getLsbD_ofInt, testBit_shiftRight, BitVec.getLsbD_ushiftRight, hx, decide_eq_true hi, Bool.true_and]
  rfl

theorem land_conv {b : Nat} {m : Int} (hm : (⟨b, false⟩ : Ty).Fits m) (x : Int) :
    Int.land ((⟨b, false⟩ : Ty).conv x) m = (⟨b, false⟩ : Ty).conv (Int.land x m) := by
  refine (Fits.conv_eq ?_ ?_).symm
  · obtain ⟨h0, h1⟩ := fits_unsigned.1 hm
    obtain ⟨n, hn⟩ := Int.eq_ofNat_of_zero_le (conv_nonneg rfl x : 0 ≤ (⟨b, false⟩ : Ty).conv x)
    obtain ⟨k, rfl⟩ := Int.eq_ofNat_of_zero_le h0
    have hk : k < 2 ^ b := by exact_mod_cast h1
    have hand : Int.land ((n : Nat) : Int) (k : Int) = ((n &&& k : Nat) : Int) := rfl
    rw [hn, hand]
    exact fits_unsigned.2 ⟨by omega, by exact_mod_cast Nat.and_lt_two_pow n hk⟩
  · rw [ofInt_land, ofInt_land, ofInt_conv]

/-- A signed reading is the unsigned one of the same bits when the top bit is clear. -/
theorem conv_eq_unsigned_iff {b : Nat} {g : Bool} {y z : Int} :
    (⟨b + 1, g⟩ : Ty).conv y = (⟨b + 1, false⟩ : Ty).conv z ↔
      BitVec.ofInt (b + 1) y = BitVec.ofInt (b + 1) z ∧ (g = false ∨ y.testBit b = false) := by
  have hread : (⟨b + 1, true⟩ : Ty).conv y = (⟨b + 1, false⟩ : Ty).conv y ↔ y.testBit b = false := by
    have hmsb : (BitVec.ofInt (b + 1) y).msb = y.testBit b := by
      rw [BitVec.msb_eq_getLsbD_last, getLsbD_ofInt]
      simp
    rw [← hmsb]
    change (BitVec.ofInt (b + 1) y).toInt = (BitVec.ofInt (b + 1) y).toNat ↔ _
    rw [BitVec.toInt_eq_msb_cond]
    cases (BitVec.ofInt (b + 1) y).msb with
    | true =>
      have : (0 : Int) < ((2 ^ (b + 1) : Nat) : Int) := by positivity
      simp only [if_true, Bool.true_eq_false, iff_false]
      omega
    | false => simp
  constructor
  · intro h
    have hbits : BitVec.ofInt (b + 1) y = BitVec.ofInt (b + 1) z :=
      (ofInt_conv ⟨b + 1, g⟩ y).symm.trans ((congrArg _ h).trans (ofInt_conv ⟨b + 1, false⟩ z))
    refine ⟨hbits, ?_⟩
    cases g with
    | false => exact .inl rfl
    | true => exact .inr (hread.1 (h.trans (conv_eq_iff.2 hbits.symm)))
  · rintro ⟨hbits, h⟩
    have hz : (⟨b + 1, false⟩ : Ty).conv y = (⟨b + 1, false⟩ : Ty).conv z := conv_eq_iff.2 hbits
    cases g with
    | false => exact hz
    | true => exact (hread.2 (h.resolve_left (by decide))).trans hz

end Ty

theorem testBit_neg_one (j : Nat) : (-1 : Int).testBit j = true :=
  congrArg not (Nat.zero_testBit j)

/-- **A rotation by shifts of a narrow number.**  With its own width for the word's, what comes down from the top is
right for nothing but all ones and what has `k` clear bits to go through. -/
theorem rotate_narrow_iff {W w k : Nat} {x : Int} (h0 : -2 ^ w ≤ x) (h1 : x < 2 ^ w) (hk : 0 < k) (hkw : k ≤ w)
    (hw : w = W ∨ 2 * w ≤ W) :
    BitVec.ofInt W x <<< k ||| BitVec.ofInt W x >>> (W - k) = BitVec.ofInt W x <<< k ||| BitVec.ofInt W x >>> (w - k) ↔
      w = W ∨ x = -1 ∨ 0 ≤ x ∧ x < 2 ^ (w - k) := by
  rcases hw with rfl | hw
  · exact ⟨fun _ => .inl rfl, fun _ => rfl⟩
  have hbit (r i : Nat) (hi : i < W) : (BitVec.ofInt W x <<< k ||| BitVec.ofInt W x >>> r).getLsbD i =
      (decide (k ≤ i) && x.testBit (i - k) || decide (r + i < W) && x.testBit (r + i)) := by
    rw [BitVec.getLsbD_or, BitVec.getLsbD_shiftLeft, BitVec.getLsbD_ushiftRight, getLsbD_ofInt, getLsbD_ofInt,
      decide_eq_true hi, decide_eq_true (show i - k < W by omega)]
    by_cases hki : k ≤ i
    · simp [hki, Nat.not_lt.2 hki]
    · simp [hki, Nat.lt_of_not_le hki]
  have hsign (j : Nat) (hj : w ≤ j) : x.testBit j = decide (x < 0) := testBit_of_bounds h0 h1 hj
  constructor
  · intro h
    have hi (i : Nat) (hlt : i < W) :
        (decide (k ≤ i) && x.testBit (i - k) || decide (W - k + i < W) && x.testBit (W - k + i)) =
          (decide (k ≤ i) && x.testBit (i - k) || decide (w - k + i < W) && x.testBit (w - k + i)) := by
      rw [← hbit _ i hlt, ← hbit _ i hlt, h]
    by_cases hneg : x < 0
    · refine .inr (.inl ?_)
      have hlow (j : Nat) (hj : j < w) : x.testBit j = true := by
        have := hi (j + k) (by omega)
        rwa [Nat.add_sub_cancel, hsign (w - k + (j + k)) (by omega), decide_eq_true hneg, decide_eq_true (by omega),
          decide_eq_true (show w - k + (j + k) < W by omega), decide_eq_false (by omega), Bool.false_and, Bool.or_false,
          Bool.true_and, Bool.true_and, Bool.or_true] at this
      refine Ty.Fits.eq (t := ⟨w + 1, true⟩) (Ty.fits_signed.2 ⟨h0, h1⟩) (Ty.fits_signed.2 ⟨by omega, by omega⟩) ?_
      refine ofInt_eq_iff.2 fun i hi' => ?_
      rw [testBit_neg_one]
      by_cases hj : i < w
      · exact hlow i hj
      · rw [hsign i (Nat.le_of_not_lt hj), decide_eq_true hneg]
    · refine .inr (.inr ⟨Int.not_lt.1 hneg, ?_⟩)
      obtain ⟨n, rfl⟩ := Int.eq_ofNat_of_zero_le (Int.not_lt.1 hneg)
      refine Int.ofNat_lt.2 (Nat.lt_pow_two_of_testBit n fun j hj => ?_)
      by_cases hjw : j < w
      · obtain ⟨i, rfl⟩ := Nat.exists_eq_add_of_le hj
        have := hi i (by omega)
        rw [hsign (W - k + i) (by omega), decide_eq_false hneg, Bool.and_false, decide_eq_false (show ¬k ≤ i by omega),
          Bool.false_and, Bool.false_or, Bool.false_or, decide_eq_true (show w - k + i < W by omega),
          Bool.true_and] at this
        exact this.symm
      · exact (hsign j (Nat.le_of_not_lt hjw)).trans (decide_eq_false hneg)
  · rintro (rfl | rfl | ⟨hx0, hx1⟩)
    · rfl
    · refine BitVec.eq_of_getLsbD_eq fun i hi => ?_
      rw [hbit _ i hi, hbit _ i hi]
      simp only [testBit_neg_one, Bool.and_true]
      by_cases hki : k ≤ i
      · simp [hki]
      · simp [hki, show W - k + i < W by omega, show w - k + i < W by omega]
    · refine BitVec.eq_of_getLsbD_eq fun i hi => ?_
      have hpos : (0 : Int) < 2 ^ (w - k) := by positivity
      have hneg : decide (x < 0) = false := decide_eq_false (by omega)
      rw [hbit _ i hi, hbit _ i hi, testBit_of_bounds (by omega) hx1 (show w - k ≤ W - k + i by omega),
        testBit_of_bounds (by omega) hx1 (show w - k ≤ w - k + i by omega), hneg, Bool.and_false, Bool.and_false]

/-- A value of a C type. -/
@[ext]
structure Val where
  ty : Ty
  val : Int
  fits : ty.Fits val

namespace Val

def cast (t : Ty) (a : Val) : Val := ⟨t, t.conv a.val, t.fits_conv _⟩

/-- A literal that fits `int`. -/
def int (x : Int) : Val := ⟨⟨32, true⟩, (⟨32, true⟩ : Ty).conv x, Ty.fits_conv _ _⟩

/-- Both sides brought to their common type, and the result in it. -/
def arith (f : Int → Int → Int) (a b : Val) : Val :=
  let t := a.ty.common b.ty
  ⟨t, t.conv (f (t.conv a.val) (t.conv b.val)), t.fits_conv _⟩

/-- A comparison, made in the common type. -/
def rel (f : Int → Int → Bool) (a b : Val) : Bool :=
  let t := a.ty.common b.ty
  f (t.conv a.val) (t.conv b.val)

/-- `-a` and `~a`. -/
def unary (f : Int → Int) (a : Val) : Val :=
  let t := a.ty.promote
  ⟨t, t.conv (f a.val), t.fits_conv _⟩

/-- `a << k`; outside the width it is undefined. -/
def shl (a : Val) (k : Int) : Option Val :=
  let t := a.ty.promote
  if 0 ≤ k ∧ k < t.bits then some ⟨t, t.conv (a.val * 2 ^ k.toNat), t.fits_conv _⟩ else none

/-- `a >> k`; the sign goes down with a signed value. -/
def shr (a : Val) (k : Int) : Option Val :=
  let t := a.ty.promote
  if 0 ≤ k ∧ k < t.bits then some ⟨t, t.conv (a.val >>> k.toNat), t.fits_conv _⟩ else none

/-- `c ? a : b`. -/
def cond (c : Bool) (a b : Val) : Val := (if c then a else b).cast (a.ty.common b.ty)

end Val
end CInt
