import BinjaHexagon.MacroKeeps
/-!
# MacroArith — `fMAX`, `fMIN`, `fABS`, `fBYTESWAP` and `fROTL`

The macros that compute: what they are lifted to has one fixed signedness, and `fMAX` and `fMIN` compare at that of
their first argument.
-/
namespace Hex

open CInt (Ty Val)

section Select

/-- Two picks of one of two numbers, read alike, are the same number when they fit and pick alike. -/
theorem pick_iff {t u r : Ty} {x y : Int} {c d : Bool} (hr : r.bits = t.bits)
    (hx : BitVec.ofInt t.bits (u.conv x) = BitVec.ofInt t.bits x)
    (hy : BitVec.ofInt t.bits (u.conv y) = BitVec.ofInt t.bits y) :
    t.conv (if c then x else y) = u.conv (if d then x else y) ↔
      t.Fits (u.conv (if d then x else y)) ∧ (r.conv x = r.conv y ∨ c = d) := by
  have hpick (e : Bool) : BitVec.ofInt t.bits (u.conv (if e then x else y)) =
      BitVec.ofInt t.bits (if e then x else y) := by
    cases e
    · exact hy
    · exact hx
  have hread : r.conv x = r.conv y ↔ BitVec.ofInt t.bits x = BitVec.ofInt t.bits y := by
    rw [Ty.conv_eq_iff, hr]
  constructor
  · intro h
    refine ⟨h ▸ t.fits_conv _, ?_⟩
    by_cases hcd : c = d
    · exact .inr hcd
    · have hbits := (Ty.ofInt_conv t _).symm.trans ((congrArg _ h).trans (hpick d))
      refine .inl (hread.2 ?_)
      cases c <;> cases d
      · exact absurd rfl hcd
      · exact hbits.symm
      · exact hbits
      · exact absurd rfl hcd
  · rintro ⟨hf, h⟩
    refine hf.conv_eq ?_
    rw [hpick]
    rcases h with h | rfl
    · have hxy := hread.1 h
      cases c <;> cases d
      · rfl
      · exact hxy.symm
      · exact hxy
      · rfl
    · rfl

variable {E : LiftEnv} {imms : ImmLetter → BitVec 32} {st : PhysState} {a b w : IlVal} {x y : Val}

/-- `fROTL` agrees with C when the top bit of the result is clear or not the sign, and what C takes to be the width of
the source is that of the rotation, or what it brings down from the top is right all the same. -/
def rotates (size : Nat) (signed : Bool) (src shamt : Val) : Prop :=
  if 8 * size < src.ty.bits then (ilTy size signed).Fits src.val
  else (signed = false ∨ src.val.testBit (8 * size - 1 - shamt.val.toNat) = false) ∧
    (shamt.val = 0 ∨ src.ty.bits = 8 * size ∨ src.val = -1 ∨ 0 ≤ src.val ∧
      src.val < 2 ^ (src.ty.bits - shamt.val.toNat))

/-- The condition of each macro, for a first argument lifted with that size and signedness.  `fMAX` and `fMIN` agree
with C when the argument C chooses is a signed number of that size, and the two compare the same way at the signedness
of the first. -/
def Macro2.keeps (m : Macro2) (size : Nat) (signed : Bool) (x y : Val) : Prop :=
  let t := x.ty.common y.ty
  let r := ilTy size signed
  match m with
  | .fMax => (ilTy size true).Fits (max (t.conv x.val) (t.conv y.val)) ∧
      (r.conv x.val = r.conv y.val ∨ (r.conv y.val < r.conv x.val ↔ t.conv y.val < t.conv x.val))
  | .fMin => (ilTy size true).Fits (min (t.conv x.val) (t.conv y.val)) ∧
      (r.conv x.val = r.conv y.val ∨ (r.conv x.val < r.conv y.val ↔ t.conv x.val < t.conv y.val))
  | .fRotl4u | .fRotl8u => rotates size signed x y

theorem conv_common (hT : (x.ty.common y.ty).signed = true ∨ (x.ty.common y.ty).bits = 8 * a.size) :
    BitVec.ofInt (8 * a.size) ((x.ty.common y.ty).conv x.val) = BitVec.ofInt (8 * a.size) x.val ∧
      BitVec.ofInt (8 * a.size) ((x.ty.common y.ty).conv y.val) = BitVec.ofInt (8 * a.size) y.val := by
  rcases hT with hs | hb
  · rw [x.fits.common_left hs, y.fits.common_right hs]
    exact ⟨rfl, rfl⟩
  · rw [← hb]
    exact ⟨Ty.ofInt_conv _ _, Ty.ofInt_conv _ _⟩

theorem select_iff (o o' : IlCompare) (hsz : b.size = a.size) (ha : a.Holds E imms st x.val)
    (hb : b.Holds E imms st y.val)
    (h1 : 1 ≤ a.size) (hs : a.size ≤ 8) (hT : (x.ty.common y.ty).signed = true ∨ (x.ty.common y.ty).bits = 8 * a.size)
    (ho : o.signed = a.signed) (hsg : o'.signed = o.signed) (hop : ∀ p q, o'.rel p q = !o.rel p q) (d : Bool) :
    (select o o' a b).Holds E imms st ((select o o' a b).value E imms st) ∧
      ((select o o' a b).value E imms st = (x.ty.common y.ty).conv (if d then x.val else y.val) ↔
        (ilTy a.size true).Fits ((x.ty.common y.ty).conv (if d then x.val else y.val)) ∧
          ((ilTy a.size a.signed).conv x.val = (ilTy a.size a.signed).conv y.val ∨
            o.rel ((ilTy a.size a.signed).conv x.val) ((ilTy a.size a.signed).conv y.val) = d)) := by
  obtain ⟨hx, hy⟩ := conv_common hT
  have hsel := holds_select ha hb hs hsz h1 hsg hop
  refine ⟨hsel.self hs, ?_⟩
  rw [hsel.value hs, ho]
  exact pick_iff (t := ilTy a.size true) (r := ilTy a.size a.signed) rfl hx hy

theorem conv_max {t : Ty} {p q : Int} :
    t.conv (if decide (t.conv q < t.conv p) then p else q) = max (t.conv p) (t.conv q) := by
  by_cases h : t.conv q < t.conv p
  · rw [decide_eq_true h, if_pos rfl, Int.max_eq_left h.le]
  · rw [decide_eq_false h, if_neg Bool.false_ne_true, Int.max_eq_right (Int.not_lt.1 h)]

theorem conv_min {t : Ty} {p q : Int} :
    t.conv (if decide (t.conv p < t.conv q) then p else q) = min (t.conv p) (t.conv q) := by
  by_cases h : t.conv p < t.conv q
  · rw [decide_eq_true h, if_pos rfl, Int.min_eq_left h.le]
  · rw [decide_eq_false h, if_neg Bool.false_ne_true, Int.min_eq_right (Int.not_lt.1 h)]

theorem fMAX_val (x y : Val) : (CMacro.fMAX x y).val = (x.ty.common y.ty).conv
    (if decide ((x.ty.common y.ty).conv y.val < (x.ty.common y.ty).conv x.val) then x.val else y.val) := by
  rw [CMacro.fMAX, Val.cond, Val.rel]
  by_cases h : (x.ty.common y.ty).conv y.val < (x.ty.common y.ty).conv x.val
  · rw [decide_eq_true h, if_pos rfl, if_pos rfl]; rfl
  · rw [decide_eq_false h, if_neg Bool.false_ne_true, if_neg Bool.false_ne_true]; rfl

theorem fMIN_val (x y : Val) : (CMacro.fMIN x y).val = (x.ty.common y.ty).conv
    (if decide ((x.ty.common y.ty).conv x.val < (x.ty.common y.ty).conv y.val) then x.val else y.val) := by
  rw [CMacro.fMIN, Val.cond, Val.rel]
  by_cases h : (x.ty.common y.ty).conv x.val < (x.ty.common y.ty).conv y.val
  · rw [decide_eq_true h, if_pos rfl, if_pos rfl]; rfl
  · rw [decide_eq_false h, if_neg Bool.false_ne_true, if_neg Bool.false_ne_true]; rfl

/-- Between different numbers it makes no difference whether equality counts. -/
theorem or_le_iff {p q : Int} {P : Prop} [Decidable P] :
    p = q ∨ decide (q ≤ p) = decide P ↔ p = q ∨ (q < p ↔ P) := by
  by_cases h : p = q
  · exact ⟨fun _ => .inl h, fun _ => .inl h⟩
  · have hlt : q ≤ p ↔ q < p := ⟨fun hle => lt_of_le_of_ne hle (Ne.symm h), le_of_lt⟩
    rw [decide_eq_decide, hlt]

theorem or_le_iff' {p q : Int} {P : Prop} [Decidable P] :
    p = q ∨ decide (p ≤ q) = decide P ↔ p = q ∨ (p < q ↔ P) := by
  rw [@eq_comm _ p q]
  exact or_le_iff

theorem decide_lt (p q : Int) : decide (p < q) = !decide (q ≤ p) := by
  rw [← decide_not, decide_eq_decide, Int.not_le]

variable (hs : a.size ≤ 8) (hT : (x.ty.common y.ty).signed = true ∨ (x.ty.common y.ty).bits = 8 * a.size)

include hs hT

theorem fMAX_iff (hw : Macro2.fMax.transform a b = some w) (ha : a.Holds E imms st x.val) (hb : b.Holds E imms st y.val)
    (h1 : 1 ≤ a.size) : w.Holds E imms st (w.value E imms st) ∧
      (w.value E imms st = (CMacro.fMAX x y).val ↔ Macro2.fMax.keeps a.size a.signed x y) := by
  simp only [Macro2.transform, Option.ite_none_right_eq_some, Option.some.injEq] at hw
  obtain ⟨hsz, rfl⟩ := hw
  rw [fMAX_val, Macro2.keeps, ← conv_max, ← or_le_iff]
  cases hsg : a.signed with
  | true =>
    have h := select_iff .signedGreaterEqual .signedLessThan hsz.symm ha hb h1 hs hT hsg.symm rfl
      (fun p q => decide_lt p q)
    rw [hsg] at h
    exact h _
  | false =>
    have h := select_iff .unsignedGreaterEqual .unsignedLessThan hsz.symm ha hb h1 hs hT hsg.symm rfl
      (fun p q => decide_lt p q)
    rw [hsg] at h
    exact h _

theorem fMIN_iff (hw : Macro2.fMin.transform a b = some w) (ha : a.Holds E imms st x.val) (hb : b.Holds E imms st y.val)
    (h1 : 1 ≤ a.size) : w.Holds E imms st (w.value E imms st) ∧
      (w.value E imms st = (CMacro.fMIN x y).val ↔ Macro2.fMin.keeps a.size a.signed x y) := by
  simp only [Macro2.transform, Option.ite_none_right_eq_some, Option.some.injEq] at hw
  obtain ⟨hsz, rfl⟩ := hw
  rw [fMIN_val, Macro2.keeps, ← conv_min, ← or_le_iff']
  cases hsg : a.signed with
  | true =>
    have h := select_iff .signedLessEqual .signedGreaterThan hsz.symm ha hb h1 hs hT hsg.symm rfl
      (fun p q => decide_lt q p)
    rw [hsg] at h
    exact h _
  | false =>
    have h := select_iff .unsignedLessEqual .unsignedGreaterThan hsz.symm ha hb h1 hs hT hsg.symm rfl
      (fun p q => decide_lt q p)
    rw [hsg] at h
    exact h _

end Select

section Abs

variable {E : LiftEnv} {imms : ImmLetter → BitVec 32} {st : PhysState} {v w : IlVal} {x : Int} {e : Expr}

/-- The integers an expression can stand for at its size and signedness, and the one more that `fABS` can be meant to
hold. -/
def IlVal.Near (v : IlVal) (x : Int) : Prop :=
  if v.signed then -2 ^ (8 * v.size - 1) ≤ x ∧ x ≤ 2 ^ (8 * v.size - 1) else 0 ≤ x ∧ x < 2 ^ (8 * v.size)

theorem IlVal.near_of_fits (h1 : 1 ≤ v.size) (h : (ilTy v.size v.signed).Fits x) : v.Near x := by
  obtain ⟨b, hb⟩ : ∃ b, 8 * v.size = b + 1 := ⟨8 * v.size - 1, by omega⟩
  unfold IlVal.Near
  cases hsg : v.signed with
  | true =>
    rw [hsg, ilTy, hb] at h
    obtain ⟨h0, h2⟩ := Ty.fits_signed.1 h
    rw [if_pos rfl, hb, Nat.add_sub_cancel]
    exact ⟨h0, h2.le⟩
  | false =>
    rw [hsg] at h
    rw [if_neg Bool.false_ne_true]
    exact Ty.fits_unsigned.1 h

theorem IlVal.Near.near (h1 : 1 ≤ v.size) (h : v.Near x) : Hex.Near v.size x := by
  obtain ⟨b, hb⟩ : ∃ b, 8 * v.size = b + 1 := ⟨8 * v.size - 1, by omega⟩
  have hp : (2 : Int) ^ (b + 1) = 2 * 2 ^ b := by ring
  have hpos : (0 : Int) < 2 ^ b := by positivity
  unfold IlVal.Near at h
  rw [Hex.Near, ilTy, ilTy]
  split at h
  · rw [hb, Nat.add_sub_cancel] at h
    rw [hb, Ty.fits_signed, Ty.fits_unsigned]
    omega
  · exact .inr (Ty.fits_unsigned.2 h)

/-- The lifted `fABS` negates what its sign bit says is negative. -/
theorem holds_abs (hw : Macro1.fAbs.transform e v = some w) (hv : v.signed = true) (h : v.Holds E imms st x)
    (h1 : 1 ≤ v.size) (hs : v.size ≤ 8) :
    w.Holds E imms st (if (ilTy v.size true).conv x < 0 then -x else x) ∧ w.size = v.size ∧ w.signed = true := by
  simp only [Macro1.transform, if_pos hv, Option.some.injEq] at hw
  subst hw
  refine ⟨?_, rfl, rfl⟩
  have hone := holds_const E imms st v.size 1
  have htwo := holds_const E imms st v.size 2
  have hzero := holds_const E imms st v.size 0
  have hsign := (holds_compare h hzero hs hs h1 .signedLessThan).unop hs .boolToInt v.size
  have htwice := htwo.binop hsign hs hs .mult
  have hdiff := hone.binop htwice hs hs .sub
  have hprod := hdiff.binop h hs hs .mult
  refine hprod.congr ?_
  have hz : (ilTy v.size true).conv ((ilTy v.size false).conv ((0 : Nat) : Int)) = 0 := by
    rw [Nat.cast_zero, Ty.fits_zero, Ty.fits_zero]
  change BitVec.ofInt (8 * v.size) ((1 - (ilTy v.size false).conv
    (2 * (ilTy v.size false).conv ((ilTy v.size false).conv
    (if decide ((ilTy v.size true).conv x < (ilTy v.size true).conv ((ilTy v.size false).conv ((0 : Nat) : Int))) then 1
      else 0)))) * (ilTy v.size false).conv x) = BitVec.ofInt (8 * v.size) _
  rw [hz, Int.sub_eq_add_neg, BitVec.ofInt_mul, BitVec.ofInt_add, BitVec.ofInt_neg, (ilTy v.size false).ofInt_conv,
    BitVec.ofInt_mul, Ty.conv_conv, (ilTy v.size false).ofInt_conv, (ilTy v.size false).ofInt_conv, ← BitVec.ofInt_mul,
    ← BitVec.ofInt_neg, ← BitVec.ofInt_add, ← BitVec.ofInt_mul]
  by_cases hneg : (ilTy v.size true).conv x < 0
  · rw [decide_eq_true hneg, if_pos rfl, if_pos hneg]
    congr 1
    ring
  · rw [decide_eq_false hneg, if_neg Bool.false_ne_true, if_neg hneg]
    congr 1
    ring

/-- The text of `fABS` negates what is negative. -/
theorem fABS_val (a : Val) : (CMacro.fABS a).ty = a.ty.promote ∧
    (CMacro.fABS a).val = if a.val < 0 then a.ty.promote.conv (-a.val) else a.val := by
  have hty : (CMacro.fABS a).ty = a.ty.promote := Ty.promote_common a.ty
  have hzero : (a.ty.common ⟨32, true⟩).conv (Val.int 0).val = 0 := Ty.fits_zero _
  have hneg : (a.ty.common ⟨32, true⟩).conv a.val < 0 ↔ a.val < 0 := by
    cases hsg : a.ty.signed with
    | true => rw [a.fits.common_left (Ty.signed_common hsg rfl)]
    | false =>
      have h0 : 0 ≤ a.val := a.fits ▸ Ty.conv_nonneg hsg a.val
      cases hc : (a.ty.common ⟨32, true⟩).signed with
      | true => rw [a.fits.common_left hc]
      | false =>
        have hconv := Ty.conv_nonneg hc a.val
        omega
  refine ⟨hty, ?_⟩
  change (a.ty.promote.common a.ty).conv (if decide ((a.ty.common ⟨32, true⟩).conv a.val <
    (a.ty.common ⟨32, true⟩).conv (Val.int 0).val) then a.unary (-·) else a).val = _
  rw [hzero, Ty.promote_common]
  by_cases h : a.val < 0
  · rw [decide_eq_true (hneg.2 h), if_pos rfl, if_pos h]
    exact Ty.conv_conv _ _
  · rw [decide_eq_false (mt hneg.1 h), if_neg Bool.false_ne_true, if_neg h]
    exact a.fits.promote

theorem conv_neg_cases {t : Ty} {x : Int} (hs : t.signed = true) (hb : 1 ≤ t.bits) (h : t.Fits x) :
    t.conv (-x) = -x ∨ t.conv (-x) = x ∧ x = -2 ^ (t.bits - 1) := by
  obtain ⟨b, sg⟩ := t
  cases hs
  obtain ⟨c, rfl⟩ : ∃ c, b = c + 1 := ⟨b - 1, by dsimp only at hb; omega⟩
  have hp : (2 : Int) ^ (c + 1) = 2 * 2 ^ c := by ring
  obtain ⟨h0, h1⟩ := Ty.fits_signed.1 h
  by_cases hlt : -x < 2 ^ c
  · exact .inl (Ty.fits_signed.2 ⟨by omega, hlt⟩)
  · have hmin : x = -2 ^ c := by omega
    refine .inr ⟨h.conv_eq ?_, hmin⟩
    have := CInt.ofInt_add_pow (c + 1) x
    rwa [hp, show x + 2 * 2 ^ c = -x by omega] at this

theorem signed_of_neg {t : Ty} {x : Int} (h : t.Fits x) (hx : x < 0) : t.promote.signed = true := by
  cases hsg : t.promote.signed with
  | true => rfl
  | false =>
    have h0 := Ty.conv_nonneg hsg x
    rw [h.promote] at h0
    omega

/-- C's negation keeps the low bits, of fewer bytes than its own type or more. -/
theorem ofInt_conv_neg {t : Ty} {s : Nat} {x : Int} (hb : t.bits = 32 ∨ t.bits = 64) (hsg : t.signed = true)
    (hx : x < 0)
    (hsm : t.bits < 8 * s → -2 ^ 31 < x) : BitVec.ofInt (8 * s) (t.conv (-x)) = BitVec.ofInt (8 * s) (-x) := by
  by_cases hlt : t.bits < 8 * s
  · have hmin := hsm hlt
    have hp : (2 : Int) ^ 31 ≤ 2 ^ (t.bits - 1) := pow_le_pow_right₀ (by decide) (by omega)
    have hfit : t.Fits (-x) := by
      obtain ⟨b, sg⟩ := t
      cases hsg
      obtain ⟨b', rfl⟩ : ∃ b', b = b' + 1 := ⟨b - 1, by dsimp only at hb; omega⟩
      rw [Nat.add_sub_cancel] at hp
      exact Ty.fits_signed.2 ⟨by omega, by omega⟩
    rw [hfit]
  · exact Ty.ofInt_conv_of_le (Nat.le_of_not_lt hlt) _

/-- **`fABS` is exact modulo the size of its operand.** -/
theorem fABS_value {a : Val} (hw : Macro1.fAbs.transform e v = some w) (h : v.Holds E imms st a.val) (hn : v.Near a.val)
    (h1 : 1 ≤ v.size) (hs : v.size ≤ 8) (hb : a.ty.promote.bits = 32 ∨ a.ty.promote.bits = 64)
    (hsm : a.ty.promote.bits < 8 * v.size → -2 ^ 31 < a.val) :
    w.Holds E imms st (CMacro.fABS a).val ∧ w.size = v.size ∧ w.Near (CMacro.fABS a).val := by
  rw [(fABS_val a).2]
  cases hsg : v.signed with
  | false =>
    have hn' := hn
    rw [IlVal.Near, hsg, if_neg Bool.false_ne_true] at hn'
    simp only [Macro1.transform, hsg, Bool.false_eq_true, if_false, Option.some.injEq] at hw
    subst hw
    rw [if_neg (by omega)]
    exact ⟨h, rfl, hn⟩
  | true =>
    obtain ⟨hholds, hsz, hwsg⟩ := holds_abs hw hsg h h1 hs
    rw [IlVal.Near, hsg, if_pos rfl] at hn
    obtain ⟨b, hb'⟩ : ∃ b, 8 * v.size = b + 1 := ⟨8 * v.size - 1, by omega⟩
    have hp : (2 : Int) ^ (b + 1) = 2 * 2 ^ b := by ring
    rw [hb', Nat.add_sub_cancel] at hn
    refine ⟨hholds.congr ?_, hsz, ?_⟩
    · rw [hsz]
      rcases lt_or_eq_of_le hn.2 with hlt | heq
      · have hfit : (ilTy v.size true).Fits a.val := by
          rw [ilTy, hb']
          exact Ty.fits_signed.2 ⟨hn.1, hlt⟩
        rw [hfit]
        by_cases hneg : a.val < 0
        · rw [if_pos hneg, if_pos hneg]
          exact (ofInt_conv_neg hb (signed_of_neg a.fits hneg) hneg hsm).symm
        · rw [if_neg hneg, if_neg hneg]
      · -- the least number is its own negation
        have hpos : (0 : Int) < 2 ^ b := by positivity
        have hfit : (ilTy v.size true).Fits (2 ^ b - 2 ^ (b + 1)) := by
          rw [ilTy, hb']
          exact Ty.fits_signed.2 ⟨by omega, by omega⟩
        have hsub := CInt.ofInt_sub_pow (b + 1) (2 ^ b)
        have hconv := hfit.conv_eq (x := 2 ^ b) (by rw [ilTy, hb', hsub])
        rw [heq, hconv, if_pos (by omega), if_neg (by omega), hb', ← hsub]
        congr 1
        omega
    · rw [IlVal.Near, hwsg, if_pos rfl, hsz, hb', Nat.add_sub_cancel]
      by_cases hneg : a.val < 0
      · rw [if_pos hneg]
        rcases conv_neg_cases (signed_of_neg a.fits hneg) (by omega) a.fits.promote with h | ⟨h, -⟩
        · omega
        · omega
      · rw [if_neg hneg]
        exact hn

end Abs

section Byteswap

variable {E : LiftEnv} {imms : ImmLetter → BitVec 32} {st : PhysState} {v w : IlVal} {e : Expr}

/-- A byte put in its place: masked, then shifted up or down. -/
theorem holds_masked {x : Int} (h : v.Holds E imms st x) (hs : v.size = 4) {m : Nat} (hm : m < 2 ^ 32) :
    (IlVal.binop .and 4 v (.const 4 m)).Holds E imms st (Int.land ((ilTy 4 false).conv x) m) := by
  have hfit : (ilTy 4 false).Fits m := Ty.fits_unsigned.2 ⟨by omega, by exact_mod_cast hm⟩
  have hand := h.binop (holds_const E imms st 4 m) (by omega) (show 4 ≤ 8 by decide) .and
  rw [hs] at hand
  refine hand.congr ?_
  change BitVec.ofInt 32 (Int.land x ((ilTy 4 false).conv m)) = _
  rw [hfit, Ty.land_conv hfit]
  exact ((ilTy 4 false).ofInt_conv _).symm

theorem holds_up {a : IlVal} {z : Int} (h : a.Holds E imms st z) (hs : a.size = 4) {k : Nat} (hk : k < 256) :
    (IlVal.binop .shiftLeft 4 a (.const 1 k)).Holds E imms st (z * 2 ^ k) := by
  have hlit : (ilTy 1 false).conv (k : Int) = k :=
    Ty.fits_unsigned.2 ⟨by omega, by simpa using (by omega : (k : Int) < 256)⟩
  have hsh := h.binop (holds_const E imms st 1 k) (by omega) (show 1 ≤ 8 by decide) .shiftLeft
  rw [hs] at hsh
  change IlVal.Holds E imms st _ (z * 2 ^ ((ilTy 1 false).conv (k : Int)).toNat) at hsh
  rwa [hlit] at hsh

theorem holds_down {a : IlVal} {z : Int} (h : a.Holds E imms st z) (hs : a.size = 4) (hz : (ilTy 4 false).Fits z)
    {k : Nat}
    (hk : k < 256) : (IlVal.binop .logicalShiftRight 4 a (.const 1 k)).Holds E imms st (z >>> k) := by
  have hsh := h.shiftRight (by omega) hk false
  rw [hs, hz] at hsh
  exact hsh

theorem holds_or {a b : IlVal} {y z : Int} (ha : a.Holds E imms st y) (hb : b.Holds E imms st z) (hs : a.size = 4)
    (hsb : b.size = 4) : (IlVal.binop .or 4 a b).Holds E imms st (Int.lor y z) := by
  have hor := ha.binop hb (by omega) (by omega) .or
  rw [hs] at hor
  refine hor.congr ?_
  change BitVec.ofInt 32 (Int.lor y ((ilTy b.size false).conv z)) = _
  rw [hsb, CInt.ofInt_lor, CInt.ofInt_lor]
  exact congrArg _ ((ilTy 4 false).ofInt_conv z)

/-- **`fBYTESWAP` swaps the bytes of the word C is given.** -/
theorem fBYTESWAP_value {a : Val} (hw : Macro1.fByteswap.transform e v = some w) (h : v.Holds E imms st a.val) :
    w.Holds E imms st (w.value E imms st) ∧ w.value E imms st = (CMacro.fBYTESWAP a).val := by
  simp only [Macro1.transform, Option.ite_none_right_eq_some, Option.some.injEq] at hw
  obtain ⟨hs, rfl⟩ := hw
  have hfit (m : Nat) (hm : m < 2 ^ 32) : (ilTy 4 false).Fits (Int.land ((ilTy 4 false).conv a.val) m) := by
    have hmf : (ilTy 4 false).Fits m := Ty.fits_unsigned.2 ⟨by omega, by exact_mod_cast hm⟩
    rw [Ty.land_conv hmf]
    exact Ty.fits_conv _ _
  have h0 := holds_up (holds_masked h hs (m := 0x000000ff) (by decide)) rfl (k := 24) (by decide)
  have h1 := holds_up (holds_masked h hs (m := 0x0000ff00) (by decide)) rfl (k := 8) (by decide)
  have h2 := holds_down (holds_masked h hs (m := 0x00ff0000) (by decide)) rfl (hfit _ (by decide)) (k := 8) (by decide)
  have h3 := holds_down (holds_masked h hs (m := 0xff000000) (by decide)) rfl (hfit _ (by decide)) (k := 24) (by decide)
  have hswap := holds_or h0 (holds_or h1 (holds_or h2 h3 rfl rfl) rfl rfl) rfl rfl
  exact ⟨hswap.self (show 4 ≤ 8 by decide), hswap.value (show 4 ≤ 8 by decide)⟩

end Byteswap

section Rotl

variable {E : LiftEnv} {imms : ImmLetter → BitVec 32} {st : PhysState} {a b : IlVal} {x y z : Val} {S : Nat}

/-- A type no wider than an unsigned one goes over to it. -/
theorem common_unsigned {t : Ty} (hS : 4 ≤ S) (ht : t.bits ≤ 8 * S) : t.common (sizeu S) = sizeu S := by
  have hu : (sizeu S).promote = sizeu S := if_neg (show ¬8 * S < 32 by omega)
  have hp : t.promote.bits ≤ 8 * S := by
    unfold Ty.promote
    split
    · show 32 ≤ 8 * S
      omega
    · exact ht
  unfold Ty.common
  dsimp only
  rw [hu]
  by_cases h : t.promote.bits = 8 * S
  · rw [if_pos h, h, Bool.and_false]
  · rw [if_neg h, if_pos (Nat.lt_of_le_of_ne hp h)]

/-- Where the text of `fROTL` is defined. -/
theorem fROTL_defined (hz : CMacro.fROTL (sizeu S) x y = some z) (hS : 4 ≤ S) :
    0 ≤ y.val ∧ y.val < 8 * S ∧ (y.val ≠ 0 → y.val ≤ x.ty.bits ∧ x.ty.bits < 8 * S + y.val) := by
  have hu : (sizeu S).promote = sizeu S := if_neg (show ¬8 * S < 32 by omega)
  unfold CMacro.fROTL at hz
  by_cases h0 : y.val = 0
  · exact ⟨h0.ge, by omega, fun h => absurd h0 h⟩
  · rw [if_neg h0] at hz
    simp only [Val.shl, Val.shr, Val.cast, hu, Option.bind_eq_bind, Option.bind_eq_some_iff,
      Option.ite_none_right_eq_some] at hz
    obtain ⟨l, ⟨⟨hk0, hk1⟩, -⟩, r, ⟨⟨hr0, hr1⟩, -⟩, -⟩ := hz
    exact ⟨hk0, by push_cast at hk1; omega, fun _ => ⟨by omega, by push_cast at hr1; omega⟩⟩

/-- The bits the text of `fROTL` puts together. -/
theorem fROTL_val (hz : CMacro.fROTL (sizeu S) x y = some z) (hS : 4 ≤ S) (hw : x.ty.bits ≤ 8 * S) :
    ∃ r, z.val = (sizeu S).conv r ∧ BitVec.ofInt (8 * S) r = if y.val = 0 then BitVec.ofInt (8 * S) x.val
      else BitVec.ofInt (8 * S) x.val <<< y.val.toNat ||| BitVec.ofInt (8 * S) x.val >>> (x.ty.bits - y.val.toNat) := by
  have hu : (sizeu S).promote = sizeu S := if_neg (show ¬8 * S < 32 by omega)
  have htt : (sizeu S).common (sizeu S) = sizeu S := common_unsigned hS (Nat.le_refl _)
  obtain ⟨hy0, -, -⟩ := fROTL_defined hz hS
  unfold CMacro.fROTL at hz
  by_cases h0 : y.val = 0
  · rw [if_pos h0, Option.some.injEq] at hz
    refine ⟨x.val, ?_, (if_pos h0).symm⟩
    rw [← hz, Val.cast, common_unsigned hS hw]
  · have hr : ((x.ty.bits : Int) - y.val).toNat = x.ty.bits - y.val.toNat := by omega
    rw [if_neg h0] at hz ⊢
    simp only [Val.shl, Val.shr, Val.cast, hu, Option.bind_eq_bind, Option.bind_eq_some_iff,
      Option.ite_none_right_eq_some, Option.some.injEq] at hz
    obtain ⟨l, ⟨-, rfl⟩, r, ⟨-, rfl⟩, rfl⟩ := hz
    rw [common_unsigned hS hw]
    refine ⟨_, rfl, ?_⟩
    simp only [Val.arith, htt]
    rw [(sizeu S).ofInt_conv, CInt.ofInt_lor, (sizeu S).ofInt_conv, (sizeu S).ofInt_conv, (sizeu S).ofInt_conv,
      (sizeu S).ofInt_conv, CInt.ofInt_mul_two_pow, (sizeu S).ofInt_conv, hr, Ty.ofInt_conv_shiftRight]

/-- The lifted `fROTL` turns the word by the amount C is given. -/
theorem holds_rotl (hsz : a.size = S) (hS : S = 4 ∨ S = 8) (ha : a.Holds E imms st x.val) (hb : b.Holds E imms st y.val)
    (h1 : 1 ≤ b.size) (hs : b.size ≤ 8) (h0 : 0 ≤ y.val) (hlt : y.val < 8 * S) :
    (IlVal.binop .rotateLeft S a b).Holds E imms st
      (Int.lor (x.val * 2 ^ y.val.toNat) ((sizeu S).conv x.val >>> (8 * S - y.val.toNat))) := by
  have hp : (2 : Int) ^ 8 ≤ 2 ^ (8 * b.size) := pow_le_pow_right₀ (by decide) (by omega)
  have hfit : (ilTy b.size false).Fits y.val := Ty.fits_unsigned.2 ⟨h0, by omega⟩
  have hrot := ha.binop hb (by omega) hs .rotateLeft
  simp only [IlBinop.onInt, hsz] at hrot
  rwa [hfit, Nat.mod_eq_of_lt (by omega)] at hrot

/-- **`fROTL` agrees with C** where its condition says. -/
theorem rotl_iff (hsz : a.size = S) (hS : S = 4 ∨ S = 8) (ha : a.Holds E imms st x.val) (hb : b.Holds E imms st y.val)
    (h1 : 1 ≤ b.size) (hs : b.size ≤ 8) (hz : CMacro.fROTL (sizeu S) x y = some z)
    (hx : x.ty.bits = 8 ∨ x.ty.bits = 16 ∨ x.ty.bits = 32 ∨ x.ty.bits = 64) :
    (IlVal.binop .rotateLeft S a b).Holds E imms st ((IlVal.binop .rotateLeft S a b).value E imms st) ∧
      ((IlVal.binop .rotateLeft S a b).value E imms st = z.val ↔ rotates a.size a.signed x y) := by
  obtain ⟨h0, hlt, hle⟩ := fROTL_defined hz (by omega)
  have hrot := holds_rotl hsz hS ha hb h1 hs h0 hlt
  refine ⟨hrot.self (show S ≤ 8 by omega), ?_⟩
  rw [hrot.value (show S ≤ 8 by omega), hsz, rotates]
  change (ilTy S a.signed).conv _ = _ ↔ _
  have hbits : BitVec.ofInt (8 * S) (Int.lor (x.val * 2 ^ y.val.toNat)
    ((sizeu S).conv x.val >>> (8 * S - y.val.toNat))) =
      BitVec.ofInt (8 * S) x.val <<< y.val.toNat ||| BitVec.ofInt (8 * S) x.val >>> (8 * S - y.val.toNat) := by
    rw [CInt.ofInt_lor, CInt.ofInt_mul_two_pow, Ty.ofInt_conv_shiftRight]
  generalize Int.lor (x.val * 2 ^ y.val.toNat) ((sizeu S).conv x.val >>> (8 * S - y.val.toNat)) = l at hbits
  have hzero (hk : y.val = 0) : BitVec.ofInt (8 * S) l = BitVec.ofInt (8 * S) x.val := by
    rw [hbits, hk, Int.toNat_zero, Nat.sub_zero, BitVec.shiftLeft_zero, BitVec.ushiftRight_eq_zero (Nat.le_refl _),
      BitVec.or_zero]
  by_cases hwide : 8 * S < x.ty.bits
  · -- more bits than the rotation has: C shifts out of range by anything but nothing
    have hk : y.val = 0 := by
      by_contra hk
      have := hle hk
      omega
    have hprom : x.ty.promote = x.ty := if_neg (by omega)
    have hu : (sizeu S).promote = sizeu S := if_neg (show ¬8 * S < 32 by omega)
    have hcommon : x.ty.common (sizeu S) = x.ty := by
      unfold Ty.common
      dsimp only
      rw [hprom, hu, if_neg (Nat.ne_of_gt hwide), if_neg (Nat.lt_asymm hwide)]
    rw [CMacro.fROTL, if_pos hk, Option.some.injEq] at hz
    have hval : z.val = x.val := by
      rw [← hz, hcommon]
      exact x.fits
    rw [if_pos hwide, hval, Ty.Fits, (Ty.conv_eq_iff (t := ilTy S a.signed)).2 (hzero hk)]
  · rw [if_neg hwide]
    obtain ⟨r, hr, hrb⟩ := fROTL_val hz (by omega) (Nat.le_of_not_lt hwide)
    obtain ⟨c, hc⟩ : ∃ c, 8 * S = c + 1 := ⟨8 * S - 1, by omega⟩
    have htop : l.testBit c = x.val.testBit (8 * S - 1 - y.val.toNat) := by
      have hl := congrArg (·.getLsbD c) hbits
      simp only [BitVec.getLsbD_or, BitVec.getLsbD_shiftLeft, BitVec.getLsbD_ushiftRight, CInt.getLsbD_ofInt] at hl
      rwa [decide_eq_true (show c < 8 * S by omega), decide_eq_false (show ¬c < y.val.toNat by omega),
        decide_eq_true (show c - y.val.toNat < 8 * S by omega),
        decide_eq_false (show ¬8 * S - y.val.toNat + c < 8 * S by omega), Bool.true_and, Bool.true_and, Bool.not_false,
        Bool.true_and, Bool.false_and, Bool.or_false, show c - y.val.toNat = 8 * S - 1 - y.val.toNat by omega] at hl
    have hread : (ilTy S a.signed).conv l = (sizeu S).conv r ↔
        BitVec.ofInt (8 * S) l = BitVec.ofInt (8 * S) r ∧ (a.signed = false ∨ l.testBit c = false) := by
      rw [ilTy, sizeu, hc]
      exact Ty.conv_eq_unsigned_iff
    rw [hr, hread, htop, and_comm, hrb]
    refine and_congr_right fun _ => ?_
    by_cases hk : y.val = 0
    · rw [if_pos hk, hzero hk]
      exact ⟨fun _ => .inl hk, fun _ => rfl⟩
    · obtain ⟨hkw, -⟩ := hle hk
      have hfit : (⟨x.ty.bits + 1, true⟩ : Ty).Fits x.val := x.fits.mono (.inr ⟨Nat.lt_succ_self _, rfl⟩)
      obtain ⟨hlo, hhi⟩ := Ty.fits_signed.1 hfit
      rw [if_neg hk, hbits, CInt.rotate_narrow_iff hlo hhi (by omega) (by omega) (by omega)]
      exact ⟨.inr, fun h => h.resolve_left hk⟩

end Rotl
end Hex
