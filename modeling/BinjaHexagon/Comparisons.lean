import BinjaHexagon.CReadings
import BinjaHexagon.MacroNesting
/-!
# Comparisons — lifted comparisons and right shifts

`expr_relop` and `expr_binop` look at their first operand only: its size is the size of the operation and its `signed`
chooses the operator.  C looks at the types of both.
-/
namespace Hex

open CInt (Ty Val readLeft readRight)

/-- What is known of an operand before it has a value: its C type, and the size and `signed` it is lifted with. -/
structure Kind where
  ty : Ty
  size : Nat
  signed : Bool
  deriving Repr, DecidableEq

namespace Kind

/-- The lifted operand is of the kind and holds the value. -/
structure Carried (k : Kind) (E : LiftEnv) (imms : ImmLetter → BitVec 32) (st : PhysState) (v : IlVal)
    (x : Val) : Prop where
  size : v.size = k.size
  signed : v.signed = k.signed
  ty : x.ty = k.ty
  holds : v.Holds E imms st x.val

/-- The lifted size has room for the values of the type. -/
structure Roomy (k : Kind) : Prop where
  bits : 2 ≤ k.ty.bits
  room : k.ty.bits ≤ 8 * k.size
  size : k.size ≤ 8

theorem Roomy.one_le {k : Kind} (h : k.Roomy) : 1 ≤ k.size := by
  have := h.bits
  have := h.room
  omega

theorem exists_carried (k : Kind) (E : LiftEnv) (imms : ImmLetter → BitVec 32) (st : PhysState) {x : Int}
    (h : k.ty.Fits x) :
    ∃ v, k.Carried E imms st v ⟨k.ty, x, h⟩ := by
  refine ⟨⟨(IlVal.const k.size (BitVec.ofInt (8 * k.size) x).toNat).expr, k.signed⟩, rfl, rfl, rfl, ?_⟩
  refine IlVal.Holds.congr (v := .const k.size _) (holds_const E imms st k.size _) ?_
  change BitVec.ofInt (8 * k.size) _ = BitVec.ofInt (8 * k.size) x
  rw [BitVec.ofInt_natCast, BitVec.ofNat_toNat, BitVec.setWidth_eq]

end Kind

section Relop

variable {E : LiftEnv} {imms : ImmLetter → BitVec 32} {st : PhysState} {a b : Kind} {v w : IlVal} {x y : Val}

theorem Relop.compare_rel (o : Relop) (s : Bool) (p q : Int) : (o.compare s).rel p q = o.rel p q := by
  cases o <;> cases s <;> rfl

/-- The comparison is made between the readings of the two sides. -/
theorem relop_bits (o : Relop) (ha : a.Carried E imms st v x) (hb : b.Carried E imms st w y) (hs : a.size ≤ 8)
    (hsb : b.size ≤ 8) : (exprRelop o v w).bits E imms st =
      if o.rel (readLeft (8 * a.size) (o.compare a.signed).signed x.val)
        (readRight (8 * a.size) (8 * b.size) (o.compare a.signed).signed y.val) then 1 else 0 := by
  have hv := ha.holds
  have hw := hb.holds
  rw [IlVal.Holds, ha.size] at hv
  rw [IlVal.Holds, hb.size] at hw
  rw [exprRelop, bits_compare, hv, hw, ha.size, ha.signed, IlCompare.eval_held _ hs hsb, Relop.compare_rel]
  rfl

/-- `==` and `!=`. -/
def Relop.ofEquality : Relop → Bool
  | .eq | .ne => true
  | .le | .lt | .ge | .gt => false

/-- What is known of the operands makes the lifted comparison that of C. -/
def Relop.followsC (o : Relop) (a b : Kind) : Bool :=
  if o.ofEquality then a.ty.readsEqual b.ty (8 * a.size) (8 * b.size)
  else a.ty.readsLeft (a.ty.common b.ty) (8 * a.size) a.signed &&
    b.ty.readsRight (a.ty.common b.ty) (8 * a.size) (8 * b.size) a.signed

theorem Relop.signed_compare {o : Relop} (h : o.ofEquality = false) (s : Bool) : (o.compare s).signed = s := by
  cases o with
  | eq | ne => cases h
  | le | lt | ge | gt => cases s <;> rfl

theorem Relop.rel_of_order {o : Relop} (h : o.ofEquality = false) {p q r s : Int} (hd : p < q ∧ s < r ∨ q < p ∧ r < s) :
    o.rel p q ≠ o.rel r s := by
  cases o with
  | eq | ne => cases h
  | le | lt | ge | gt =>
    simp only [Relop.rel, ne_eq, decide_eq_decide]
    omega

theorem Relop.rel_of_equality {o : Relop} (h : o.ofEquality = true) {p q r s : Int} :
    o.rel p q = o.rel r s ↔ (p = q ↔ r = s) := by
  cases o with
  | eq => rw [Relop.rel, Relop.rel, Bool.eq_iff_iff, beq_iff_eq, beq_iff_eq]
  | ne => rw [Relop.rel, Relop.rel, Bool.eq_iff_iff, bne_iff_ne, bne_iff_ne, ne_eq, ne_eq, not_iff_not]
  | le | lt | ge | gt => cases h

/-- The lifted comparison has the truth value of C. -/
def RelopAgrees (o : Relop) (a b : Kind) : Prop :=
  ∀ (E : LiftEnv) (imms : ImmLetter → BitVec 32) (st : PhysState) (v w : IlVal) (x y : Val),
    a.Carried E imms st v x → b.Carried E imms st w y →
      (exprRelop o v w).bits E imms st = if x.rel o.rel y then 1 else 0

theorem bit_inj {c d : Bool} : (if c then (1 : BitVec 64) else 0) = (if d then 1 else 0) ↔ c = d := by
  cases c <;> cases d <;> decide

theorem relopAgrees_iff (o : Relop) (ha : a.size ≤ 8) (hb : b.size ≤ 8) : RelopAgrees o a b ↔
    ∀ x y, a.ty.Fits x → b.ty.Fits y → o.rel (readLeft (8 * a.size) (o.compare a.signed).signed x)
        (readRight (8 * a.size) (8 * b.size) (o.compare a.signed).signed y) =
      o.rel ((a.ty.common b.ty).conv x) ((a.ty.common b.ty).conv y) := by
  constructor
  · intro h x y hx hy
    obtain ⟨v, hv⟩ := a.exists_carried ⟨[], 0, 0, false⟩ (fun _ => 0) ⟨fun _ => 0, fun _ _ => 0, fun _ => 0⟩ hx
    obtain ⟨w, hw⟩ := b.exists_carried ⟨[], 0, 0, false⟩ (fun _ => 0) ⟨fun _ => 0, fun _ _ => 0, fun _ => 0⟩ hy
    exact bit_inj.1 ((relop_bits o hv hw ha hb).symm.trans (h _ _ _ v w _ _ hv hw))
  · intro h E imms st v w x y hv hw
    rw [relop_bits o hv hw ha hb, Val.rel, hv.ty, hw.ty]
    exact bit_inj.2 (h _ _ (hv.ty ▸ x.fits) (hw.ty ▸ y.fits))

/-- **A comparison follows C's typing** for all values of its operands if and only if their kinds say so. -/
theorem relop_agrees_iff (o : Relop) (a b : Kind) (ha : a.Roomy) (hb : b.Roomy) :
    RelopAgrees o a b ↔ o.followsC a b = true := by
  rw [relopAgrees_iff o ha.size hb.size]
  cases ho : o.ofEquality with
  | true =>
    have hsign (x y : Int) := CInt.readings_eq_iff (w := 8 * a.size) (v := 8 * b.size) (o.compare a.signed).signed x y
    simp only [Relop.rel_of_equality ho, hsign, Relop.followsC, ho, if_true]
    rcases CInt.equal_or_confused ha.bits hb.bits ha.room hb.room with ⟨hf, hall⟩ | ⟨hf, x, y, hx, hy, hne⟩
    · exact ⟨fun _ => hf, fun _ => hall⟩
    · rw [hf]
      exact ⟨fun h => absurd (h x y hx hy) hne, fun h => by cases h⟩
  | false =>
    simp only [Relop.signed_compare ho, Relop.followsC, ho, Bool.false_eq_true, if_false]
    rcases CInt.reads_or_disorder a.signed ha.bits hb.bits ha.room hb.room with ⟨hf, hall⟩ | ⟨hf, x, y, hx, hy, hd⟩
    · refine ⟨fun _ => hf, fun _ x y hx hy => ?_⟩
      rw [(hall x y hx hy).1, (hall x y hx hy).2]
    · rw [hf]
      exact ⟨fun h => absurd (h x y hx hy) (Relop.rel_of_order ho hd), fun h => by cases h⟩

/-- Two signed bytes are compared as C compares them; a byte without sign and a word without sign are not: what the byte
has no room for is cut off the word. -/
theorem relop_agrees_bytes : RelopAgrees .gt ⟨⟨8, true⟩, 1, true⟩ ⟨⟨8, true⟩, 1, true⟩ ∧
    ¬RelopAgrees .gt ⟨⟨8, false⟩, 1, false⟩ ⟨⟨32, false⟩, 4, false⟩ := by
  constructor
  · exact (relop_agrees_iff .gt _ _ ⟨by decide, by decide, by decide⟩ ⟨by decide, by decide, by decide⟩).2 (by decide)
  · intro h
    have := (relop_agrees_iff .gt _ _ ⟨by decide, by decide, by decide⟩ ⟨by decide, by decide, by decide⟩).1 h
    revert this
    decide

end Relop

section Shift

variable {E : LiftEnv} {imms : ImmLetter → BitVec 32} {st : PhysState} {a b : Kind} {v w u : IlVal} {x y z : Val}

theorem promote_le {t : Ty} (h : t.bits ≤ 64) : t.promote.bits ≤ 64 := by
  unfold Ty.promote
  split
  · decide
  · exact h

theorem holds_shr (ha : a.Carried E imms st v x) (hb : b.Carried E imms st w y) (hs : a.size ≤ 8) (hsb : b.size ≤ 8)
    (h1 : 1 ≤ b.size) (h0 : 0 ≤ y.val) (hlt : y.val < 64) (hu : exprBinop .shr v w = some u) :
    u.size = a.size ∧ u.Holds E imms st (readLeft (8 * a.size) a.signed x.val >>> y.val.toNat) := by
  have hamount : (ilTy b.size false).conv y.val = y.val := by
    have hp : (2 : Int) ^ 8 ≤ 2 ^ (8 * b.size) := pow_le_pow_right₀ (by decide) (by omega)
    exact CInt.uconv_of_lt h0 (by omega)
  have hsize := ha.size
  obtain rfl := Option.some.inj hu
  refine ⟨hsize, ?_⟩
  rw [hsize]
  have hbin := ha.holds.binop hb.holds (by rw [hsize]; exact hs) (by rw [hb.size]; exact hsb)
    (if v.signed then .arithShiftRight else .logicalShiftRight)
  rw [ha.signed] at hbin ⊢
  cases hsg : a.signed with
  | true =>
    rw [hsg, if_pos rfl, hb.size, IlBinop.onInt, hamount, hsize] at hbin
    exact hbin
  | false =>
    rw [hsg, if_neg Bool.false_ne_true, hb.size, IlBinop.onInt, hamount, hsize] at hbin
    exact hbin

theorem shr_val (h : Binop.shr.ceval x y = some z) (hx : x.ty.bits ≤ 64) :
    z.ty = x.ty.promote ∧ z.val = x.val >>> y.val.toNat ∧ 0 ≤ y.val ∧ y.val < 64 := by
  simp only [Binop.ceval, Val.shr, Option.ite_none_right_eq_some, Option.some.injEq] at h
  obtain ⟨⟨h0, hlt⟩, rfl⟩ := h
  have hp := promote_le hx
  exact ⟨rfl, x.fits.promote.shiftRight _, h0, by omega⟩

/-- The lifted shift holds the value of C wherever C defines one. -/
def ShiftAgrees (a b : Kind) : Prop :=
  ∀ (E : LiftEnv) (imms : ImmLetter → BitVec 32) (st : PhysState) (v w u : IlVal) (x y z : Val),
    a.Carried E imms st v x → b.Carried E imms st w y → exprBinop .shr v w = some u → Binop.shr.ceval x y = some z →
      u.Holds E imms st z.val

theorem readLeft_promote {t : Ty} {w : Nat} {σ : Bool} {x : Int} (hw : t.bits ≤ w)
    (h : t.readsLeft t.promote w σ = true) (hx : t.Fits x) : readLeft w σ x = x := by
  have hT : t.common t.promote = t.promote := (Ty.common_comm _ _).trans (Ty.promote_common t)
  rw [← hT] at h
  rw [CInt.readLeft_eq hw h hx, hT, hx.promote]

/-- A value that is read otherwise is shifted otherwise, by one place already. -/
theorem shift_disagrees {t : Ty} {w : Nat} {σ : Bool} (hb : 2 ≤ t.bits) (hw : t.bits ≤ w)
    (h : t.readsLeft t.promote w σ = false) :
    ∃ x, t.Fits x ∧ BitVec.ofInt w (readLeft w σ x >>> (1 : Nat)) ≠ BitVec.ofInt w (x >>> (1 : Nat)) := by
  have hhalf (z : Int) : z >>> (1 : Nat) = z / 2 := Int.shiftRight_eq_div_pow z 1
  have hp := CInt.two_pow_lt (show w - 1 < w by omega)
  have hsucc : (2 : Int) ^ w = 2 * 2 ^ (w - 1) := by rw [← pow_succ', Nat.sub_add_cancel (by omega)]
  have hsucc' : (2 : Int) ^ (w - 1) = 2 * 2 ^ (w - 2) := by rw [← pow_succ', show w - 2 + 1 = w - 1 by omega]
  have hpos : (0 : Int) < 2 ^ (w - 2) := by positivity
  unfold Ty.readsLeft at h
  cases hs : t.signed with
  | true =>
    rw [hs, if_pos rfl, if_pos (Ty.signed_promote hs)] at h
    subst h
    refine ⟨-1, CInt.fits_neg hb (by rw [← hs]) (by decide) (by decide), fun heq => ?_⟩
    have hconv := Ty.conv_eq_iff (t := ⟨w, false⟩).2 heq
    rw [readLeft, CInt.uconv_of_neg (x := -1) (by omega) (by decide), hhalf, hhalf,
      CInt.uconv_of_lt (by omega) (by omega), CInt.uconv_of_neg (by omega) (by decide)] at hconv
    omega
  | false =>
    rw [hs, if_neg Bool.false_ne_true, Bool.or_eq_false_iff, Bool.not_eq_false', decide_eq_false_iff_not] at h
    obtain ⟨rfl, hle⟩ := h
    obtain rfl : t.bits = w := by omega
    refine ⟨2 ^ (t.bits - 1), CInt.fits_unsigned_lt hs (by positivity) (by omega), fun heq => ?_⟩
    have hconv := Ty.conv_eq_iff (t := ⟨t.bits, false⟩).2 heq
    rw [readLeft, CInt.sconv_half (by omega), hhalf, hhalf, CInt.uconv_of_neg (by omega) (by omega),
      CInt.uconv_of_lt (by omega) (by omega)] at hconv
    omega

/-- Some value of the type is shifted otherwise than in C by one place, whatever the operands are that carry the two. -/
theorem exists_shift_disagrees {a b : Kind} (ha : a.Roomy) (hb : b.Roomy)
    (hne : a.ty.readsLeft a.ty.promote (8 * a.size) a.signed = false) :
    ∃ (x : Int) (hx : a.ty.Fits x) (hone : b.ty.Fits 1) (z : Val),
      Binop.shr.ceval ⟨a.ty, x, hx⟩ ⟨b.ty, 1, hone⟩ = some z ∧
        ∀ E imms st v w u, a.Carried E imms st v ⟨a.ty, x, hx⟩ → b.Carried E imms st w ⟨b.ty, 1, hone⟩ →
          exprBinop .shr v w = some u → ¬ u.Holds E imms st z.val := by
  have hbits : a.ty.bits ≤ 64 := by
    have := ha.room
    have := ha.size
    omega
  obtain ⟨x, hx, hdiff⟩ := shift_disagrees ha.bits ha.room hne
  have hone : b.ty.Fits 1 := by
    have h2 := hb.bits
    have hp := CInt.two_le_pow (show 1 ≤ b.ty.bits - 1 by omega)
    exact CInt.conv_of_half (w := b.ty.bits) (by omega) (by decide) (by omega)
  have hdef : (1 : Int) < a.ty.promote.bits := by
    have := CInt.bits_le_promote a.ty
    have := ha.bits
    omega
  obtain ⟨z, hz⟩ : ∃ z, Binop.shr.ceval ⟨a.ty, x, hx⟩ ⟨b.ty, 1, hone⟩ = some z := ⟨_, if_pos ⟨Int.one_nonneg, hdef⟩⟩
  have hval := (shr_val hz hbits).2.1
  refine ⟨x, hx, hone, z, hz, fun E imms st v w u hv hw hu hholds => ?_⟩
  obtain ⟨husz, hheld⟩ := holds_shr hv hw ha.size hb.size hb.one_le Int.one_nonneg (show (1 : Int) < 64 by decide) hu
  rw [IlVal.Holds, husz] at hheld hholds
  refine hdiff ?_
  have hcut := congrArg (BitVec.setWidth (8 * a.size)) (hheld.symm.trans hholds)
  rw [setWidth_held ha.size, setWidth_held ha.size, hval] at hcut
  exact hcut

/-- **A right shift follows C's typing**, for all values and amounts, if and only if the first operand is read as it is
promoted; where it is not, some value is already shifted otherwise by one place. -/
theorem shift_agrees_iff (a b : Kind) (ha : a.Roomy) (hb : b.Roomy) :
    (ShiftAgrees a b ↔ a.ty.readsLeft a.ty.promote (8 * a.size) a.signed = true) ∧
      (a.ty.readsLeft a.ty.promote (8 * a.size) a.signed = false →
        ∃ (x : Int) (hx : a.ty.Fits x) (hone : b.ty.Fits 1) (z : Val),
        Binop.shr.ceval ⟨a.ty, x, hx⟩ ⟨b.ty, 1, hone⟩ = some z ∧
          ∀ E imms st v w u, a.Carried E imms st v ⟨a.ty, x, hx⟩ → b.Carried E imms st w ⟨b.ty, 1, hone⟩ →
            exprBinop .shr v w = some u → ¬ u.Holds E imms st z.val) := by
  have hbits : a.ty.bits ≤ 64 := by
    have := ha.room
    have := ha.size
    omega
  refine ⟨⟨fun h => ?_, fun h => ?_⟩, exists_shift_disagrees ha hb⟩
  · by_contra hne
    obtain ⟨x, hx, hone, z, hz, hoff⟩ := exists_shift_disagrees ha hb (Bool.not_eq_true _ ▸ hne)
    obtain ⟨v, hv⟩ := a.exists_carried ⟨[], 0, 0, false⟩ (fun _ => 0) ⟨fun _ => 0, fun _ _ => 0, fun _ => 0⟩ hx
    obtain ⟨w, hw⟩ := b.exists_carried ⟨[], 0, 0, false⟩ (fun _ => 0) ⟨fun _ => 0, fun _ _ => 0, fun _ => 0⟩ hone
    exact hoff _ _ _ v w _ hv hw rfl (h _ _ _ v w _ _ _ z hv hw rfl hz)
  · intro E imms st v w u x y z hv hw hu hz
    have hx : a.ty.Fits x.val := hv.ty ▸ x.fits
    obtain ⟨-, hval, h0, hlt⟩ := shr_val hz (hv.ty ▸ hbits)
    have hheld := (holds_shr hv hw ha.size hb.size hb.one_le h0 hlt hu).2
    rwa [readLeft_promote ha.room h hx, ← hval] at hheld

/-- A shift of an `int` is that of C; a shift of what `&` makes of two of them is not, which counts as unsigned. -/
theorem shift_agrees_words : ShiftAgrees ⟨⟨32, true⟩, 4, true⟩ ⟨⟨32, true⟩, 4, true⟩ ∧
    ¬ShiftAgrees ⟨⟨32, true⟩, 4, false⟩ ⟨⟨32, true⟩, 4, true⟩ := by
  constructor
  · exact (shift_agrees_iff _ _ ⟨by decide, by decide, by decide⟩ ⟨by decide, by decide, by decide⟩).1.2 (by decide)
  · intro h
    have := (shift_agrees_iff _ _ ⟨by decide, by decide, by decide⟩ ⟨by decide, by decide, by decide⟩).1.1 h
    revert this
    decide

end Shift

end Hex
